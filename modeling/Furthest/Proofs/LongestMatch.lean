import Furthest.Proofs.OrderedChoice

/-!
# The longest of some literals

A choice between literals tries the longer ones first, and those of one length in the order in which they are listed
(`filter_longestFirst`). So the first that the input goes on with is the longest one, and what was tried before it are
the literals that are longer, and those of its length that are listed before it: `mem_tried_iff`.

Main statement: `strFrom_longest`.
-/

namespace Furthest

variable {σ : Type} {literals before after tried rest : List Bytes} {w l : Bytes}

/-! ## The order in which literals are tried -/

theorem longer_trans (x y z : Bytes) (hxy : decide (y.length ≤ x.length) = true)
    (hyz : decide (z.length ≤ y.length) = true) : decide (z.length ≤ x.length) = true :=
  decide_eq_true ((of_decide_eq_true hyz).trans (of_decide_eq_true hxy))

theorem longer_total (x y : Bytes) : (decide (y.length ≤ x.length) || decide (x.length ≤ y.length)) = true := by
  simp only [Bool.or_eq_true, decide_eq_true_eq]
  exact Nat.le_total ..

theorem perm_longestFirst (literals : List Bytes) : (longestFirst literals).Perm literals := List.mergeSort_perm ..

theorem pairwise_longestFirst (literals : List Bytes) :
    (longestFirst literals).Pairwise fun x y => y.length ≤ x.length :=
  (List.pairwise_mergeSort longer_trans longer_total literals).imp of_decide_eq_true

/-- Literals of one length stay as they are listed. -/
theorem filter_longestFirst (literals : List Bytes) (n : Nat) :
    (longestFirst literals).filter (·.length = n) = literals.filter (·.length = n) := by
  have hequal : (literals.filter (·.length = n)).Pairwise fun x y => decide (y.length ≤ x.length) = true :=
    List.pairwise_of_forall_mem_list fun x hx y hy => by
      have hx := of_decide_eq_true (List.mem_filter.1 hx).2
      have hy := of_decide_eq_true (List.mem_filter.1 hy).2
      exact decide_eq_true (by omega)
  have hkept : (literals.filter (·.length = n)).Sublist (longestFirst literals) :=
    List.sublist_mergeSort longer_trans longer_total hequal List.filter_sublist
  have hsub := hkept.filter (·.length = n)
  rw [List.filter_filter] at hsub
  simp only [Bool.and_self] at hsub
  exact (hsub.eq_of_length ((perm_longestFirst literals).filter _).length_eq.symm).symm

/-- What is tried before the first place of a literal: the longer ones, and those of its length listed before it. -/
theorem mem_tried_iff (hliterals : literals = before ++ w :: after) (hbefore : w ∉ before)
    (htries : longestFirst literals = tried ++ w :: rest) (htried : w ∉ tried) :
    l ∈ tried ↔ l ∈ literals ∧ w.length < l.length ∨ l ∈ before ∧ l.length = w.length := by
  have hmem : l ∈ tried ++ w :: rest ↔ l ∈ literals := by rw [← htries, (perm_longestFirst literals).mem_iff]
  have hsorted := pairwise_longestFirst literals
  rw [htries, List.pairwise_append, List.pairwise_cons] at hsorted
  obtain ⟨-, ⟨hrest, -⟩, hle⟩ := hsorted
  -- Among the literals of its length, the same are listed before it as are tried before it.
  have hsame : tried.filter (·.length = w.length) = before.filter (·.length = w.length) := by
    have hfilter := filter_longestFirst literals w.length
    rw [htries, hliterals, List.filter_append, List.filter_append, List.filter_cons_of_pos (by simp),
      List.filter_cons_of_pos (by simp)] at hfilter
    have hne {xs : List Bytes} (hw : w ∉ xs) : ∀ x ∈ xs.filter (·.length = w.length), x ≠ w := fun x hx heq =>
      hw (heq ▸ List.mem_of_mem_filter hx)
    exact (Choice.split_unique (hne htried) (hne hbefore) (absurd rfl) (absurd rfl) hfilter).1
  have hlength : l ∈ tried ∧ l.length = w.length ↔ l ∈ before ∧ l.length = w.length := by
    simpa only [List.mem_filter, decide_eq_true_eq] using iff_of_eq (congrArg (l ∈ ·) hsame)
  constructor
  · intro hl
    rcases Nat.lt_or_eq_of_le (hle l hl w List.mem_cons_self) with hlt | heq
    · exact .inl ⟨hmem.1 (List.mem_append_left _ hl), hlt⟩
    · exact .inr (hlength.1 ⟨hl, heq.symm⟩)
  · rintro (⟨hl, hlt⟩ | hl)
    · rcases List.mem_append.1 (hmem.2 hl) with hl | hl
      · exact hl
      · rcases List.mem_cons.1 hl with rfl | hl
        · exact absurd hlt (Nat.lt_irrefl _)
        · exact absurd (hrest l hl) (Nat.not_le.2 hlt)
    · exact (hlength.2 hl).1

/-! ## Literals that are tried -/

/-- The literal is the longest of those that a text goes on with. -/
structure LongestMatch (literals : List Bytes) (text w : Bytes) : Prop where
  mem : w ∈ literals
  begins : w <+: text
  longest : ∀ l ∈ literals, l <+: text → l.length ≤ w.length

/-- A text goes on with one longest literal alone. -/
theorem LongestMatch.unique {text w' : Bytes} (h : LongestMatch literals text w) (h' : LongestMatch literals text w') :
    w = w' := by
  have hlength : w.length = w'.length := Nat.le_antisymm (h'.longest w h.mem h.begins) (h.longest w' h'.mem h'.begins)
  exact (List.prefix_of_prefix_length_le h.begins h'.begins hlength.le).eq_of_length hlength

/-- What has failed at a cursor: nothing, if nothing was expected there. -/
def Record.failedAt (i : Nat) (s : Labels) : Record := if s = ∅ then ∅ else .raised i s

theorem Labels.singleton_union_ne_empty (label : Bytes) (s : Labels) : singleton label ∪ s ≠ ∅ := fun h =>
  not_mem_empty label (h ▸ mem_union.2 (.inl (mem_singleton.2 rfl)))

theorem Record.raised_merge_failedAt (i : Nat) (label : Bytes) (s : Labels) :
    (raised i (.singleton label)).merge (failedAt i s) = failedAt i (.singleton label ∪ s) := by
  rw [failedAt, failedAt, if_neg (Labels.singleton_union_ne_empty label s)]
  split
  · next hs =>
    rw [merge_empty, hs]
    exact congrArg (raised i) (Labels.ext fun l => by simp)
  · exact raised_merge_self i _ _

namespace Parser

variable {xs : Bytes} {i : Nat}

section

variable (hi : i ≤ xs.length)
include hi

theorem str_eq_success (hl : l <+: xs.drop i) :
    (str l xs i : Run σ (Result Bytes)) = return .success l (i + l.length) ∅ := by
  rw [str, if_neg (Nat.not_lt.2 hi), if_pos (List.isPrefixOf_iff_prefix.2 hl)]

theorem str_eq_fail (hl : ¬l <+: xs.drop i) : (str l xs i : Run σ (Result Bytes)) = return .fail i (.singleton l) := by
  rw [str, if_neg (Nat.not_lt.2 hi), if_neg (mt List.isPrefixOf_iff_prefix.1 hl)]

/-- Literals that the input does not go on with fail one after the other. -/
theorem altFrom_str (htried : ∀ l ∈ tried, ¬l <+: xs.drop i) (ps : List (Parser σ UInt8 Bytes)) (s : Labels) :
    altFrom xs i (tried.map str ++ ps) (.failedAt i s) = altFrom xs i ps (.failedAt i (.ofList tried ∪ s)) := by
  induction tried generalizing s with
  | nil =>
    have hempty : Labels.ofList [] ∪ s = s := Labels.ext fun l => by simp
    rw [hempty, List.map_nil, List.nil_append]
  | cons l tried ih =>
    obtain ⟨hl, htried⟩ := List.forall_mem_cons.1 htried
    have hunion : Labels.ofList tried ∪ (.singleton l ∪ s) = .ofList (l :: tried) ∪ s := Labels.ext fun l' => by
      simp only [Labels.mem_union, Labels.mem_ofList, Labels.mem_singleton, List.mem_cons]
      rw [← or_assoc, or_comm (a := l' ∈ tried)]
    rw [List.map_cons, List.cons_append, altFrom_cons, str_eq_fail hi hl, pure_bind, Result.fail, Result.aggregate,
      Record.raised_merge_failedAt]
    exact (ih htried (.singleton l ∪ s)).trans (by rw [hunion])

/-- Where the input goes on with a literal, the longest is found, and what was tried before it was expected. -/
theorem strFrom_eq_success (hmatch : ∃ l ∈ literals, l <+: xs.drop i) :
    ∃ before w after s, literals = before ++ w :: after ∧ w ∉ before ∧ LongestMatch literals (xs.drop i) w ∧
      (∀ l, l ∈ s ↔ l ∈ literals ∧ w.length < l.length ∨ l ∈ before ∧ l.length = w.length) ∧
      (strFrom literals xs i : Run σ (Result Bytes)) = return .success w (i + w.length) (.failedAt i s) := by
  obtain ⟨l, hl, hbegins⟩ := hmatch
  have hfound : ((longestFirst literals).find? (·.isPrefixOf (xs.drop i))).isSome :=
    List.find?_isSome.2 ⟨l, (perm_longestFirst literals).mem_iff.2 hl, List.isPrefixOf_iff_prefix.2 hbegins⟩
  obtain ⟨w, hw⟩ := Option.isSome_iff_exists.1 hfound
  obtain ⟨hw, tried, rest, htries, hfailed⟩ := List.find?_eq_some_iff_append.1 hw
  have hw : w <+: xs.drop i := List.isPrefixOf_iff_prefix.1 hw
  have htried : ∀ l ∈ tried, ¬l <+: xs.drop i := fun l hl h => by
    simpa [List.isPrefixOf_iff_prefix.2 h] using hfailed l hl
  have hwtried : w ∉ tried := fun h => htried w h hw
  have hmem : w ∈ literals := (perm_longestFirst literals).mem_iff.1 (htries ▸ by simp)
  obtain ⟨before, after, hliterals, hbefore⟩ := List.eq_append_cons_of_mem hmem
  have hmem_tried (l : Bytes) := mem_tried_iff (l := l) hliterals hbefore htries hwtried
  refine ⟨before, w, after, .ofList tried, hliterals, hbefore, ⟨hmem, hw, fun l hl hbegins => ?longest⟩,
    fun l => Labels.mem_ofList.trans (hmem_tried l), ?run⟩
  case longest =>
    -- A longer literal would have been tried before.
    by_contra hlt
    exact htried l ((hmem_tried l).2 (.inl ⟨hl, Nat.not_le.1 hlt⟩)) hbegins
  case run =>
    have hunion : Labels.ofList tried ∪ ∅ = .ofList tried := Labels.ext fun l => by simp
    have hproper : (Record.failedAt i (.ofList tried)).Proper := by
      rw [Record.failedAt]
      split
      · exact Record.proper_empty
      · exact Record.proper_of_isEngaged rfl
    have hfails := altFrom_str (σ := σ) hi htried (List.map str (w :: rest)) ∅
    rw [← List.map_append, ← htries, hunion, List.map_cons, altFrom_cons, str_eq_success hi hw, pure_bind,
      Result.aggregate, Record.empty_merge hproper] at hfails
    exact hfails

/-- Where the input goes on with no literal, all of them were expected. -/
theorem strFrom_eq_fail (hnone : ∀ l ∈ literals, ¬l <+: xs.drop i) :
    (strFrom literals xs i : Run σ (Result Bytes)) = return .fail i (.ofList literals) := by
  have htried : ∀ l ∈ longestFirst literals, ¬l <+: xs.drop i := fun l hl =>
    hnone l ((perm_longestFirst literals).mem_iff.1 hl)
  have hfails := altFrom_str (σ := σ) hi htried [] ∅
  have hunion : Labels.ofList (longestFirst literals) ∪ ∅ = .ofList literals := Labels.ext fun l => by
    simp [(perm_longestFirst literals).mem_iff]
  rw [List.append_nil, hunion] at hfails
  refine Eq.trans hfails ?_
  rw [Record.failedAt]
  split
  · next hempty => rw [hempty]; rfl
  · exact altFrom_nil rfl

end

end Parser

/-! ## Main statement -/

/-- Within an input, a choice between literals succeeds exactly if the input goes on with one of them, with the longest
one. It has then seen those fail at the cursor that are longer, and those other ones of the same length that are listed
before it, and nothing if there are none. Else it fails, and expects all literals. How the literals are listed plays no
part in the verdict. -/
theorem strFrom_longest (literals : List Bytes) {xs : Bytes} {i : Nat} (hi : i ≤ xs.length) :
    (∀ env : Env σ, Chain.Succeeded ((Parser.strFrom literals xs i).outcome env) ↔ ∃ l ∈ literals, l <+: xs.drop i) ∧
    ((∃ l ∈ literals, l <+: xs.drop i) → ∃ before w after s, literals = before ++ w :: after ∧ w ∉ before ∧
      LongestMatch literals (xs.drop i) w ∧
      (∀ l, l ∈ s ↔ l ∈ literals ∧ w.length < l.length ∨ l ∈ before ∧ l.length = w.length) ∧
      (Parser.strFrom literals xs i : Run σ (Result Bytes)) =
        return .success w (i + w.length) (if s = ∅ then ∅ else .raised i s)) ∧
    ((∀ l ∈ literals, ¬l <+: xs.drop i) →
      (Parser.strFrom literals xs i : Run σ (Result Bytes)) = return .fail i (.ofList literals)) ∧
    ∀ literals', literals.Perm literals' →
      (do return (← Parser.strFrom literals xs i).verdict : Run σ (Except Record (Bytes × Nat))) =
        do return (← Parser.strFrom literals' xs i).verdict := by
  refine ⟨fun env => ⟨fun hsucceeded => ?only, fun hmatch => ?succeeds⟩, Parser.strFrom_eq_success hi,
    Parser.strFrom_eq_fail hi, fun literals' hperm => ?perm⟩
  case only =>
    by_contra hnone
    rw [Parser.strFrom_eq_fail hi fun l hl hbegins => hnone ⟨l, hl, hbegins⟩] at hsucceeded
    obtain ⟨v, n, r, h⟩ := hsucceeded
    cases h
  case succeeds =>
    obtain ⟨before, w, after, s, -, -, -, -, hrun⟩ := Parser.strFrom_eq_success (σ := σ) hi hmatch
    rw [hrun]
    exact ⟨w, _, _, rfl⟩
  case perm =>
    by_cases hmatch : ∃ l ∈ literals, l <+: xs.drop i
    · have hmatch' : ∃ l ∈ literals', l <+: xs.drop i := by simpa only [hperm.mem_iff] using hmatch
      obtain ⟨-, w, -, s, -, -, hlongest, -, hrun⟩ := Parser.strFrom_eq_success (σ := σ) hi hmatch
      obtain ⟨-, w', -, s', -, -, hlongest', -, hrun'⟩ := Parser.strFrom_eq_success (σ := σ) hi hmatch'
      have hsame : LongestMatch literals (xs.drop i) w' :=
        ⟨hperm.mem_iff.2 hlongest'.mem, hlongest'.begins, fun l hl => hlongest'.longest l (hperm.mem_iff.1 hl)⟩
      obtain rfl := hlongest.unique hsame
      rw [hrun, hrun']
      rfl
    · have hnone : ∀ l ∈ literals, ¬l <+: xs.drop i := fun l hl hbegins => hmatch ⟨l, hl, hbegins⟩
      have hlabels : Labels.ofList literals = .ofList literals' := Labels.ext fun l => by simp [hperm.mem_iff]
      rw [Parser.strFrom_eq_fail hi hnone, hlabels,
        Parser.strFrom_eq_fail hi fun l hl => hnone l (hperm.mem_iff.2 hl)]

/-- The empty literal, literals that begin alike, and one that is listed twice: the longest match, and what it has seen
in two orders of the list. -/
theorem strFrom_longest_of_shared_beginnings :
    let text : Bytes := ascii "xabc"
    let literals := [[], ascii "a", ascii "ad", ascii "ab", ascii "ac", ascii "ab", ascii "abcd"]
    let others := [ascii "b", ascii "ac"]
    let env : Env Unit := ⟨.ofLevel .off, ()⟩
    let found (ls : List Bytes) : Run Unit (Result Bytes) := Parser.strFrom ls text 1
    1 ≤ text.length ∧ (∃ l ∈ literals, l <+: text.drop 1) ∧ Chain.Succeeded ((found literals).outcome env) ∧
      (∃ w, LongestMatch literals (text.drop 1) w) ∧
      (found literals).outcome env =
        .ok (.success (ascii "ab") 3 (.raised 1 (.ofList [ascii "ad", ascii "abcd"]))) ∧
      (found literals.reverse).outcome env =
        .ok (.success (ascii "ab") 3 (.raised 1 (.singleton (ascii "abcd")))) ∧
      literals.Perm literals.reverse ∧
      (do return (← found literals).verdict) = (do return (← found literals.reverse).verdict) ∧
      (∀ l ∈ others, ¬l <+: text.drop 1) ∧ found others = return .fail 1 (.ofList others) := by
  intro text literals others env found
  have hi : 1 ≤ text.length := by decide
  have hmatch : ∃ l ∈ literals, l <+: text.drop 1 := by decide
  have hperm : literals.Perm literals.reverse := (List.reverse_perm literals).symm
  have hnone : ∀ l ∈ others, ¬l <+: text.drop 1 := by decide
  have hlisted : longestFirst literals =
      [ascii "abcd", ascii "ad", ascii "ab", ascii "ac", ascii "ab", ascii "a", []] := by
    simp +decide [longestFirst, literals, List.mergeSort, List.MergeSort.Internal.splitInTwo]
  have hreversed : longestFirst literals.reverse =
      [ascii "abcd", ascii "ab", ascii "ac", ascii "ab", ascii "ad", ascii "a", []] := by
    simp +decide [longestFirst, literals, List.mergeSort, List.MergeSort.Internal.splitInTwo]
  obtain ⟨succeeds, longest, -, permutes⟩ := strFrom_longest (σ := Unit) literals hi
  obtain ⟨-, -, fails, -⟩ := strFrom_longest (σ := Unit) others hi
  obtain ⟨-, w, -, -, -, -, hlongest, -⟩ := longest hmatch
  refine ⟨hi, hmatch, (succeeds env).2 hmatch, ⟨w, hlongest⟩, ?listed, ?reversed, hperm, permutes _ hperm, hnone,
    fails hnone⟩
  case listed =>
    simp only [found, Parser.strFrom, hlisted]
    rfl
  case reversed =>
    simp only [found, Parser.strFrom, hreversed]
    rfl

end Furthest
