import Furthest.Proofs.Congruence
import Furthest.Proofs.CursorBounds
import Furthest.Proofs.Described
import Furthest.Proofs.Notes

/-!
# Traced invocations

A `Span` is an invocation of a traced parser: its name and cursor, how it ended, and the traced invocations inside
it. `Combination.watched` runs a parser as `Combination.parser` does, but notes spans instead of writing to the log.
`Run.Logs` has that a run writes the entries of the spans that a watched run notes: an attempt, what is inside it,
and how it ended, unless it was given up. `Entry.unclosed` reads entries as brackets.

Main statement: `log_well_nested`.
-/

namespace Furthest

variable {σ ι α β γ ν : Type}

/-! ## Logs of several entries -/

namespace Log

/-- Keeps those entries that are at or above the level. -/
def recordAll (log : Log) (es : List Entry) : Log := es.foldl record log

@[simp] theorem level_recordAll (log : Log) (es : List Entry) : (log.recordAll es).level = log.level := by
  induction es generalizing log with
  | nil => rfl
  | cons e es ih => exact (ih _).trans (log.level_record e)

theorem recordAll_append (log : Log) (es es' : List Entry) :
    log.recordAll (es ++ es') = (log.recordAll es).recordAll es' := List.foldl_append

/-- What is kept of several entries. -/
theorem entries_recordAll (log : Log) (es : List Entry) :
    (log.recordAll es).entries.toList =
      log.entries.toList ++ es.filter fun e => log.level.rank ≤ e.level.rank := by
  induction es generalizing log with
  | nil => simp [recordAll]
  | cons e es ih =>
    have h := ih (log.record e)
    simp only [entries_record, level_record, List.append_assoc] at h
    rw [recordAll, List.foldl_cons, ← recordAll, h, List.filter_cons]
    by_cases he : log.level.rank ≤ e.level.rank <;> simp [he]

/-- A log of the lowest level keeps everything. -/
theorem entries_recordAll_of_trace {log : Log} (h : log.level = .trace) (es : List Entry) :
    (log.recordAll es).entries.toList = log.entries.toList ++ es := by
  rw [entries_recordAll, h, List.filter_eq_self.2]
  simp [Level.rank]

end Log

/-! ## Spans -/

/-- An invocation of a traced parser. -/
inductive Span where
  | mk (name : Bytes) (start : Nat) (ending : Ending) (inside : List Span)

/-- The entries for the end of an attempt. There are none where the attempt was given up. -/
def Ending.entries (name : Bytes) (start : Nat) : Ending → List Entry
  | matched next _ => [.matched name start next]
  | failed r => r.index.toList.map fun index => .failed name start index r.labels
  | gaveUp _ => []

/-- An attempt: the name of a traced parser, and the cursor at which it was invoked. -/
structure Attempt where
  name : Bytes
  start : Nat
deriving DecidableEq, Repr

namespace Span

mutual

/-- The entries for an invocation and for those inside it. -/
def entries : Span → List Entry
  | mk name start ending inside => .attempted name start :: (entriesAll inside ++ ending.entries name start)

def entriesAll : List Span → List Entry
  | [] => []
  | s :: l => s.entries ++ entriesAll l

end

mutual

/-- The attempts that were active when an invocation was given up, the innermost first. -/
def active : Span → List Attempt
  | mk name start (.gaveUp _) inside => activeAll inside ++ [⟨name, start⟩]
  | _ => []

def activeAll : List Span → List Attempt
  | [] => []
  | s :: l => s.active ++ activeAll l

end

@[simp] theorem entriesAll_append (l l' : List Span) : entriesAll (l ++ l') = entriesAll l ++ entriesAll l' := by
  induction l with
  | nil => rfl
  | cons s l ih => simp [entriesAll, ih]

@[simp] theorem entriesAll_singleton (s : Span) : entriesAll [s] = s.entries := List.append_nil _

@[simp] theorem activeAll_append (l l' : List Span) : activeAll (l ++ l') = activeAll l ++ activeAll l' := by
  induction l with
  | nil => rfl
  | cons s l ih => simp [activeAll, ih]

@[simp] theorem activeAll_singleton (s : Span) : activeAll [s] = s.active := List.append_nil _

end Span

namespace Ending

/-- An attempt at a cursor is over: it was not given up, and what it reached is not below the cursor. -/
def Over (start : Nat) : Ending → Prop
  | matched next _ => start ≤ next
  | failed r => ∃ k, r.index = some k ∧ start ≤ k
  | gaveUp _ => False

/-- An attempt that is over makes one entry. -/
theorem Over.exists_entry {start : Nat} {e : Ending} (h : e.Over start) (name : Bytes) :
    ∃ entry, e.entries name start = [entry] := by
  cases e with
  | matched n r => exact ⟨_, rfl⟩
  | failed r =>
    obtain ⟨k, hk, -⟩ := h
    exact ⟨.failed name start k r.labels, by simp [entries, hk]⟩
  | gaveUp cause => exact h.elim

/-- It is the entry that the end of an attempt makes. -/
theorem outcomeEntry_of_entries {o : Result α} {name : Bytes} {start : Nat} {entry : Entry}
    (h : (of (.ok o)).entries name start = [entry]) : Parser.outcomeEntry name start o = .ok entry := by
  cases o with
  | success v n r => exact congrArg Except.ok (List.singleton_inj.1 h)
  | failure c r =>
    rcases hr : r.index with _ | k <;> simp [entries, hr] at h
    rw [← h]
    simp [Parser.outcomeEntry, Result.index, Result.furthest, hr]
    rfl

end Ending

namespace Span

/-- A traced invocation that is over, as are all that are inside it. -/
inductive Closed : Span → Prop
  | mk {name : Bytes} {start : Nat} {ending : Ending} {inside : List Span} (hover : ending.Over start)
    (closed : ∀ s ∈ inside, Closed s) : Closed (mk name start ending inside)

/-- A traced invocation that was given up, itself or in the last of those that are inside it. -/
inductive Broken (cause : Fault) : Span → Prop
  | here {name : Bytes} {start : Nat} {inside : List Span} (closed : ∀ s ∈ inside, s.Closed) :
    Broken cause (mk name start (.gaveUp cause) inside)
  | inside {name : Bytes} {start : Nat} {before : List Span} {last : Span} (closed : ∀ s ∈ before, s.Closed)
    (broken : Broken cause last) : Broken cause (mk name start (.gaveUp cause) (before ++ [last]))

/-- The traced invocations of a run are over if it ends, and else but for the last one at most. -/
def Fits : Except Fault α → List Span → Prop
  | .ok _, l => ∀ s ∈ l, s.Closed
  | .error cause, l =>
    (∀ s ∈ l, s.Closed) ∨ ∃ before last, l = before ++ [last] ∧ (∀ s ∈ before, s.Closed) ∧ last.Broken cause

theorem Fits.append {l l' : List Span} {ended : Except Fault α} (h : ∀ s ∈ l, s.Closed) (h' : Fits ended l') :
    Fits ended (l ++ l') := by
  cases ended with
  | ok v => exact List.forall_mem_append.2 ⟨h, h'⟩
  | error cause =>
    rcases h' with h' | ⟨before, last, rfl, hbefore, hlast⟩
    · exact .inl (List.forall_mem_append.2 ⟨h, h'⟩)
    · exact .inr ⟨l ++ before, last, (List.append_assoc ..).symm, List.forall_mem_append.2 ⟨h, hbefore⟩, hlast⟩

theorem Fits.broken {cause : Fault} {l : List Span} (h : Fits (.error cause : Except Fault α) l) (name : Bytes)
    (start : Nat) : Broken cause (mk name start (.gaveUp cause) l) := by
  rcases h with h | ⟨before, last, rfl, hbefore, hlast⟩
  · exact .here h
  · exact .inside hbefore hlast

end Span

/-! ## Levels of entries -/

/-- The entry says how an attempt ended. -/
def Entry.isOutcome : Entry → Bool
  | matched .. | failed .. => true
  | attempted .. | note _ => false

theorem Ending.rank_le_of_mem {name : Bytes} {start : Nat} {e : Ending} {entry : Entry}
    (h : entry ∈ e.entries name start) : entry.level.rank ≤ Level.debug.rank := by
  cases e with
  | matched n r =>
    obtain rfl := List.mem_singleton.1 h
    exact Nat.le_refl _
  | failed r =>
    obtain ⟨k, -, rfl⟩ := List.mem_map.1 h
    exact Nat.le_refl _
  | gaveUp cause => exact nomatch h

namespace Span

mutual

/-- Tracing makes no entry above the second level. -/
theorem rank_le_of_mem {entry : Entry} : ∀ {s : Span}, entry ∈ s.entries → entry.level.rank ≤ Level.debug.rank
  | mk name start ending inside, h => by
    rw [entries, List.mem_cons, List.mem_append] at h
    rcases h with rfl | h | h
    · exact Nat.zero_le _
    · exact rank_le_of_mem_all h
    · exact Ending.rank_le_of_mem h

theorem rank_le_of_mem_all {entry : Entry} :
    ∀ {l : List Span}, entry ∈ entriesAll l → entry.level.rank ≤ Level.debug.rank
  | s :: l, h => by
    rw [entriesAll, List.mem_append] at h
    rcases h with h | h
    · exact rank_le_of_mem h
    · exact rank_le_of_mem_all h

end

/-- At the second level, the ends of attempts are what is kept. -/
theorem filter_entriesAll_of_debug (l : List Span) :
    (entriesAll l).filter (fun entry => Level.debug.rank ≤ entry.level.rank) =
      (entriesAll l).filter Entry.isOutcome := by
  refine List.filter_congr fun entry hentry => ?_
  have hle := rank_le_of_mem_all hentry
  cases entry with
  | note text => exact absurd hle (Nat.not_succ_le_self 1)
  | _ => rfl

/-- At a higher level, nothing is kept. -/
theorem filter_entriesAll_of_lt {level : Level} (h : Level.debug.rank < level.rank) (l : List Span) :
    (entriesAll l).filter (fun entry => level.rank ≤ entry.level.rank) = [] := by
  refine List.filter_eq_nil_iff.2 fun entry hentry hle => ?_
  exact absurd (h.trans_le (of_decide_eq_true hle)) (Nat.not_lt.2 (rank_le_of_mem_all hentry))

end Span

/-! ## Reading entries as brackets -/

namespace Entry

/-- The attempts that are open after an entry, the last opened first. An outcome closes the last attempt that was
opened, if it has the name and the cursor of that one. -/
def advance : List Attempt → Entry → Option (List Attempt)
  | opened, attempted name start => some (⟨name, start⟩ :: opened)
  | last :: opened, matched name start _ => if last = ⟨name, start⟩ then some opened else none
  | last :: opened, failed name start _ _ => if last = ⟨name, start⟩ then some opened else none
  | _, _ => none

/-- The attempts that are still open after some entries, if each outcome closes the last attempt. -/
def unclosed (es : List Entry) : Option (List Attempt) := es.foldlM advance []

end Entry

namespace Span

variable {opened : List Attempt}

theorem foldlM_advance_all {l : List Span} (h : ∀ s ∈ l, s.entries.foldlM Entry.advance opened = some opened) :
    (entriesAll l).foldlM Entry.advance opened = some opened := by
  induction l with
  | nil => rfl
  | cons s l ih =>
    obtain ⟨hs, hl⟩ := List.forall_mem_cons.1 h
    rw [entriesAll, List.foldlM_append, hs]
    exact ih hl

/-- An invocation that is over opens an attempt and closes it. -/
theorem Closed.foldlM_advance {s : Span} (h : s.Closed) (opened : List Attempt) :
    s.entries.foldlM Entry.advance opened = some opened := by
  induction h generalizing opened with
  | @mk name start ending inside hover _ ih =>
    rw [entries, List.foldlM_cons]
    show List.foldlM _ (⟨name, start⟩ :: opened) _ = _
    rw [List.foldlM_append, foldlM_advance_all fun s hs => ih s hs _]
    cases ending with
    | matched n r => simp [Ending.entries, Entry.advance]
    | failed r =>
      obtain ⟨k, hk, -⟩ := hover
      simp [Ending.entries, hk, Entry.advance]
    | gaveUp cause => exact hover.elim

theorem Closed.active_eq_nil {s : Span} (h : s.Closed) : s.active = [] := by
  cases h with
  | @mk _ _ ending _ hover _ =>
    cases ending with
    | gaveUp cause => exact hover.elim
    | _ => rfl

theorem activeAll_eq_nil {l : List Span} (h : ∀ s ∈ l, s.Closed) : activeAll l = [] := by
  induction l with
  | nil => rfl
  | cons s l ih =>
    obtain ⟨hs, hl⟩ := List.forall_mem_cons.1 h
    rw [activeAll, hs.active_eq_nil, ih hl, List.nil_append]

/-- An invocation that was given up leaves its active attempts open. -/
theorem Broken.foldlM_advance {cause : Fault} {s : Span} (h : s.Broken cause) (opened : List Attempt) :
    s.entries.foldlM Entry.advance opened = some (s.active ++ opened) := by
  induction h generalizing opened with
  | @here name start inside closed =>
    rw [entries, List.foldlM_cons]
    show List.foldlM _ (⟨name, start⟩ :: opened) _ = _
    rw [List.foldlM_append, foldlM_advance_all fun s hs => (closed s hs).foldlM_advance _, active,
      activeAll_eq_nil closed]
    rfl
  | @inside name start before last closed _ ih =>
    rw [entries, List.foldlM_cons]
    show List.foldlM _ (⟨name, start⟩ :: opened) _ = _
    rw [entriesAll_append, entriesAll_singleton, Ending.entries, List.append_nil, List.foldlM_append,
      foldlM_advance_all fun s hs => (closed s hs).foldlM_advance _, active, activeAll_append,
      activeAll_singleton, activeAll_eq_nil closed]
    simpa using ih (⟨name, start⟩ :: opened)

/-- The entries of a run that ends close all attempts; those of a run that is given up leave the active ones. -/
theorem Fits.unclosed_eq {ended : Except Fault α} {l : List Span} (h : Fits ended l) :
    Entry.unclosed (entriesAll l) = some (activeAll l) := by
  have closed {l : List Span} (h : ∀ s ∈ l, s.Closed) : Entry.unclosed (entriesAll l) = some [] :=
    foldlM_advance_all fun s hs => (h s hs).foldlM_advance []
  rcases ended with cause | v
  · rcases h with h | ⟨before, last, rfl, hbefore, hlast⟩
    · rw [closed h, activeAll_eq_nil h]
    · rw [Entry.unclosed, entriesAll_append, entriesAll_singleton, activeAll_append, activeAll_singleton,
        activeAll_eq_nil hbefore, List.foldlM_append, ← Entry.unclosed, closed hbefore]
      simpa using hlast.foldlM_advance []
  · rw [closed h, activeAll_eq_nil h]

end Span

/-! ## Watched runs -/

/-- From every store, a watched run ends as a run does and leaves the same store. It notes some spans, and leaves
the log as it is; the run writes the entries of these spans. -/
def Run.Logs (x : Run σ α) (x' : Run (Noted Span σ) α) : Prop :=
  ∀ s, ∃ ended s' l, Span.Fits ended l ∧ ∀ log,
    x.execute ⟨log, s⟩ = (ended, ⟨log.recordAll (Span.entriesAll l), s'⟩) ∧
      ∀ notes, x'.execute (Env.noting ⟨log, s⟩ notes) = (ended, Env.noting ⟨log, s'⟩ (notes ++ l))

namespace Run.Logs

theorem ofExcept (e : Except Fault α) : (Run.ofExcept e : Run σ α).Logs (Run.ofExcept e) := fun s => by
  refine ⟨e, s, [], ?_, fun log => ⟨rfl, fun notes => by simp⟩⟩
  cases e with
  | ok v => exact nofun
  | error cause => exact .inl nofun

theorem bind {x : Run σ α} {x' : Run (Noted Span σ) α} {f : α → Run σ β} {f' : α → Run (Noted Span σ) β}
    (hx : x.Logs x') (hf : ∀ v, (f v).Logs (f' v)) : (x >>= f).Logs (x' >>= f') := fun s => by
  obtain ⟨ended, s', l, hl, hx⟩ := hx s
  cases ended with
  | error cause =>
    refine ⟨.error cause, s', l, hl, fun log => ?_⟩
    obtain ⟨hrun, hwatched⟩ := hx log
    exact ⟨by rw [execute_bind, hrun], fun notes => by rw [execute_bind, hwatched]⟩
  | ok v =>
    obtain ⟨ended, s'', l', hl', hf⟩ := hf v s'
    refine ⟨ended, s'', l ++ l', hl'.append hl, fun log => ?_⟩
    obtain ⟨hrun, hwatched⟩ := hx log
    refine ⟨?_, fun notes => ?_⟩
    · rw [execute_bind, hrun, Span.entriesAll_append, Log.recordAll_append]
      exact (hf _).1
    · rw [execute_bind, hwatched, ← List.append_assoc]
      exact (hf log).2 _

/-- A silent run notes nothing. -/
theorem silent {x : Run σ α} (hx : x.Silent) : x.Logs x.unnoted := fun s => by
  obtain ⟨ended, s', hx⟩ := hx s
  refine ⟨ended, s', [], ?_, fun log => ⟨hx log, fun notes => ?_⟩⟩
  · cases ended with
    | ok v => exact nofun
    | error cause => exact .inl nofun
  · rw [execute_unnoted, hx, List.append_nil]

/-- Runs that log the spans that watched runs note. -/
def congruence (σ : Type) : Run.Congruence σ (Noted Span σ) where
  holds := Logs
  ofExcept := ofExcept
  bind := bind

end Run.Logs

namespace Combination

/-- The parser that was built, noting the traced invocations instead of logging them. -/
def watched : {α : Type} → Combination σ ι α → Parser (Noted Span σ) ι α
  | _, primitive l => l.parser
  | _, giveUp cause => Parser.giveUp cause
  | _, andThen p q => p.watched.andThen q.watched
  | _, skip p q => p.watched.skip q.watched
  | _, pair p q => p.watched.pair q.watched
  | _, sequence ps => Parser.sequence ((List.finRange _).map fun k => (ps k).watched)
  | _, alt ps => Parser.alt ((List.finRange _).map fun k => (ps k).watched)
  | _, times p b => p.watched.times b
  | _, sepBy p sep b => p.watched.sepBy sep.watched b
  | _, manyUntil p stop b => p.watched.manyUntil stop.watched b
  | _, tryMap p f => p.watched.tryMap f
  | _, bind p f => p.watched.bind fun v => (f v).watched
  | _, mark p => p.watched.mark
  | _, desc p label => p.watched.desc label
  | _, shouldFail p label => p.watched.shouldFail label
  | _, peek p => p.watched.peek
  | _, traced p name => fun xs i => (p.watched xs i).gathered fun ended inside => .mk name i (.of ended) inside
  | _, deferred found enter => fun xs i => do (enter (← found.unnoted)).watched xs i
  | _, rule body => fun xs i => (body xs i).watched xs i

end Combination

/-! ## Ends of traced invocations -/

theorem Ending.Within.widen {i stop stop' : Nat} {e : Ending} (h : e.Within i stop) (hs : stop ≤ stop') :
    e.Within i stop' := by
  cases e with
  | matched n r => exact ⟨h.1, h.2.1.trans hs, fun k hk => (h.2.2 k hk).imp_right fun hk => hk.trans hs⟩
  | failed r =>
    obtain ⟨k, hk, hik, hks⟩ := h
    exact ⟨k, hk, hik, hks.trans hs⟩
  | gaveUp cause => trivial

/-- From any cursor, beyond the end of the input too, an invocation ends and sees failures no lower. -/
def Discipline.notBefore (xs : List ι) : Discipline xs where
  holds i _ e := ∃ stop, e.Within i stop
  engaged := by
    rintro i - r ⟨stop, k, hk, -⟩
    exact Record.isEngaged_iff.2 ⟨k, hk⟩
  leaf p i := by
    rcases p.ended_cases xs i with ⟨v, n, h, hi, -⟩ | h | ⟨-, h⟩ <;> rw [h]
    · exact ⟨n, hi, Nat.le_refl n, nofun⟩
    · exact ⟨i, i, rfl, Nat.le_refl i, Nat.le_refl i⟩
    · exact ⟨i, trivial⟩
  idle i := ⟨i, Nat.le_refl i, Nat.le_refl i, nofun⟩
  declined _ := ⟨0, trivial⟩
  next := by
    rintro i n - - r e ⟨stop, hin, hn, hr⟩ ⟨stop', h'⟩
    refine ⟨max stop stop', ((h'.widen (Nat.le_max_right ..)).mono hin).aggregate fun k hk => ?_⟩
    exact (hr k hk).imp_right fun h => h.trans (Nat.le_max_left ..)
  absorb := by
    rintro i - r ⟨stop, k, hk, hik, hks⟩
    refine ⟨stop, Nat.le_refl i, hik.trans hks, fun j hj => ?_⟩
    cases hk.symm.trans hj
    exact ⟨hik, hks⟩
  back := by
    rintro i n - r ⟨stop, hin, hn, hr⟩
    exact ⟨stop, Nat.le_refl i, hin.trans hn, hr⟩
  refuse := by
    rintro i n - r ⟨stop, -, -, hr⟩ he
    obtain ⟨k, hk⟩ := Record.isEngaged_iff.1 he
    exact ⟨stop, k, hk, hr k hk⟩
  emptyChoice i := ⟨i, i, rfl, Nat.le_refl i, Nat.le_refl i⟩
  desc := by
    rintro i - e label ⟨stop, h⟩
    cases e with
    | failed r => exact ⟨i, i, rfl, Nat.le_refl i, Nat.le_refl i⟩
    | _ => exact ⟨stop, h⟩
  shouldFail := by
    rintro i - e label ⟨stop, h⟩
    cases e with
    | matched n r => exact ⟨i, i, rfl, Nat.le_refl i, Nat.le_refl i⟩
    | failed r => exact ⟨i, Nat.le_refl i, Nat.le_refl i, nofun⟩
    | gaveUp cause => exact ⟨i, trivial⟩

/-- An invocation that ends is over: it did not go below its cursor, and a failure has an index. -/
theorem Combination.isOver (e : Combination σ ι α) {xs : List ι} {i : Nat} {env : Env σ} {o : Result α}
    (h : (e.parser xs i).outcome env = .ok o) : (Ending.of (.ok o)).Over i := by
  obtain ⟨-, stop, hwithin⟩ := (e.guides (.notBefore xs) i).outcome env
  rw [h] at hwithin
  cases o with
  | success v n r => exact hwithin.1
  | failure c r =>
    obtain ⟨k, hk, hik, -⟩ := hwithin
    exact ⟨k, hk, hik⟩

/-- A traced parser logs one span. -/
theorem Run.Logs.traced {e : Combination σ ι α} (he : (Run.Logs.congruence σ).Carries e.parser e.watched)
    (name : Bytes) :
    (Run.Logs.congruence σ).Carries (e.traced name).parser (e.traced name).watched := fun xs i s => by
  obtain ⟨ended, s', l, hl, he⟩ := he xs i s
  refine ⟨ended, s', [.mk name i (.of ended) l], ?_, fun log => ⟨?_, fun notes => ?_⟩⟩
  · cases ended with
    | error cause => exact .inr ⟨[], _, rfl, nofun, hl.broken name i⟩
    | ok o =>
      have hover := e.isOver (congrArg Prod.fst (he (.ofLevel .off)).1)
      exact fun s hs => List.mem_singleton.1 hs ▸ .mk hover hl
  · obtain ⟨hrun, -⟩ := he (log.record (.attempted name i))
    show (e.parser.traced name xs i).execute _ = _
    rw [Parser.traced, execute_bind, execute_record]
    simp only
    rw [execute_bind, hrun]
    cases ended with
    | error cause => simp [Span.entries, Ending.entries, Log.recordAll]
    | ok o =>
      have hover := e.isOver (congrArg Prod.fst (he (.ofLevel .off)).1)
      obtain ⟨entry, hentry⟩ := hover.exists_entry name
      simp only [Ending.outcomeEntry_of_entries hentry, Span.entriesAll_singleton, Span.entries, hentry,
        Log.recordAll, List.foldl_cons, List.foldl_append, List.foldl_nil]
      rfl
  · obtain ⟨-, hwatched⟩ := he log
    exact execute_gathered (hwatched []) (fun ended inside => .mk name i (.of ended) inside) notes

namespace Combination

/-- A parser logs the spans that it is watched to pass through. -/
theorem logs {e : Combination σ ι α} (he : e.Finds Run.Silent) :
    (Run.Logs.congruence σ).Carries e.parser e.watched := by
  induction e with
  | primitive l => exact .primitive l
  | giveUp cause => exact fun _ _ => Run.Congruence.giveUp _ cause
  | andThen p q hp hq => exact (hp he.1).andThen (hq he.2)
  | skip p q hp hq => exact (hp he.1).skip (hq he.2)
  | pair p q hp hq => exact (hp he.1).pair (hq he.2)
  | sequence ps hp => exact .sequence (Run.Congruence.Carries.forall₂_map (fun k => hp k (he k)) _)
  | alt ps hp => exact .alt (Run.Congruence.Carries.forall₂_map (fun k => hp k (he k)) _)
  | times p b hp => exact (hp he).times b
  | sepBy p sep b hp hsep => exact (hp he.1).sepBy (hsep he.2) b
  | manyUntil p stop b hp hstop => exact (hp he.1).manyUntil (hstop he.2) b
  | tryMap p f hp => exact (hp he).tryMap f
  | bind p f hp hf => exact (hp he.1).bind fun v => hf v (he.2 v)
  | mark p hp => exact (hp he).mark
  | desc p label hp => exact (hp he).desc label
  | shouldFail p label hp => exact (hp he).shouldFail label
  | peek p hp => exact (hp he).peek
  | traced p name hp => exact Run.Logs.traced (hp he) name
  | deferred found enter hp => exact .deferred (.silent he.1) fun v => hp v (he.2 v)
  | rule body hp => exact fun xs i => hp xs i (he xs i) xs i

/-- The outermost traced invocations of a parser that is invoked in a store. -/
def spans (e : Combination σ ι α) (xs : List ι) (i : Nat) (s : σ) : List Span :=
  ((e.watched xs i).execute (Env.noting ⟨.ofLevel .off, s⟩ [])).2.store.notes

end Combination

/-! ## Main statement -/

/-- From one store a parser ends alike whatever the log, and a log of any level keeps the entries of the traced
invocations that are at or above that level: all of them at the lowest, the ends of attempts at the second, and none at
a higher one. The traced invocations are those that a
watched run passes through; each of them that is over ended at or after its cursor. Read as brackets, their entries
leave nothing open if the parser ends, and just the active attempts if it is given up. The rules of the calculator
and the parsers of all descriptions are such parsers. -/
theorem log_well_nested (e : Combination σ ι α) (he : e.Finds Run.Silent) (xs : List ι) (i : Nat) (s : σ) :
    (∃ ended s',
      (∀ log, ∃ after, (e.parser xs i).execute ⟨log, s⟩ = (ended, ⟨after, s'⟩) ∧ after.level = log.level ∧
        after.entries.toList = log.entries.toList ++
          (Span.entriesAll (e.spans xs i s)).filter (fun entry => log.level.rank ≤ entry.level.rank) ∧
        (log.level = .trace →
          after.entries.toList = log.entries.toList ++ Span.entriesAll (e.spans xs i s)) ∧
        (log.level = .debug → after.entries.toList = log.entries.toList ++
          (Span.entriesAll (e.spans xs i s)).filter Entry.isOutcome) ∧
        (log.level ≠ .trace → log.level ≠ .debug → after.entries.toList = log.entries.toList)) ∧
      (∀ log notes, (e.watched xs i).execute (Env.noting ⟨log, s⟩ notes) =
        (ended, Env.noting ⟨log, s'⟩ (notes ++ e.spans xs i s))) ∧
      Span.Fits ended (e.spans xs i s) ∧
      (∀ o, ended = .ok o → Entry.unclosed (Span.entriesAll (e.spans xs i s)) = some []) ∧
      ∀ cause, ended = .error cause →
        Entry.unclosed (Span.entriesAll (e.spans xs i s)) = some (Span.activeAll (e.spans xs i s))) ∧
    (∀ (A : Arithmetic ν) (r : Calculator.Rule), (r.parser A : Parser σ UInt8 ν).Combined Run.Silent) ∧
    ∀ (a : Alphabet) (limit : Nat) (p : Grammar a), (p.parserWithin limit).Combined Run.Silent := by
  refine ⟨?_, fun A r => r.combined A, fun a => Grammar.combined_parserWithin⟩
  obtain ⟨ended, s', l, hl, hrun⟩ := e.logs he xs i s
  have hspans : e.spans xs i s = l := by
    rw [Combination.spans, (hrun _).2]
    rfl
  rw [hspans]
  refine ⟨ended, s', fun log => ?_, fun log => (hrun log).2, hl, fun o ho => ?_, fun cause _ => hl.unclosed_eq⟩
  · have hkept := log.entries_recordAll (Span.entriesAll l)
    refine ⟨_, (hrun log).1, log.level_recordAll _, hkept, fun h => Log.entries_recordAll_of_trace h _,
      fun hdebug => ?_, fun htrace hdebug => ?_⟩
    · rw [hkept, hdebug, Span.filter_entriesAll_of_debug]
    · have hlt : Level.debug.rank < log.level.rank := by
        cases hlevel : log.level with
        | trace => exact absurd hlevel htrace
        | debug => exact absurd hlevel hdebug
        | _ => decide
      rw [hkept, Span.filter_entriesAll_of_lt hlt, List.append_nil]
  · subst ho
    rw [hl.unclosed_eq, Span.activeAll_eq_nil hl]

/-- Two digits are tried, and one is taken: what a log of each level keeps of this. Where a digit is declined, the
attempt around it stays open. -/
theorem log_well_nested_of_declined :
    let digit : Combination Unit UInt8 UInt8 := .traced (.primitive (.satisfy .digit)) (ascii "digit")
    let number : Combination Unit UInt8 UInt8 :=
      .traced (.alt (n := 2) (Fin.cons (digit.andThen digit) fun _ => digit)) (ascii "number")
    let declined : Combination Unit UInt8 UInt8 :=
      .traced (.tryMap digit fun _ => .error (.refused .map)) (ascii "declined")
    let kept : Level → List Entry := fun level =>
      ((number.parser [49, 97] 0).execute ⟨.ofLevel level, ()⟩).2.log.entries.toList
    (number.Finds Run.Silent ∧ (number.parser [49, 97] 0).outcome ⟨.ofLevel .info, ()⟩ =
        .ok (.success 49 1 (.raised 1 (.singleton (ascii "a digit")))) ∧
      Entry.unclosed (Span.entriesAll (number.spans [49, 97] 0 ())) = some [] ∧
      kept .trace = [.attempted (ascii "number") 0, .attempted (ascii "digit") 0, .matched (ascii "digit") 0 1,
        .attempted (ascii "digit") 1, .failed (ascii "digit") 1 1 (.singleton (ascii "a digit")),
        .attempted (ascii "digit") 0, .matched (ascii "digit") 0 1, .matched (ascii "number") 0 1] ∧
      kept .debug = [.matched (ascii "digit") 0 1, .failed (ascii "digit") 1 1 (.singleton (ascii "a digit")),
        .matched (ascii "digit") 0 1, .matched (ascii "number") 0 1] ∧
      kept .info = []) ∧
    declined.Finds Run.Silent ∧
      (declined.parser [49] 0).outcome ⟨.ofLevel .info, ()⟩ = .error (.refused .map) ∧
      Entry.unclosed (Span.entriesAll (declined.spans [49] 0 ())) = some [⟨ascii "declined", 0⟩] := by
  intro digit number declined kept
  have hdigit : digit.Finds Run.Silent := trivial
  have hnumber : number.Finds Run.Silent := Fin.forall_fin_two.2 ⟨⟨hdigit, hdigit⟩, hdigit⟩
  have hend : (number.parser [49, 97] 0).outcome ⟨.ofLevel .info, ()⟩ =
      .ok (.success 49 1 (.raised 1 (.singleton (ascii "a digit")))) := by decide
  have hgaveUp : (declined.parser [49] 0).outcome ⟨.ofLevel .info, ()⟩ = .error (.refused .map) := by decide
  obtain ⟨⟨ended, _, hlogs, -, -, hclosed, -⟩, -⟩ := log_well_nested (ν := Unit) number hnumber [49, 97] 0 ()
  obtain ⟨⟨ended', _, hlogs', -, -, -, hactive⟩, -⟩ := log_well_nested (ν := Unit) declined hdigit [49] 0 ()
  obtain ⟨_, htrace, -, -, hall, -⟩ := hlogs (.ofLevel .trace)
  obtain ⟨_, hdebug, -, -, -, houtcomes, -⟩ := hlogs (.ofLevel .debug)
  obtain ⟨_, hinfo, -, -, -, -, hnone⟩ := hlogs (.ofLevel .info)
  obtain ⟨_, hrun, -⟩ := hlogs' (.ofLevel .info)
  rw [Run.outcome, hinfo] at hend
  rw [Run.outcome, hrun] at hgaveUp
  refine ⟨⟨hnumber, ?_, hclosed _ hend, ?_, ?_, ?_⟩, hdigit, ?_, (hactive _ hgaveUp).trans (by decide)⟩
  · rw [Run.outcome, hinfo, hend]
  · exact (congrArg (·.2.log.entries.toList) htrace).trans (hall rfl)
  · exact (congrArg (·.2.log.entries.toList) hdebug).trans (houtcomes rfl)
  · exact (congrArg (·.2.log.entries.toList) hinfo).trans (hnone (by decide) (by decide))
  · rw [Run.outcome, hrun, hgaveUp]

end Furthest
