import Furthest.Proofs.DescribedVariation

/-!
# Diagnostics decide nothing

Two parsers that differ in nothing but labels, names and tracing decide alike, whatever is logged: both succeed,
with the same value and the same cursor, or both fail, or both are given up with the same fault. What they have
seen on the way may differ. Main statement: `diagnostics_never_decide`; `Grammar.Varies.decision_eq` has the same
of descriptions.
-/

namespace Furthest

variable {σ σ' ι α : Type} {R : σ → σ' → Prop}

/-- What an outcome decides: that a parser succeeds, with its value and its cursor, or that it fails. -/
def Result.decision : Result α → Option (α × Nat)
  | success v next _ => some (v, next)
  | failure .. => none

namespace Variation

/-- Another choice of labels, on the same input. -/
def rewording : Variation ι := ⟨[], True⟩

/-- Parsers that agree up to their labels decide alike. -/
theorem Joins.decision_eq {p : Parser σ ι α} {p' : Parser σ' ι α} (h : rewording.Joins R p p') (xs : List ι)
    (i : Nat) {env : Env σ} {env' : Env σ'} (hR : R env.store env'.store) :
    ((p' xs i).outcome env').map Result.decision = ((p xs i).outcome env).map Result.decision := by
  obtain ⟨ho, -⟩ := h xs i env env' hR
  have hcursor : (rewording : Variation ι).offset + i = i := Nat.zero_add i
  rw [hcursor] at ho
  refine ho.map_eq fun o o' ho => ?_
  cases ho with
  | success v n _ => exact congrArg (fun m => some (v, m)) (Nat.zero_add n)
  | failure => rfl

end Variation

/-- Descriptions that differ in nothing but labels, names and tracing stand for parsers that decide alike. -/
theorem Grammar.Varies.decision_eq {a : Alphabet} {p p' : Grammar a} (h : p.Varies .rewording p') (limit : Nat)
    (xs : List a.Carrier) (i : Nat) {env env' : Env (Store a)} (hs : env.store.Varies .rewording env'.store) :
    ((p'.parserWithin limit xs i).outcome env').map Result.decision =
      ((p.parserWithin limit xs i).outcome env).map Result.decision :=
  (h.joins limit).decision_eq xs i hs

/-- Parsers that differ in nothing but labels, names and tracing decide alike, whatever is logged. -/
theorem diagnostics_never_decide {e : Combination σ ι α} {e' : Combination σ' ι α} (h : e.Varies .rewording R e')
    (xs : List ι) (i : Nat) {env : Env σ} {env' : Env σ'} (hR : R env.store env'.store) :
    ((e'.parser xs i).outcome env').map Result.decision = ((e.parser xs i).outcome env).map Result.decision :=
  h.joins.decision_eq xs i hR

/-- Two digits or one, with other labels, with a name for another part and with tracing that is logged. -/
theorem diagnostics_never_decide_of_renamed :
    let digit : Combination Unit UInt8 UInt8 := .primitive (.satisfy .digit)
    let cipher : Combination Unit UInt8 UInt8 := .primitive (.satisfy ⟨ItemClass.digit.accepts, ascii "a cipher"⟩)
    let e : Combination Unit UInt8 UInt8 :=
      .alt (n := 2) (Fin.cons (.desc (.andThen digit digit) (ascii "two digits")) fun _ => digit)
    let e' : Combination Unit UInt8 UInt8 :=
      .alt (n := 2) (Fin.cons (.traced (.andThen cipher digit) (ascii "pair")) fun _ => .desc cipher (ascii "one"))
    e.Varies .rewording (fun _ _ => True) e' ∧
      (e.parser [49, 97] 0).outcome ⟨.ofLevel .off, ()⟩ =
        .ok (.success 49 1 (.raised 0 (.singleton (ascii "two digits")))) ∧
      ((e'.parser [49, 97] 0).outcome ⟨.ofLevel .trace, ()⟩).map Result.decision = .ok (some (49, 1)) := by
  intro digit cipher e e'
  have hcipher : digit.Varies .rewording (fun _ _ => True) cipher := .primitive (.satisfy rfl (.inl trivial))
  have hdigit : digit.Varies .rewording (fun _ _ => True) digit := .primitive (.satisfy rfl (.inr rfl))
  have h : e.Varies .rewording (fun _ _ => True) e' := .alt (Fin.cases
    (.descLeft trivial (.tracedRight (.andThen hcipher hdigit) _) _) fun _ => .descRight trivial hcipher _)
  have hrun : (e.parser [49, 97] 0).outcome ⟨.ofLevel .off, ()⟩ =
      .ok (.success 49 1 (.raised 0 (.singleton (ascii "two digits")))) := by decide
  exact ⟨h, hrun, by rw [diagnostics_never_decide h [49, 97] 0 trivial, hrun]; rfl⟩

end Furthest
