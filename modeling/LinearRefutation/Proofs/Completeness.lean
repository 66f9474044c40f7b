import Mathlib.Data.Set.Function
import LinearRefutation.Proofs.Soundness

/-!
# Completeness of the refuter

Hypotheses that the refuter reports to be exhausted have a relaxed solution, and those that it
reports to be refuted have none, so that the verdict is a property of the hypotheses alone
(`Refuter.Reports.isRefuted_iff`). It does not depend on the config, nor on the order in which
variables are eliminated: renaming the variables changes that order, but not whether there is a
relaxed solution (`Comparison.exists_holdsRelaxed_rename_iff`).
-/

namespace LinearRefutation

/-- Multipliers refute hypotheses when none is negative, every variable cancels in the sum of the
multiples, and some strict hypothesis is used. -/
structure Refuting (hypotheses : List Comparison) (m : Fin hypotheses.length → ℚ) : Prop where
  nonneg : ∀ i, 0 ≤ m i
  cancels : ∀ v, ∑ i, m i * ((hypotheses.get i).coeff v : ℚ) = 0
  strict : ∃ i, (hypotheses.get i).rel = .lt ∧ m i ≠ 0

theorem not_refuting_of_holdsRelaxed {hypotheses : List Comparison} {x : Assignment}
    (sat : ∀ c ∈ hypotheses, c.HoldsRelaxed x) (m : Fin hypotheses.length → ℚ) :
    ¬ Refuting hypotheses m := by
  intro h
  obtain ⟨i, hrel, hne⟩ := h.strict
  exact hne (multiplier_eq_zero_of_holdsRelaxed sat h.nonneg h.cancels hrel)

/-! ## Renaming variables -/

/-- Two assignments that agree on the variables of a form give it the same value. -/
theorem LinearForm.eval_congr {e : LinearForm} {x y : Assignment}
    (h : ∀ v, e.coeff v ≠ 0 → x v = y v) : e.eval x = e.eval y := by
  obtain ⟨bound, hbound⟩ := e.exists_coeff_bound
  rw [eval_eq_sum e x bound hbound, eval_eq_sum e y bound hbound]
  apply Finset.sum_congr rfl
  intro v _
  by_cases hv : e.coeff v = 0
  · rw [hv, Int.cast_zero, zero_mul, zero_mul]
  · rw [h v hv]

namespace Comparison

/-- The comparison with its variables renamed. -/
def rename (f : Nat → Nat) (c : Comparison) : Comparison :=
  ⟨c.rel, .ofTerms (c.form.terms.toList.map fun term => (f term.1, term.2))⟩

variable {f : Nat → Nat} {hypotheses : List Comparison}

/-- A renamed comparison says of an assignment what the comparison says of the values at the new
names. -/
theorem holdsRelaxed_rename {c : Comparison} {y : Assignment} :
    (c.rename f).HoldsRelaxed y ↔ c.HoldsRelaxed fun v => y (f v) := by
  have hvalue : (c.rename f).form.eval y = c.form.eval fun v => y (f v) := by
    unfold rename
    rw [LinearForm.eval_ofTerms, List.map_map]
    rfl
  unfold HoldsRelaxed
  rw [hvalue]
  rfl

/-- An injective renaming changes nothing about the existence of a relaxed solution. -/
theorem exists_holdsRelaxed_rename_iff
    (inj : Set.InjOn f {v | ∃ c ∈ hypotheses, c.coeff v ≠ 0}) :
    (∃ y, ∀ c ∈ hypotheses.map (rename f), c.HoldsRelaxed y) ↔
      ∃ x, ∀ c ∈ hypotheses, c.HoldsRelaxed x := by
  constructor
  · rintro ⟨y, hy⟩
    refine ⟨fun v => y (f v), fun c hc => ?_⟩
    rw [← holdsRelaxed_rename]
    exact hy _ (List.mem_map_of_mem hc)
  · rintro ⟨x, hx⟩
    -- a new name gets the value of the variable that occurs under it
    let y : Assignment := fun u =>
      x (Function.invFunOn f {v | ∃ c ∈ hypotheses, c.coeff v ≠ 0} u)
    refine ⟨y, fun d hd => ?_⟩
    obtain ⟨c, hc, rfl⟩ := List.mem_map.mp hd
    rw [holdsRelaxed_rename]
    have hvalue : c.form.eval (fun v => y (f v)) = c.form.eval x := by
      apply LinearForm.eval_congr
      intro v hv
      show x (Function.invFunOn f _ (f v)) = x v
      rw [inj.leftInvOn_invFunOn ⟨c, hc, hv⟩]
    unfold HoldsRelaxed
    rw [hvalue]
    exact hx c hc

end Comparison

/-! ## Verdicts -/

namespace Refuter

/-- A contradiction is reported exactly if the hypotheses have no relaxed solution. -/
theorem Reports.isRefuted_iff {r : Refuter} {hypotheses : List Comparison} {verdict : Verdict}
    (h : r.Reports hypotheses verdict) :
    verdict.isRefuted ↔ ¬ ∃ x, ∀ c ∈ hypotheses, c.HoldsRelaxed x := by
  cases verdict with
  | refuted w =>
    apply iff_of_true rfl
    rintro ⟨x, hx⟩
    have hverify := h.refutes.verify
    rw [Certificate.not_verify_of_holdsRelaxed hx] at hverify
    exact nomatch hverify
  | exhausted => exact iff_of_false Bool.false_ne_true (not_not_intro h.exists_holdsRelaxed)

/-- Hypotheses that are reported to be exhausted, under any config, cannot be refuted: no
certificate verifies against them, no multipliers refute them, and no other refuter reports a
contradiction. Verdicts on the same hypotheses with their variables renamed injectively agree. -/
theorem verdict_complete (hypotheses : List Comparison) :
    (∀ r : Refuter, r.Reports hypotheses .exhausted →
      (∀ cert : Certificate, cert.verify hypotheses = false) ∧
        (∀ m, ¬ Refuting hypotheses m) ∧
        ∀ (r' : Refuter) (w : Fact), ¬ r'.Reports hypotheses (.refuted w)) ∧
      ∀ f : Nat → Nat, Set.InjOn f {v | ∃ c ∈ hypotheses, c.coeff v ≠ 0} →
        ∀ (r r' : Refuter) (verdict verdict' : Verdict), r.Reports hypotheses verdict →
          r'.Reports (hypotheses.map (Comparison.rename f)) verdict' →
            verdict.isRefuted = verdict'.isRefuted := by
  constructor
  · intro r h
    obtain ⟨x, hx⟩ := h.exists_holdsRelaxed
    refine ⟨Certificate.not_verify_of_holdsRelaxed hx, not_refuting_of_holdsRelaxed hx, ?_⟩
    intro r' w hr'
    exact hr'.isRefuted_iff.mp rfl ⟨x, hx⟩
  · intro f inj r r' verdict verdict' h h'
    rw [Bool.eq_iff_iff, h.isRefuted_iff, h'.isRefuted_iff,
      Comparison.exists_holdsRelaxed_rename_iff inj]

/-- `x₀ < 0` and `x₀ - x₁ = 0` are exhausted, and no certificate verifies against them. -/
theorem verdict_complete_satisfiable :
    let hypotheses : List Comparison :=
      [⟨.lt, .ofTerms [(0, 1)]⟩, ⟨.eq, .ofTerms [(0, 1), (1, -1)]⟩]
    ({} : Refuter).Reports hypotheses .exhausted ∧
      ∀ cert : Certificate, cert.verify hypotheses = false :=
  ⟨.inl ⟨1, rfl⟩, ((verdict_complete _).1 {} (.inl ⟨1, rfl⟩)).1⟩

end Refuter

end LinearRefutation
