import LinearRefutation.Proofs.Replay

/-!
# Relaxed comparisons

Elimination adds up comparisons with positive multipliers, so an equality is used with one sign only
and says no more to it than `≤`. Read in this way comparisons are *relaxed*. An assignment that
satisfies all hypotheses satisfies them relaxed, and already a relaxed solution rules out every
combination with non-negative multipliers in which all variables cancel and a strict hypothesis
takes part (`multiplier_eq_zero_of_holdsRelaxed`), hence every certificate
(`Certificate.not_verify_of_holdsRelaxed`).
-/

namespace LinearRefutation

open Finset

/-- The comparator with equality weakened to "at most". -/
def Comparator.relax : Comparator → Comparator
  | .eq => .le
  | .le => .le
  | .lt => .lt

namespace Comparison

/-- Whether a comparison is true of an assignment when equality is read as "at most". -/
def HoldsRelaxed (c : Comparison) (x : Assignment) : Prop := c.rel.relax.Holds (c.form.eval x)

theorem holdsRelaxed_iff {c : Comparison} {x : Assignment} :
    c.HoldsRelaxed x ↔ c.form.eval x ≤ 0 ∧ (c.rel = .lt → c.form.eval x < 0) := by
  unfold HoldsRelaxed
  cases c.rel with
  | eq => simp [Comparator.relax, Comparator.Holds]
  | le => simp [Comparator.relax, Comparator.Holds]
  | lt => simpa [Comparator.relax, Comparator.Holds] using le_of_lt

/-- A comparison that holds holds relaxed. -/
theorem Holds.relaxed {c : Comparison} {x : Assignment} (h : c.Holds x) : c.HoldsRelaxed x := by
  unfold Holds at h
  rw [holdsRelaxed_iff]
  rcases hrel : c.rel <;> rw [hrel] at h
  · exact ⟨le_of_eq h, fun hlt => nomatch hlt⟩
  · exact ⟨h, fun hlt => nomatch hlt⟩
  · exact ⟨le_of_lt h, fun _ => h⟩

end Comparison

/-! ## Combinations that cancel -/

/-- Some bound is above all variables of a list of comparisons. -/
theorem exists_variable_bound (hypotheses : List Comparison) :
    ∃ bound, ∀ c ∈ hypotheses, ∀ v, c.coeff v ≠ 0 → v < bound := by
  induction hypotheses with
  | nil => exact ⟨0, fun c hc => absurd hc List.not_mem_nil⟩
  | cons c rest ih =>
    obtain ⟨b, hb⟩ := ih
    obtain ⟨b', hb'⟩ := c.form.exists_coeff_bound
    refine ⟨max b b', fun d hd v hv => ?_⟩
    rcases List.mem_cons.mp hd with rfl | hd
    · exact lt_max_of_lt_right (hb' v hv)
    · exact lt_max_of_lt_left (hb d hd v hv)

variable {hypotheses : List Comparison} {x : Assignment}

/-- When multiples of hypotheses cancel every variable, their values cancel as well. -/
theorem sum_mul_eval_eq_zero {m : Fin hypotheses.length → ℚ}
    (cancel : ∀ v, ∑ i, m i * ((hypotheses.get i).coeff v : ℚ) = 0) (x : Assignment) :
    ∑ i, m i * (hypotheses.get i).form.eval x = 0 := by
  obtain ⟨bound, hbound⟩ := exists_variable_bound hypotheses
  have value (i : Fin hypotheses.length) :
      (hypotheses.get i).form.eval x = ∑ v ∈ range bound, ((hypotheses.get i).coeff v : ℚ) * x v :=
    LinearForm.eval_eq_sum _ x bound (hbound _ (List.get_mem ..))
  calc ∑ i, m i * (hypotheses.get i).form.eval x
      = ∑ i, ∑ v ∈ range bound, m i * ((hypotheses.get i).coeff v : ℚ) * x v := by
        simp only [value, mul_sum, mul_assoc]
    _ = ∑ v ∈ range bound, (∑ i, m i * ((hypotheses.get i).coeff v : ℚ)) * x v := by
        rw [sum_comm]
        simp only [sum_mul]
    _ = 0 := sum_eq_zero fun v _ => by rw [cancel v, zero_mul]

/-- Against hypotheses with a relaxed solution, a combination with non-negative multipliers in which
every variable cancels leaves out all strict hypotheses. -/
theorem multiplier_eq_zero_of_holdsRelaxed (sat : ∀ c ∈ hypotheses, c.HoldsRelaxed x)
    {m : Fin hypotheses.length → ℚ} (nonneg : ∀ i, 0 ≤ m i)
    (cancel : ∀ v, ∑ i, m i * ((hypotheses.get i).coeff v : ℚ) = 0)
    {i : Fin hypotheses.length} (strict : (hypotheses.get i).rel = .lt) : m i = 0 := by
  have holds (j : Fin hypotheses.length) :=
    Comparison.holdsRelaxed_iff.mp (sat (hypotheses.get j) (List.get_mem ..))
  -- summands at most zero that add up to zero are all zero
  have nonpos : ∀ j ∈ univ, m j * (hypotheses.get j).form.eval x ≤ 0 := fun j _ =>
    mul_nonpos_of_nonneg_of_nonpos (nonneg j) (holds j).1
  have zero : m i * (hypotheses.get i).form.eval x = 0 :=
    (sum_eq_zero_iff_of_nonpos nonpos).mp (sum_mul_eval_eq_zero cancel x) i (mem_univ i)
  exact (mul_eq_zero.mp zero).resolve_right ((holds i).2 strict).ne

/-- No certificate verifies against hypotheses with a relaxed solution. -/
theorem Certificate.not_verify_of_holdsRelaxed (sat : ∀ c ∈ hypotheses, c.HoldsRelaxed x)
    (cert : Certificate) : cert.verify hypotheses = false := by
  rw [Bool.eq_false_iff, ne_eq, verify_iff, Comparison.isContradiction_iff]
  rintro ⟨-, strict, cancel⟩
  obtain ⟨i, hi, hne, hrel⟩ := total_rel_eq_lt_iff.mp strict
  refine hne ?_
  have hzero : (cert.multiplicity i : ℚ) = 0 :=
    multiplier_eq_zero_of_holdsRelaxed sat (m := fun j => (cert.multiplicity j : ℚ))
      (fun j => Nat.cast_nonneg _) (fun v => ?_) (i := ⟨i, hi⟩) hrel
  · exact_mod_cast hzero
  · have := cancel v
    rw [total_coeff] at this
    exact_mod_cast this

/-- Hypotheses against which a certificate verifies have no solution. -/
theorem Certificate.unsatisfiable_of_verify {cert : Certificate} (h : cert.verify hypotheses)
    (x : Assignment) : ¬ ∀ c ∈ hypotheses, c.Holds x := by
  intro sat
  rw [not_verify_of_holdsRelaxed (fun c hc => (sat c hc).relaxed) cert] at h
  exact nomatch h

end LinearRefutation
