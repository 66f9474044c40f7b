import Mathlib.Algebra.BigOperators.Ring.Finset
import Mathlib.Algebra.Order.Field.Rat
import Mathlib.Tactic.Linarith
import Mathlib.Tactic.Ring
import LinearRefutation.LinearForm.Lemmas
import LinearRefutation.Comparison
import LinearRefutation.Problem.Basic

/-!
# What comparisons and hypotheses say

An `Assignment` gives every variable a rational value. Under it a linear form has a value, and a
comparison or a hypothesis holds or fails. Sums and positive multiples of comparisons that hold hold
again (`Comparison.holds_add`, `Comparison.holds_of_scale`), and a hypothesis says the same as its
normal form (`Hypothesis.holds_iff_normalize`).
-/

namespace LinearRefutation

/-- A rational value for each variable. -/
abbrev Assignment := Nat → ℚ

namespace LinearForm

/-- The value of a form. -/
def eval (e : LinearForm) (x : Assignment) : ℚ :=
  (e.terms.toList.map fun term => (term.2 : ℚ) * x term.1).sum

private theorem sum_eq_sum_coeffSum (x : Assignment) (bound : Nat) {terms : List (Nat × Int)}
    (h : ∀ term ∈ terms, term.1 < bound) :
    (terms.map fun term => (term.2 : ℚ) * x term.1).sum =
      ∑ v ∈ Finset.range bound, (coeffSum terms v : ℚ) * x v := by
  induction terms with
  | nil => simp [coeffSum]
  | cons term rest ih =>
    have hterm : term.1 < bound := h term List.mem_cons_self
    rw [List.map_cons, List.sum_cons, ih fun t ht => h t (List.mem_cons_of_mem _ ht)]
    simp only [coeffSum, Int.cast_add, add_mul, Finset.sum_add_distrib]
    congr 1
    rw [Finset.sum_eq_single term.1]
    · simp
    · intro v _ hv
      simp [Ne.symm hv]
    · intro hv
      exact absurd (Finset.mem_range.mpr hterm) hv

/-- Some bound is above all variables of a list of terms. -/
private theorem exists_bound (terms : List (Nat × Int)) :
    ∃ bound, ∀ term ∈ terms, term.1 < bound := by
  induction terms with
  | nil => exact ⟨0, by simp⟩
  | cons term rest ih =>
    obtain ⟨bound, h⟩ := ih
    refine ⟨max bound (term.1 + 1), fun t ht => ?_⟩
    rcases List.mem_cons.mp ht with rfl | ht
    · omega
    · have := h t ht
      omega

/-- The value of a form is the sum over its coefficients below any bound on its variables. -/
theorem eval_eq_sum (e : LinearForm) (x : Assignment) (bound : Nat)
    (h : ∀ v, e.coeff v ≠ 0 → v < bound) :
    e.eval x = ∑ v ∈ Finset.range bound, (e.coeff v : ℚ) * x v := by
  rw [eval, sum_eq_sum_coeffSum x bound]
  · simp only [coeffSum_terms]
  · intro term ht
    refine h term.1 ?_
    rw [coeff, IndexMap.getD_eq_of_mem ht]
    exact e.nonzero term ht

/-- Some bound is above all variables of a form. -/
theorem exists_coeff_bound (e : LinearForm) : ∃ bound, ∀ v, e.coeff v ≠ 0 → v < bound := by
  obtain ⟨bound, h⟩ := exists_bound e.terms.toList
  exact ⟨bound, fun v hv => h _ (IndexMap.mem_of_getD_ne hv)⟩

@[simp]
theorem eval_zero (x : Assignment) : (0 : LinearForm).eval x = 0 := rfl

/-- The value of a sum of terms. -/
theorem eval_ofTerms (terms : List (Nat × Int)) (x : Assignment) :
    (ofTerms terms).eval x = (terms.map fun term => (term.2 : ℚ) * x term.1).sum := by
  obtain ⟨b, hb⟩ := exists_bound terms
  obtain ⟨b', hb'⟩ := (ofTerms terms).exists_coeff_bound
  rw [eval_eq_sum _ x (max b b') fun v hv => lt_max_of_lt_right (hb' v hv),
    sum_eq_sum_coeffSum x (max b b') fun t ht => lt_max_of_lt_left (hb t ht)]
  simp only [coeff_ofTerms]

@[simp]
theorem eval_add (a b : LinearForm) (x : Assignment) : (a + b).eval x = a.eval x + b.eval x := by
  obtain ⟨ba, ha⟩ := a.exists_coeff_bound
  obtain ⟨bb, hb⟩ := b.exists_coeff_bound
  obtain ⟨bc, hc⟩ := (a + b).exists_coeff_bound
  rw [eval_eq_sum a x (max ba (max bb bc)) fun v hv => lt_max_of_lt_left (ha v hv),
    eval_eq_sum b x (max ba (max bb bc)) fun v hv =>
      lt_max_of_lt_right (lt_max_of_lt_left (hb v hv)),
    eval_eq_sum (a + b) x (max ba (max bb bc)) fun v hv =>
      lt_max_of_lt_right (lt_max_of_lt_right (hc v hv)), ← Finset.sum_add_distrib]
  refine Finset.sum_congr rfl fun v _ => ?_
  rw [coeff_add, Int.cast_add, add_mul]

@[simp]
theorem eval_multiply (k : Int) (hk : k ≠ 0) (e : LinearForm) (x : Assignment) :
    (e.multiply k hk).eval x = k * e.eval x := by
  simp only [eval, multiply, IndexMap.mapValues, Ascending.map, List.map_map, Function.comp_def,
    Int.cast_mul, mul_assoc, List.sum_map_mul_left]

@[simp]
theorem eval_neg (e : LinearForm) (x : Assignment) : (-e).eval x = -e.eval x := by
  change (e.multiply (-1) (by decide)).eval x = _
  rw [eval_multiply]
  simp

end LinearForm

/-! ## Comparisons -/

/-- Whether a number compares with zero in this way. -/
def Comparator.Holds : Comparator → ℚ → Prop
  | .eq, q => q = 0
  | .le, q => q ≤ 0
  | .lt, q => q < 0

/-- The stronger of two comparators holds of the sum of two numbers of which they hold. -/
theorem Comparator.holds_join {r s : Comparator} {a b : ℚ} (ha : r.Holds a) (hb : s.Holds b) :
    (r.join s).Holds (a + b) := by
  cases r <;> cases s <;> simp only [Holds, join, rank] at ha hb ⊢ <;>
    simp only [Nat.reduceLeDiff, if_true, if_false] <;> linarith

namespace Comparison

/-- Whether a comparison is true of an assignment. -/
def Holds (c : Comparison) (x : Assignment) : Prop := c.rel.Holds (c.form.eval x)

/-- The sum of comparisons that hold holds. -/
theorem holds_add {c d : Comparison} {x : Assignment} (hc : c.Holds x) (hd : d.Holds x) :
    (c + d).Holds x := by
  show (c.rel.join d.rel).Holds ((c.form + d.form).eval x)
  rw [LinearForm.eval_add]
  exact Comparator.holds_join hc hd

/-- A multiple of a comparison holds exactly when the comparison does. -/
theorem holds_of_scale {n : Nat} {c c' : Comparison} {x : Assignment} (h : c.scale n = .ok c') :
    c'.Holds x ↔ c.Holds x := by
  obtain ⟨r, e⟩ := c
  simp only [scale, LinearForm.scale] at h
  split at h
  next => cases h
  next hn =>
    cases h
    have pos : (0 : ℚ) < n := by exact_mod_cast Nat.pos_of_ne_zero hn
    simp only [Holds, LinearForm.eval_multiply, Int.cast_natCast]
    cases r
    · simp [Comparator.Holds, pos.ne']
    · simp [Comparator.Holds, mul_nonpos_iff, pos.le, not_le.mpr pos]
    · simp [Comparator.Holds, mul_neg_iff, pos, not_lt.mpr pos.le]

end Comparison

/-! ## Hypotheses -/

/-- The value of an expression. -/
def AffineExpr.eval (e : AffineExpr) (x : Assignment) : ℚ := e.constant + e.form.eval x

@[simp]
theorem AffineExpr.eval_add (a b : AffineExpr) (x : Assignment) :
    (a + b).eval x = a.eval x + b.eval x := by
  change ((a.constant + b.constant : Int) : ℚ) + (a.form + b.form).eval x = _
  rw [LinearForm.eval_add, Int.cast_add, eval, eval]
  ring

@[simp]
theorem AffineExpr.eval_neg (e : AffineExpr) (x : Assignment) : (-e).eval x = -e.eval x := by
  change ((-e.constant : Int) : ℚ) + (-e.form).eval x = _
  rw [LinearForm.eval_neg, Int.cast_neg, eval]
  ring

@[simp]
theorem AffineExpr.eval_sub (a b : AffineExpr) (x : Assignment) :
    (a - b).eval x = a.eval x - b.eval x := by
  change (a + -b).eval x = _
  rw [eval_add, eval_neg, sub_eq_add_neg]

/-- Whether two numbers are in this relation. -/
def Relation.Holds : Relation → ℚ → ℚ → Prop
  | .lt, a, b => a < b
  | .le, a, b => a ≤ b
  | .eq, a, b => a = b
  | .ge, a, b => b ≤ a
  | .gt, a, b => b < a

namespace Hypothesis

/-- Whether a hypothesis is true of an assignment. -/
def Holds (h : Hypothesis) (x : Assignment) : Prop := h.rel.Holds (h.lhs.eval x) (h.rhs.eval x)

/-- A hypothesis says the same as its normal form. -/
theorem holds_iff_normalize (h : Hypothesis) (x : Assignment) :
    h.Holds x ↔ h.normalize.2.Holds (h.normalize.1.eval x) := by
  obtain ⟨l, r, e⟩ := h
  cases r <;>
    simp [Holds, normalize, Relation.Holds, Comparator.Holds, sub_eq_zero]

end Hypothesis

/-- Whether all hypotheses of a problem are true of an assignment. -/
def Problem.SatisfiedBy (p : Problem) (x : Assignment) : Prop := ∀ h ∈ p.hypotheses, h.Holds x

end LinearRefutation
