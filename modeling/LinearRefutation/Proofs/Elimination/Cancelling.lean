import LinearRefutation.Proofs.Elimination.Step

/-!
# The least multipliers

If the coefficients of a variable in two comparisons have opposite signs, the variable cancels in
many sums of positive multiples. Elimination takes the least of them (`Comparison.cancel?_least`):
its multipliers have no common divisor, and those of every other such sum are common multiples of
them.

Either coefficient is multiplied up to the least common multiple of both. The multiples in another
sum agree with each other, so they are common multiples as well and hence multiples of the least one
(`Comparison.Cancels.exists_multiple`). That the multipliers are coprime follows: without a common
divisor they would still cancel the variable, and be multiples of themselves with it.
-/

namespace LinearRefutation

/-- The comparator of a sum has the higher rank of the two. -/
theorem Comparator.rank_add (a b : Comparator) : (a + b).rank = max a.rank b.rank := by
  show (if a.rank ≤ b.rank then b else a).rank = _
  split
  next hle => exact (max_eq_right hle).symm
  next hlt => exact (max_eq_left (Nat.le_of_not_le hlt)).symm

namespace Comparison

variable {c d : Comparison} {var m n m' n' : Nat}

/-- The coefficients of a variable in two comparisons have opposite signs. -/
def Opposed (c d : Comparison) (var : Nat) : Prop :=
  0 < c.coeff var ∧ d.coeff var < 0 ∨ c.coeff var < 0 ∧ 0 < d.coeff var

/-- A variable cancels in the sum of positive multiples of two comparisons. -/
structure Cancels (c d : Comparison) (var m n : Nat) : Prop where
  left_pos : 0 < m
  right_pos : 0 < n
  sum_eq_zero : (m : Int) * c.coeff var + n * d.coeff var = 0

/-- Only coefficients of opposite signs are cancelled, and these always. -/
theorem exists_cancel?_iff : (∃ m n, c.cancel? d var = some (m, n)) ↔ c.Opposed d var := by
  unfold Opposed
  rw [← mul_neg_iff]
  constructor
  · rintro ⟨m, n, h⟩
    exact (cancel?_eq_some_iff.mp h).1
  · intro hsign
    exact ⟨_, _, if_pos hsign⟩

theorem cancels_of_cancel? (h : c.cancel? d var = some (m, n)) : c.Cancels d var m n := by
  obtain ⟨hm, hn, hzero⟩ := cancel?_eq_some h
  exact ⟨hm, hn, hzero⟩

theorem Cancels.multiple (h : c.Cancels d var m n) {k : Nat} (hk : 0 < k) :
    c.Cancels d var (k * m) (k * n) where
  left_pos := Nat.mul_pos hk h.left_pos
  right_pos := Nat.mul_pos hk h.right_pos
  sum_eq_zero := by
    rw [Nat.cast_mul, Nat.cast_mul, mul_assoc, mul_assoc, ← mul_add, h.sum_eq_zero, mul_zero]

/-- What is left of multipliers without a common factor cancels the variable as well. -/
theorem Cancels.of_multiple {k : Nat} (h : c.Cancels d var (k * m) (k * n)) : c.Cancels d var m n where
  left_pos := Nat.pos_of_mul_pos_left h.left_pos
  right_pos := Nat.pos_of_mul_pos_left h.right_pos
  sum_eq_zero := by
    have hk : (k : Int) ≠ 0 := Nat.cast_ne_zero.mpr (left_ne_zero_of_mul h.left_pos.ne')
    have hzero := h.sum_eq_zero
    rw [Nat.cast_mul, Nat.cast_mul, mul_assoc, mul_assoc, ← mul_add] at hzero
    exact (mul_eq_zero.mp hzero).resolve_left hk

/-- All multipliers with which a variable cancels are common multiples of those that are found. -/
theorem Cancels.exists_multiple (h : c.Cancels d var m' n') (hfound : c.cancel? d var = some (m, n)) :
    ∃ k, m' = k * m ∧ n' = k * n := by
  obtain ⟨hsign, hm, hn⟩ := cancel?_eq_some_iff.mp hfound
  have ha : 0 < (c.coeff var).natAbs := Int.natAbs_pos.mpr (left_ne_zero_of_mul hsign.ne)
  have hb : 0 < (d.coeff var).natAbs := Int.natAbs_pos.mpr (right_ne_zero_of_mul hsign.ne)
  have hsame := (mul_add_mul_eq_zero_iff hsign m' n').mp h.sum_eq_zero
  -- the common value of both multiples is a common multiple of the coefficients
  obtain ⟨k, hk⟩ : (c.coeff var).natAbs.lcm (d.coeff var).natAbs ∣ m' * (c.coeff var).natAbs :=
    Nat.lcm_dvd (Nat.dvd_mul_left ..) (hsame ▸ Nat.dvd_mul_left ..)
  refine ⟨k, Nat.eq_of_mul_eq_mul_right ha ?_, Nat.eq_of_mul_eq_mul_right hb ?_⟩
  · rw [hk, ← hm, mul_comm, mul_assoc]
  · rw [← hsame, hk, ← hn, mul_comm, mul_assoc]

/-- The multipliers that are found have no common divisor. -/
theorem coprime_of_cancel? (h : c.cancel? d var = some (m, n)) : m.Coprime n := by
  have hcancels := cancels_of_cancel? h
  obtain ⟨m', hm'⟩ := Nat.gcd_dvd_left m n
  obtain ⟨n', hn'⟩ := Nat.gcd_dvd_right m n
  set g := m.gcd n with hg
  have hreduced : c.Cancels d var m' n' := Cancels.of_multiple (k := g) (hm' ▸ hn' ▸ hcancels)
  obtain ⟨k, hk, -⟩ := hreduced.exists_multiple h
  -- `m'` is a multiple of `m`, which is `g` times `m'`
  have hone : k * g * m' = 1 * m' := by rw [mul_assoc, ← hm', ← hk, one_mul]
  exact Nat.eq_one_of_mul_eq_one_left (Nat.eq_of_mul_eq_mul_right hreduced.left_pos hone)

/-- The combination of two facts adds up the multiples of their comparisons. -/
theorem exists_eliminate?_of_cancel? {p q : Fact}
    (h : p.comparison.cancel? q.comparison var = some (m, n)) :
    ∃ f, p.eliminate? q var = .ok (some f) ∧
      f.comparison = m • p.comparison + n • q.comparison := by
  refine ⟨(p.times m).add (q.times n) var, ?_, rfl⟩
  rw [Fact.eliminate?_eq]
  unfold Fact.combined?
  rw [h]
  rfl

/-- A variable is cancelled in two comparisons exactly if its coefficients have opposite signs. The
multipliers are then positive and coprime, and the variable cancels in other sums of positive
multiples exactly if their multipliers are common multiples of these. The combination of two facts
that state the comparisons does not mention the variable, its other coefficients are those of the
sum, and it is as strong as the stronger of the two. -/
theorem cancel?_least (c d : Comparison) (var : Nat) :
    ((∃ m n, c.cancel? d var = some (m, n)) ↔ c.Opposed d var) ∧
      ∀ m n, c.cancel? d var = some (m, n) →
        (0 < m ∧ 0 < n ∧ m.Coprime n ∧ (m : Int) * c.coeff var + n * d.coeff var = 0) ∧
          (∀ m' n', c.Cancels d var m' n' ↔ ∃ k, 0 < k ∧ m' = k * m ∧ n' = k * n) ∧
            ∀ p q : Fact, p.comparison = c → q.comparison = d →
              ∃ f, p.eliminate? q var = .ok (some f) ∧ var ∉ f.comparison.vars ∧
                (∀ v, f.comparison.coeff v = m * c.coeff v + n * d.coeff v) ∧
                  f.comparison.rel.rank = max c.rel.rank d.rel.rank := by
  refine ⟨exists_cancel?_iff, fun m n h => ?_⟩
  have hcancels := cancels_of_cancel? h
  refine ⟨⟨hcancels.left_pos, hcancels.right_pos, coprime_of_cancel? h, hcancels.sum_eq_zero⟩,
    fun m' n' => ⟨fun hother => ?_, ?_⟩, ?_⟩
  · obtain ⟨k, rfl, rfl⟩ := hother.exists_multiple h
    exact ⟨k, Nat.pos_of_mul_pos_right hother.left_pos, rfl, rfl⟩
  · rintro ⟨k, hk, rfl, rfl⟩
    exact hcancels.multiple hk
  · rintro p q rfl rfl
    obtain ⟨f, heliminate, hsum⟩ := exists_eliminate?_of_cancel? h
    refine ⟨f, heliminate, fun hmem => ?_, Fact.coeff_of_eq_add hsum, ?_⟩
    · refine LinearForm.mem_vars.mp hmem ?_
      exact (Fact.coeff_of_eq_add hsum var).trans hcancels.sum_eq_zero
    · rw [hsum, rel_add, rel_nsmul, rel_nsmul, Comparator.nsmul_of_ne_zero hcancels.left_pos.ne',
        Comparator.nsmul_of_ne_zero hcancels.right_pos.ne', Comparator.rank_add]

/-- Twice `6·x₀ + x₁ < 0` and three times `-4·x₀ + x₂ ≤ 0` is the least sum without `x₀`. With six
and nine `x₀` cancels as well, which is three times as much. -/
theorem cancel?_least_mixed :
    let c : Comparison := ⟨.lt, .ofTerms [(0, 6), (1, 1)]⟩
    let d : Comparison := ⟨.le, .ofTerms [(0, -4), (2, 1)]⟩
    c.cancel? d 0 = some (2, 3) ∧ Nat.Coprime 2 3 ∧
      (c.Cancels d 0 6 9 ∧ ∃ k, 0 < k ∧ 6 = k * 2 ∧ 9 = k * 3) ∧
        ∃ f, (Fact.ofHypothesis 0 c).eliminate? (Fact.ofHypothesis 1 d) 0 = .ok (some f) ∧
          f.comparison.coeff 1 = 2 ∧ f.comparison.coeff 2 = 3 ∧ 0 ∉ f.comparison.vars := by
  intro c d
  have hfound : c.cancel? d 0 = some (2, 3) := by decide
  have hmultiple : c.Cancels d 0 6 9 := ⟨by decide, by decide, by decide⟩
  obtain ⟨⟨-, -, hcoprime, -⟩, hiff, hcombine⟩ := (cancel?_least c d 0).2 2 3 hfound
  obtain ⟨f, hf, habsent, hcoeff, -⟩ :=
    hcombine (Fact.ofHypothesis 0 c) (Fact.ofHypothesis 1 d) rfl rfl
  refine ⟨hfound, hcoprime, ⟨hmultiple, (hiff 6 9).mp hmultiple⟩, f, hf, ?_, ?_, habsent⟩
  · rw [hcoeff]
    decide
  · rw [hcoeff]
    decide

end Comparison

end LinearRefutation
