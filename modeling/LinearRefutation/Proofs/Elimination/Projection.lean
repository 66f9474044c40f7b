import Mathlib.Data.Finset.Max
import Mathlib.Tactic.FieldSimp
import Mathlib.Tactic.LinearCombination
import LinearRefutation.Proofs.Elimination.Step
import LinearRefutation.Proofs.Relaxation

/-!
# Elimination is projection

A round without the filter projects away the variable that it eliminates: an assignment satisfies
the facts after the round, relaxed, exactly if some value for the variable makes it satisfy the
facts before (`Eliminator.holdsRelaxed_iff_of_eliminate`). A fact with a positive coefficient bounds
that value from above and one with a negative coefficient from below, and their combination says
that the two bounds leave room for a value.

The projection is exact (`Eliminator.eliminate_projects`): no other variables come in, and with
equalities read as such nothing that held is lost.
-/

namespace LinearRefutation

/-- Finitely many lower and upper bounds, some of them strict, leave room for a value if each lower
bound and each upper bound do. -/
theorem exists_between_bounds {ι : Type*} (bound : ι → ℚ) (Strict : ι → Prop) (lower upper : Finset ι)
    (room : ∀ l ∈ lower, ∀ u ∈ upper,
      bound l ≤ bound u ∧ (Strict l ∨ Strict u → bound l < bound u)) :
    ∃ t, (∀ l ∈ lower, bound l ≤ t ∧ (Strict l → bound l < t)) ∧
      ∀ u ∈ upper, t ≤ bound u ∧ (Strict u → t < bound u) := by
  rcases lower.eq_empty_or_nonempty with rfl | hlower
  · rcases upper.eq_empty_or_nonempty with rfl | hupper
    · exact ⟨0, by simp, by simp⟩
    · obtain ⟨u₀, -, hmin⟩ := upper.exists_min_image bound hupper
      refine ⟨bound u₀ - 1, by simp, fun u hu => ?_⟩
      have hle := hmin u hu
      exact ⟨by linarith, fun _ => by linarith⟩
  · obtain ⟨l₀, hl₀, hmax⟩ := lower.exists_max_image bound hlower
    rcases upper.eq_empty_or_nonempty with rfl | hupper
    · refine ⟨bound l₀ + 1, fun l hl => ?_, by simp⟩
      have hle := hmax l hl
      exact ⟨by linarith, fun _ => by linarith⟩
    · obtain ⟨u₀, hu₀, hmin⟩ := upper.exists_min_image bound hupper
      -- halfway between the greatest lower bound and the least upper bound
      refine ⟨(bound l₀ + bound u₀) / 2, fun l hl => ?_, fun u hu => ?_⟩
      · have hle := hmax l hl
        obtain ⟨hroom, hstrict⟩ := room l hl u₀ hu₀
        have hroom₀ := (room l₀ hl₀ u₀ hu₀).1
        exact ⟨by linarith, fun hs => by linarith [hstrict (.inl hs)]⟩
      · have hle := hmin u hu
        obtain ⟨hroom, hstrict⟩ := room l₀ hl₀ u hu
        have hroom₀ := (room l₀ hl₀ u₀ hu₀).1
        exact ⟨by linarith, fun hs => by linarith [hstrict (.inr hs)]⟩

/-! ## Changing one variable -/

namespace LinearForm

/-- Setting a variable to `t` adds `t` times its coefficient to the value at zero. -/
theorem eval_update (e : LinearForm) (x : Assignment) (var : Nat) (t : ℚ) :
    e.eval (Function.update x var t) =
      e.eval (Function.update x var 0) + (e.coeff var : ℚ) * t := by
  obtain ⟨b, hb⟩ := e.exists_coeff_bound
  have hbound : ∀ v, e.coeff v ≠ 0 → v < max b (var + 1) := fun v hv => lt_max_of_lt_left (hb v hv)
  have hvar : var ∈ Finset.range (max b (var + 1)) := Finset.mem_range.mpr (by omega)
  rw [eval_eq_sum e _ _ hbound, eval_eq_sum e _ _ hbound, ← Finset.add_sum_erase _ _ hvar,
    ← Finset.add_sum_erase _ _ hvar, Function.update_self, Function.update_self]
  have hrest : ∀ v ∈ (Finset.range (max b (var + 1))).erase var,
      (e.coeff v : ℚ) * Function.update x var t v = e.coeff v * Function.update x var 0 v := by
    intro v hv
    have hne := Finset.ne_of_mem_erase hv
    rw [Function.update_of_ne hne, Function.update_of_ne hne]
  rw [Finset.sum_congr rfl hrest]
  ring

/-- A variable that does not occur has no influence on the value. -/
theorem eval_update_of_coeff_eq_zero {e : LinearForm} {var : Nat} (h : e.coeff var = 0)
    (x : Assignment) (t : ℚ) : e.eval (Function.update x var t) = e.eval x := by
  have hupdate := eval_update e x var
  simp only [h, Int.cast_zero, zero_mul, add_zero] at hupdate
  rw [hupdate, ← hupdate (x var), Function.update_eq_self]

end LinearForm

namespace Comparison

variable {c d : Comparison} {x : Assignment} {var : Nat}

theorem holdsRelaxed_update (h : c.coeff var = 0) (t : ℚ) :
    c.HoldsRelaxed (Function.update x var t) ↔ c.HoldsRelaxed x := by
  unfold HoldsRelaxed
  rw [LinearForm.eval_update_of_coeff_eq_zero h]

/-- The value at which a comparison changes from true to false as a variable moves. -/
def threshold (c : Comparison) (x : Assignment) (var : Nat) : ℚ :=
  -c.form.eval (Function.update x var 0) / c.coeff var

theorem eval_update_zero (h : c.coeff var ≠ 0) (x : Assignment) :
    c.form.eval (Function.update x var 0) = -(c.threshold x var * c.coeff var) := by
  have hne : (c.coeff var : ℚ) ≠ 0 := by exact_mod_cast h
  unfold threshold
  field_simp

theorem eval_update_eq_mul (h : c.coeff var ≠ 0) (x : Assignment) (t : ℚ) :
    c.form.eval (Function.update x var t) = (t - c.threshold x var) * c.coeff var := by
  rw [LinearForm.eval_update, eval_update_zero h]
  unfold coeff
  ring

/-- With a positive coefficient the threshold is an upper bound. -/
theorem holdsRelaxed_update_iff_of_pos (h : 0 < c.coeff var) (x : Assignment) (t : ℚ) :
    c.HoldsRelaxed (Function.update x var t) ↔
      t ≤ c.threshold x var ∧ (c.rel = .lt → t < c.threshold x var) := by
  have hpos : (0 : ℚ) < c.coeff var := by exact_mod_cast h
  rw [holdsRelaxed_iff, eval_update_eq_mul h.ne', mul_nonpos_iff, mul_neg_iff]
  simp [hpos, hpos.le, hpos.not_ge, hpos.not_gt]

/-- With a negative coefficient the threshold is a lower bound. -/
theorem holdsRelaxed_update_iff_of_neg (h : c.coeff var < 0) (x : Assignment) (t : ℚ) :
    c.HoldsRelaxed (Function.update x var t) ↔
      c.threshold x var ≤ t ∧ (c.rel = .lt → c.threshold x var < t) := by
  have hneg : (c.coeff var : ℚ) < 0 := by exact_mod_cast h
  rw [holdsRelaxed_iff, eval_update_eq_mul h.ne, mul_nonpos_iff, mul_neg_iff]
  simp [hneg, hneg.le, hneg.not_ge, hneg.not_gt]

/-- A positive multiple of a comparison says the same as the comparison. -/
theorem holds_nsmul_iff {n : Nat} (hn : 0 < n) : (n • c).Holds x ↔ c.Holds x :=
  holds_of_scale (scale_eq hn.ne' c)

/-- A combination of two comparisons with opposite signs in which the variable cancels holds exactly
if their thresholds leave room. -/
theorem holdsRelaxed_add_iff {m n : Nat} (hm : 0 < m) (hn : 0 < n) (hc : 0 < c.coeff var)
    (hd : d.coeff var < 0) (cancel : (m : Int) * c.coeff var + n * d.coeff var = 0) :
    (m • c + n • d).HoldsRelaxed x ↔ d.threshold x var ≤ c.threshold x var ∧
      (d.rel = .lt ∨ c.rel = .lt → d.threshold x var < c.threshold x var) := by
  have hzero : (m • c + n • d).coeff var = 0 := by
    unfold coeff at cancel ⊢
    rw [form_add, form_nsmul, form_nsmul, LinearForm.coeff_add, LinearForm.coeff_nsmul,
      LinearForm.coeff_nsmul, cancel]
  have hweight : (0 : ℚ) < m * c.coeff var :=
    mul_pos (by exact_mod_cast hm) (by exact_mod_cast hc)
  have hcancel : (n : ℚ) * d.coeff var = -(m * c.coeff var) := by
    have hcast : (m : ℚ) * c.coeff var + n * d.coeff var = 0 := by exact_mod_cast cancel
    linarith
  -- with zero for the variable, the combination is a multiple of the distance of the thresholds
  have hvalue : (m • c + n • d).form.eval (Function.update x var 0) =
      (d.threshold x var - c.threshold x var) * (m * c.coeff var) := by
    rw [form_add, LinearForm.eval_add, form_nsmul, form_nsmul, LinearForm.eval_nsmul,
      LinearForm.eval_nsmul, eval_update_zero hc.ne', eval_update_zero hd.ne]
    linear_combination (-d.threshold x var) * hcancel
  have hrel : (m • c + n • d).rel = .lt ↔ d.rel = .lt ∨ c.rel = .lt := by
    rw [rel_add, rel_nsmul, rel_nsmul, Comparator.add_eq_lt_iff, Comparator.nsmul_eq_lt_iff,
      Comparator.nsmul_eq_lt_iff, or_comm]
    simp [hm.ne', hn.ne']
  rw [← holdsRelaxed_update hzero 0, holdsRelaxed_iff, hvalue, hrel, mul_nonpos_iff, mul_neg_iff]
  simp [hweight, hweight.le, hweight.not_ge, hweight.not_gt]

end Comparison

/-! ## One round -/

/-- Whether all facts are true of an assignment when equalities are read as "at most". -/
def FactSet.HoldsRelaxed (facts : FactSet) (x : Assignment) : Prop :=
  ∀ p ∈ facts, p.comparison.HoldsRelaxed x

/-- Whether all facts are true of an assignment. -/
def FactSet.Holds (facts : FactSet) (x : Assignment) : Prop := ∀ p ∈ facts, p.comparison.Holds x

/-- Whether a variable occurs in one of the facts. -/
def FactSet.Mentions (facts : FactSet) (v : Nat) : Prop := ∃ p ∈ facts, p.comparison.coeff v ≠ 0

namespace Eliminator

variable {e e' : Eliminator} {var : Nat} {facts : FactSet} {round : Round}

/-- What holds before a round, with any value of the variable, holds after it. -/
theorem holdsRelaxed_of_update (h : e.eliminate var facts = (.ok round, e')) {x : Assignment} {t : ℚ}
    (sat : FactSet.HoldsRelaxed facts (Function.update x var t)) :
    FactSet.HoldsRelaxed round.facts x := by
  intro p hp
  cases outcome_of_eliminate h hp with
  | untouched hmem habsent => exact (Comparison.holdsRelaxed_update habsent t).mp (sat p hmem)
  | combined hl hr hpos hneg hsome _ =>
    obtain ⟨m, n, hm, hn, hsum, -, hcancel⟩ := Fact.combined?_eq_some hsome
    obtain ⟨hu, hus⟩ := (Comparison.holdsRelaxed_update_iff_of_pos hpos x t).mp (sat _ hl)
    obtain ⟨hlow, hlows⟩ := (Comparison.holdsRelaxed_update_iff_of_neg hneg x t).mp (sat _ hr)
    rw [hsum, Comparison.holdsRelaxed_add_iff hm hn hpos hneg hcancel]
    refine ⟨hlow.trans hu, fun hstrict => ?_⟩
    rcases hstrict with hstrict | hstrict
    · exact lt_of_lt_of_le (hlows hstrict) hu
    · exact lt_of_le_of_lt hlow (hus hstrict)

/-- What holds after a round without the filter holds before it with some value of the variable. -/
theorem exists_update_of_holdsRelaxed (hprune : e.config.prune = false)
    (h : e.eliminate var facts = (.ok round, e')) {x : Assignment}
    (sat : FactSet.HoldsRelaxed round.facts x) :
    ∃ t, FactSet.HoldsRelaxed facts (Function.update x var t) := by
  classical
  have hstated {p : Fact} (hp : FactSet.Outcome facts e.config.prune var p) :
      p.comparison.HoldsRelaxed x := by
    obtain ⟨q, hq, heq⟩ := states_of_eliminate h hp
    exact heq ▸ sat q hq
  let lower := (FactSet.negative facts var).toList.toFinset
  let upper := (FactSet.positive facts var).toList.toFinset
  have mem_lower {p : Fact} : p ∈ lower ↔ p ∈ facts ∧ p.comparison.coeff var < 0 := by
    rw [List.mem_toFinset, Ascending.mem_toList, FactSet.negative, Ascending.mem_filter,
      decide_eq_true_iff]
  have mem_upper {p : Fact} : p ∈ upper ↔ p ∈ facts ∧ 0 < p.comparison.coeff var := by
    rw [List.mem_toFinset, Ascending.mem_toList, FactSet.positive, Ascending.mem_filter,
      decide_eq_true_iff]
  -- two bounds on the variable leave room for a value, as the combination of their facts holds
  obtain ⟨t, hlower, hupper⟩ := exists_between_bounds (fun p : Fact => p.comparison.threshold x var)
    (fun p => p.comparison.rel = .lt) lower upper fun q hq p hp => by
      obtain ⟨hqmem, hneg⟩ := mem_lower.mp hq
      obtain ⟨hpmem, hpos⟩ := mem_upper.mp hp
      obtain ⟨f, hsome⟩ := Fact.exists_combined? hpos hneg
      have hpass : f.Passes e.config.prune var := fun hon => by
        rw [hprune] at hon
        exact nomatch hon
      obtain ⟨m, n, hm, hn, hsum, -, hcancel⟩ := Fact.combined?_eq_some hsome
      rw [← Comparison.holdsRelaxed_add_iff hm hn hpos hneg hcancel, ← hsum]
      exact hstated (.combined hpmem hqmem hpos hneg hsome hpass)
  refine ⟨t, fun p hp => ?_⟩
  rcases lt_trichotomy (p.comparison.coeff var) 0 with hneg | habsent | hpos
  · rw [Comparison.holdsRelaxed_update_iff_of_neg hneg]
    exact hlower p (mem_lower.mpr ⟨hp, hneg⟩)
  · rw [Comparison.holdsRelaxed_update habsent]
    exact hstated (.untouched hp habsent)
  · rw [Comparison.holdsRelaxed_update_iff_of_pos hpos]
    exact hupper p (mem_upper.mpr ⟨hp, hpos⟩)

/-- A round without the filter is the projection along its variable. -/
theorem holdsRelaxed_iff_of_eliminate (hprune : e.config.prune = false)
    (h : e.eliminate var facts = (.ok round, e')) (x : Assignment) :
    FactSet.HoldsRelaxed round.facts x ↔
      ∃ t, FactSet.HoldsRelaxed facts (Function.update x var t) := by
  constructor
  · exact exists_update_of_holdsRelaxed hprune h
  · rintro ⟨t, sat⟩
    exact holdsRelaxed_of_update h sat

/-- A variable that occurs after a round is another than the one eliminated and occurred before. -/
theorem mentions_of_eliminate (h : e.eliminate var facts = (.ok round, e')) {v : Nat}
    (hv : round.facts.Mentions v) : v ≠ var ∧ facts.Mentions v := by
  obtain ⟨p, hp, hcoeff⟩ := hv
  cases outcome_of_eliminate h hp with
  | untouched hmem habsent =>
    refine ⟨fun heq => ?_, p, hmem, hcoeff⟩
    subst heq
    exact hcoeff habsent
  | @combined q r _ hl hr _ _ hsome _ =>
    obtain ⟨m, n, -, -, hsum, -, hcancel⟩ := Fact.combined?_eq_some hsome
    have hvalue := Fact.coeff_of_eq_add hsum v
    constructor
    · rintro rfl
      exact hcoeff (hvalue.trans hcancel)
    · by_cases hleft : q.comparison.coeff v = 0
      · refine ⟨r, hr, fun hright => hcoeff ?_⟩
        rw [hvalue, hleft, hright, mul_zero, mul_zero, add_zero]
      · exact ⟨q, hl, hleft⟩

/-- What holds before a round holds after it, also with equalities read as such. -/
theorem holds_of_eliminate (h : e.eliminate var facts = (.ok round, e')) {x : Assignment}
    (sat : facts.Holds x) : round.facts.Holds x := by
  intro p hp
  cases outcome_of_eliminate h hp with
  | untouched hmem _ => exact sat p hmem
  | combined hl hr _ _ hsome _ =>
    obtain ⟨m, n, hm, hn, hsum, -, -⟩ := Fact.combined?_eq_some hsome
    have hleft := (Comparison.holds_nsmul_iff hm).mpr (sat _ hl)
    have hright := (Comparison.holds_nsmul_iff hn).mpr (sat _ hr)
    rw [hsum]
    exact Comparison.holds_add hleft hright

/-- A round without the filter is an exact projection, whatever the facts know of their past. It
leaves other variables of the facts only; relaxed, its facts are true of an assignment exactly if
the facts before are with some value of the variable; and what satisfies the facts before satisfies
its facts. -/
theorem eliminate_projects (hprune : e.config.prune = false)
    (h : e.eliminate var facts = (.ok round, e')) :
    (∀ v, round.facts.Mentions v → v ≠ var ∧ facts.Mentions v) ∧
      (∀ x, round.facts.HoldsRelaxed x ↔ ∃ t, facts.HoldsRelaxed (Function.update x var t)) ∧
        ∀ x, facts.Holds x → round.facts.Holds x :=
  ⟨fun _ hv => mentions_of_eliminate h hv, fun x => holdsRelaxed_iff_of_eliminate hprune h x,
    fun _ sat => holds_of_eliminate h sat⟩

/-- Two upper bounds of `x₀`, one of them an equality, and two lower bounds, one of them strict. One
combination is known already, and has a shorter history than the fact that states it. -/
theorem eliminate_projects_bounds :
    let known : Fact := { Fact.ofHypothesis 0 ⟨.le, .ofTerms [(1, -1)]⟩ with
      history := .ofList [0, 5, 6] }
    let facts : FactSet := .ofList [known, .ofHypothesis 1 ⟨.eq, .ofTerms [(0, 2), (2, -1)]⟩,
      .ofHypothesis 2 ⟨.le, .ofTerms [(0, 1), (1, -1)]⟩, .ofHypothesis 3 ⟨.le, .ofTerms [(0, -1)]⟩,
      .ofHypothesis 4 ⟨.lt, .ofTerms [(0, -3), (3, 1)]⟩]
    let e : Eliminator := { config := { prune := false } }
    ∃ round e', e.eliminate 0 facts = (.ok round, e') ∧
      round.facts.toList.map Fact.comparison =
        [⟨.le, .ofTerms [(1, -1)]⟩, ⟨.le, .ofTerms [(2, -1)]⟩, ⟨.lt, .ofTerms [(1, -3), (3, 1)]⟩,
          ⟨.lt, .ofTerms [(2, -3), (3, 2)]⟩] ∧
        (∀ v, round.facts.Mentions v → v ≠ 0 ∧ facts.Mentions v) ∧
          (∀ x, round.facts.HoldsRelaxed x ↔ ∃ t, facts.HoldsRelaxed (Function.update x 0 t)) ∧
            ∀ x, facts.Holds x → round.facts.Holds x := by
  intro known facts e
  have hresult : (e.eliminate 0 facts).1.toOption.map (fun round => round.facts.toList.map
      Fact.comparison) = some [⟨.le, .ofTerms [(1, -1)]⟩, ⟨.le, .ofTerms [(2, -1)]⟩,
        ⟨.lt, .ofTerms [(1, -3), (3, 1)]⟩, ⟨.lt, .ofTerms [(2, -3), (3, 2)]⟩] := by
    decide +kernel
  rcases hround : e.eliminate 0 facts with ⟨abort | round, e'⟩
  · rw [hround] at hresult
    exact nomatch hresult
  · rw [hround] at hresult
    exact ⟨round, e', rfl, Option.some.inj hresult, eliminate_projects rfl hround⟩

end Eliminator

end LinearRefutation
