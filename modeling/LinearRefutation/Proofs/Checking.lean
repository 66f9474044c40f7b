import LinearRefutation.Proofs.Decision
import LinearRefutation.Proofs.Oracle

/-!
# Checking evidence of any origin

Nothing is known of where a combination comes from: it may list hypotheses that do not exist, take
inequalities negatively and hold entries that are zero. The check is described in terms of the
entries alone (`Combination.check_iff_entries`), and evidence that checks can be relied on whoever
made it up: a combination that checks leaves the hypotheses without a solution
(`Combination.not_satisfiedBy_of_check`), and a proof that checks leaves none in which one of its
negated goals holds (`GoalProof.not_holds_of_check`).
-/

namespace LinearRefutation

/-! ## The strongest comparator -/

namespace Comparator

/-- The strongest of some comparators, which is `=` if there are none. -/
def Strongest (among : Comparator → Prop) (rel : Comparator) : Prop :=
  (rel = .eq ∨ among rel) ∧ ∀ r, among r → r.rank ≤ rel.rank

/-- A constant violates a comparator when it does not compare with zero in this way. -/
theorem violatedBy_iff {r : Comparator} {k : Int} : r.violatedBy k ↔ ¬ r.Holds k := by
  cases r <;> simp [violatedBy, Holds]

variable {P Q : Comparator → Prop} {a b : Comparator}

theorem Strongest.unique (ha : Strongest P a) (hb : Strongest P b) : a = b := by
  have le {r s : Comparator} (hr : Strongest P r) (hs : Strongest P s) : r.rank ≤ s.rank := by
    rcases hr.1 with rfl | hmem
    · exact Nat.zero_le _
    · exact hs.2 r hmem
  exact rank_injective (Nat.le_antisymm (le ha hb) (le hb ha))

/-- Whether `=` is among the comparators makes no difference. -/
theorem Strongest.congr (h : Strongest P a) (hPQ : ∀ r, r ≠ .eq → (P r ↔ Q r)) : Strongest Q a := by
  refine ⟨?_, fun r hr => ?_⟩
  · by_cases heq : a = .eq
    · exact .inl heq
    · exact .inr ((hPQ a heq).mp (h.1.resolve_left heq))
  · by_cases heq : r = .eq
    · rw [heq]
      exact Nat.zero_le _
    · exact h.2 r ((hPQ r heq).mpr hr)

/-- The comparator of a sum is the strongest of all comparators added up. -/
theorem Strongest.add (ha : Strongest P a) (hb : Strongest Q b) :
    Strongest (fun r => P r ∨ Q r) (a + b) := by
  show Strongest _ (if a.rank ≤ b.rank then b else a)
  by_cases hle : a.rank ≤ b.rank
  · rw [if_pos hle]
    refine ⟨hb.1.imp_right .inr, fun r hr => ?_⟩
    rcases hr with hr | hr
    · exact (ha.2 r hr).trans hle
    · exact hb.2 r hr
  · rw [if_neg hle]
    refine ⟨ha.1.imp_right .inl, fun r hr => ?_⟩
    rcases hr with hr | hr
    · exact ha.2 r hr
    · exact (hb.2 r hr).trans (Nat.le_of_not_le hle)

/-- The strongest comparator is strict exactly if a strict one is among them. -/
theorem Strongest.eq_lt_iff (ha : Strongest P a) : a = .lt ↔ P .lt := by
  constructor
  · rintro rfl
    exact ha.1.resolve_left fun h => nomatch h
  · intro hlt
    have hle : lt.rank ≤ a.rank := ha.2 .lt hlt
    cases a
    · exact absurd hle (by decide)
    · exact absurd hle (by decide)
    · rfl

theorem strongest_sum {α : Type*} (l : List α) (f : α → Comparator) :
    Strongest (fun r => ∃ a ∈ l, f a = r) (l.map f).sum := by
  induction l with
  | nil => exact ⟨.inl rfl, fun r hr => by simp at hr⟩
  | cons a rest ih =>
    have hfirst : Strongest (fun r => f a = r) (f a) := ⟨.inr rfl, fun r hr => hr ▸ le_rfl⟩
    rw [List.map_cons, List.sum_cons]
    exact (hfirst.add ih).congr fun r _ => by simp

end Comparator

/-! ## What a check amounts to -/

namespace Combination

/-- Some number of each listed hypothesis, multiplied by its coefficient and added up. The number is
taken from the expression that the hypothesis compares with zero. -/
def weightedSum (comb : Combination) (hypotheses : List Hypothesis) (part : AffineExpr → Int) : Int :=
  (comb.coefficients.toList.map fun entry =>
    entry.2 * part (hypotheses.getD entry.1 default).normalize.1).sum

/-- The comparators that a combination takes: those of the hypotheses with a coefficient other than
zero, and that of `0 < 1`. -/
inductive Takes (comb : Combination) (hypotheses : List Hypothesis) : Comparator → Prop
  | hypothesis {index : Nat} {k : Int} {h : Hypothesis} (listed : (index, k) ∈ comb.coefficients)
    (nonzero : k ≠ 0) (at_index : hypotheses[index]? = some h) : Takes comb hypotheses h.normalize.2
  | positivity (added : comb.positivity ≠ 0) : Takes comb hypotheses .lt

variable {comb : Combination} {hypotheses : List Hypothesis} {p : Problem}

/-- A combination fits when each hypothesis that it lists exists and is an equality if it is taken
negatively. -/
theorem fits_iff : comb.Fits hypotheses ↔ ∀ entry ∈ comb.coefficients,
    ∃ h, hypotheses[entry.1]? = some h ∧ (entry.2 < 0 → h.rel = .eq) := by
  refine forall₂_congr fun entry _ => ?_
  constructor
  · rintro ⟨hlt, hadmits⟩
    rw [List.getD_eq_getElem _ _ hlt] at hadmits
    exact ⟨_, List.getElem?_eq_getElem hlt,
      fun hneg => Hypothesis.normalize_eq_iff.mp (hadmits hneg)⟩
  · rintro ⟨h, hget, hadmits⟩
    obtain ⟨hlt, rfl⟩ := List.getElem?_eq_some_iff.mp hget
    rw [List.getD_eq_getElem _ _ hlt]
    exact ⟨hlt, fun hneg => Hypothesis.normalize_eq_iff.mpr (hadmits hneg)⟩

/-- An additive part of the sum is the sum of this part of the multiples. -/
theorem map_value {M : Type*} [AddCommMonoid M] (hfits : comb.Fits hypotheses) (ψ : Residue →+ M) :
    ψ (comb.value hypotheses) = ψ comb.base + (comb.coefficients.toList.map fun entry =>
      ψ ((hypotheses.getD entry.1 default).multiple entry.2)).sum := by
  rw [value_eq_sum_entries hfits, map_add, map_list_sum, List.map_map]
  rfl

/-- An additive part of the expression of the sum is the weighted sum of this part of the
hypotheses. -/
theorem map_value_fst (hfits : comb.Fits hypotheses) (φ : AffineExpr →+ Int) :
    φ (comb.value hypotheses).1 = φ comb.base.1 + comb.weightedSum hypotheses φ := by
  have hmap := map_value hfits (φ.comp (AddMonoidHom.fst AffineExpr Comparator))
  have hentry (entry : Nat × Int) :
      φ ((hypotheses.getD entry.1 default).multiple entry.2).1 =
        entry.2 * φ (hypotheses.getD entry.1 default).normalize.1 := by
    show φ (entry.2 • (hypotheses.getD entry.1 default).normalize.1) = _
    rw [map_zsmul, smul_eq_mul]
  refine hmap.trans (congrArg (φ comb.base.1 + List.sum ·) ?_)
  exact List.map_congr_left fun entry _ => hentry entry

/-- The constant of the sum. -/
theorem constant_value (hfits : comb.Fits hypotheses) : (comb.value hypotheses).1.constant =
    comb.weightedSum hypotheses (·.constant) - comb.positivity := by
  have hmap := map_value_fst hfits AffineExpr.constantHom
  have hbase : AffineExpr.constantHom comb.base.1 = -comb.positivity := rfl
  rw [hbase, neg_add_eq_sub] at hmap
  exact hmap

/-- The coefficients of the sum. -/
theorem coeff_value (hfits : comb.Fits hypotheses) (v : Nat) : (comb.value hypotheses).1.form.coeff v =
    comb.weightedSum hypotheses (·.form.coeff v) := by
  have hmap := map_value_fst hfits ((LinearForm.coeffHom v).comp AffineExpr.formHom)
  have hbase : (LinearForm.coeffHom v).comp AffineExpr.formHom comb.base.1 = 0 := rfl
  rw [hbase, zero_add] at hmap
  exact hmap

/-- The comparator of the sum is the strongest one taken. -/
theorem strongest_value (hfits : comb.Fits hypotheses) :
    Comparator.Strongest (comb.Takes hypotheses) (comb.value hypotheses).2 := by
  have hbase : Comparator.Strongest (fun r => comb.positivity ≠ 0 ∧ r = .lt) comb.base.2 := by
    show Comparator.Strongest _ (if comb.positivity = 0 then .eq else .lt)
    by_cases hzero : comb.positivity = 0
    · rw [if_pos hzero]
      exact ⟨.inl rfl, fun r hr => absurd hzero hr.1⟩
    · rw [if_neg hzero]
      exact ⟨.inr ⟨hzero, rfl⟩, fun r hr => hr.2 ▸ le_rfl⟩
  have hsum := hbase.add (Comparator.strongest_sum comb.coefficients.toList fun entry =>
    ((hypotheses.getD entry.1 default).multiple entry.2).2)
  have hvalue := map_value hfits (AddMonoidHom.snd AffineExpr Comparator)
  show Comparator.Strongest _ (AddMonoidHom.snd AffineExpr Comparator (comb.value hypotheses))
  rw [hvalue]
  refine hsum.congr fun r hr => ⟨?_, ?_⟩
  · rintro (⟨hadded, rfl⟩ | ⟨⟨index, k⟩, hlisted, rfl⟩)
    · exact .positivity hadded
    · -- a hypothesis that is taken zero times adds the comparator `=`
      have hlt := (hfits _ hlisted).1
      have hk : k ≠ 0 := by
        rintro rfl
        exact hr (congrArg Prod.snd Hypothesis.multiple_zero)
      show Takes comb hypotheses (k.natAbs • (hypotheses.getD index default).normalize.2)
      rw [Comparator.nsmul_of_ne_zero (Int.natAbs_ne_zero.mpr hk), List.getD_eq_getElem _ _ hlt]
      exact .hypothesis hlisted hk (List.getElem?_eq_getElem hlt)
  · rintro (⟨hlisted, hk, hget⟩ | hadded)
    · obtain ⟨hlt, rfl⟩ := List.getElem?_eq_some_iff.mp hget
      refine .inr ⟨_, hlisted, ?_⟩
      rw [List.getD_eq_getElem _ _ hlt]
      exact Comparator.nsmul_of_ne_zero (Int.natAbs_ne_zero.mpr hk) _
    · exact .inl ⟨hadded, rfl⟩

/-- A combination checks exactly if its entries are admissible, every variable cancels, and the
constant that is left violates the strongest comparator taken. -/
theorem check_iff_entries : comb.check p ↔
    (∀ entry ∈ comb.coefficients,
        ∃ h, p.hypotheses[entry.1]? = some h ∧ (entry.2 < 0 → h.rel = .eq)) ∧
      (∀ v, comb.weightedSum p.hypotheses (·.form.coeff v) = 0) ∧
        ∃ rel, Comparator.Strongest (comb.Takes p.hypotheses) rel ∧
          ¬ rel.Holds ((comb.weightedSum p.hypotheses (·.constant) - comb.positivity : Int) : ℚ) := by
  rw [check_iff, ← fits_iff]
  apply and_congr_right
  intro hfits
  unfold AffineExpr.isConstant
  rw [LinearForm.isZero_iff, Comparator.violatedBy_iff, constant_value hfits]
  simp only [coeff_value hfits]
  apply and_congr_right
  intro _
  constructor
  · exact fun hviolated => ⟨_, strongest_value hfits, hviolated⟩
  · rintro ⟨rel, hstrongest, hviolated⟩
    rwa [(strongest_value hfits).unique hstrongest]

/-! ## What a check proves -/

/-- Whether a sum of hypotheses is true of an assignment. -/
def Residue.Holds (s : Residue) (x : Assignment) : Prop := s.2.Holds (s.1.eval x)

theorem Residue.holds_add {s t : Residue} {x : Assignment} (hs : s.Holds x) (ht : t.Holds x) :
    Residue.Holds (s + t) x := by
  show (s.2.join t.2).Holds ((s.1 + t.1).eval x)
  rw [AffineExpr.eval_add]
  exact Comparator.holds_join hs ht

theorem Residue.holds_zero (x : Assignment) : Residue.Holds 0 x :=
  map_zero (AffineExpr.evalHom x)

/-- A multiple that a hypothesis admits is true where the hypothesis is. -/
theorem holds_multiple {h : Hypothesis} {k : Int} {x : Assignment} (hk : h.Admits k) (hx : h.Holds x) :
    Residue.Holds (h.multiple k) x := by
  rw [Hypothesis.holds_iff_normalize] at hx
  rcases lt_trichotomy k 0 with hneg | rfl | hpos
  · -- only an equality is taken negatively, and zero has no sign
    have hrel := hk hneg
    rw [hrel] at hx
    have hvalue : h.normalize.1.eval x = 0 := hx
    show (k.natAbs • h.normalize.2).Holds ((k • h.normalize.1).eval x)
    rw [hrel, Comparator.eq_eq_zero, nsmul_zero, AffineExpr.eval_zsmul, hvalue, mul_zero]
    rfl
  · rw [Hypothesis.multiple_zero]
    exact Residue.holds_zero x
  · show (k.natAbs • h.normalize.2).Holds ((k • h.normalize.1).eval x)
    rw [Comparator.nsmul_of_ne_zero (Int.natAbs_ne_zero.mpr hpos.ne'), AffineExpr.eval_zsmul]
    exact (Comparator.holds_mul_iff _ (Int.cast_pos.mpr hpos)).mpr hx

/-- What `0 < 1` contributes is true everywhere. -/
theorem holds_base (comb : Combination) (x : Assignment) : comb.base.Holds x := by
  have hvalue : comb.base.1.eval x = -(comb.positivity : ℚ) := by
    simp [base, AffineExpr.const, AffineExpr.eval]
  unfold Residue.Holds
  rw [hvalue]
  show (if comb.positivity = 0 then Comparator.eq else .lt).Holds _
  by_cases hzero : comb.positivity = 0
  · rw [if_pos hzero, hzero]
    simp [Comparator.Holds]
  · rw [if_neg hzero]
    have hpos : (0 : ℚ) < comb.positivity := by exact_mod_cast Nat.pos_of_ne_zero hzero
    exact neg_neg_of_pos hpos

/-- The sum of a combination that fits is true where the hypotheses are. -/
theorem holds_value (hfits : comb.Fits p.hypotheses) {x : Assignment} (hx : p.SatisfiedBy x) :
    (comb.value p.hypotheses).Holds x := by
  have hentries : ∀ l : List (Nat × Int), (∀ entry ∈ l, entry ∈ comb.coefficients) →
      Residue.Holds (l.map fun entry =>
        (p.hypotheses.getD entry.1 default).multiple entry.2).sum x := by
    intro l hl
    induction l with
    | nil => exact Residue.holds_zero x
    | cons entry rest ih =>
      obtain ⟨hlt, hadmits⟩ := hfits entry (hl entry List.mem_cons_self)
      rw [List.getD_eq_getElem _ _ hlt] at hadmits
      rw [List.map_cons, List.sum_cons, List.getD_eq_getElem _ _ hlt]
      exact Residue.holds_add (holds_multiple hadmits (hx _ (List.getElem_mem hlt)))
        (ih fun entry hentry => hl entry (List.mem_cons_of_mem _ hentry))
  rw [value_eq_sum_entries hfits]
  exact Residue.holds_add (holds_base comb x) (hentries _ fun _ hentry => hentry)

/-- Hypotheses against which a combination checks have no solution. -/
theorem not_satisfiedBy_of_check (h : comb.check p) (x : Assignment) : ¬ p.SatisfiedBy x := by
  intro hx
  obtain ⟨hfits, hconstant, hviolated⟩ := check_iff.mp h
  have hholds : (comb.value p.hypotheses).Holds x := holds_value hfits hx
  -- the sum is a constant, so that its value is the one found to be violated
  have hform : (comb.value p.hypotheses).1.form = 0 :=
    LinearForm.ext_coeff (LinearForm.isZero_iff.mp hconstant)
  unfold Residue.Holds AffineExpr.eval at hholds
  rw [hform, LinearForm.eval_zero, add_zero] at hholds
  exact Comparator.violatedBy_iff.mp hviolated hholds

end Combination

/-- No solution satisfies a goal negation that is a case of a proof that checks. -/
theorem GoalProof.not_holds_of_check {proof : GoalProof} {p : Problem} (h : proof.check p)
    {x : Assignment} (hx : p.SatisfiedBy x) {case : ProofCase} (hcase : case ∈ proof.cases) :
    ¬ case.negatedGoal.Holds x := by
  intro hholds
  unfold check at h
  rw [Bool.and_eq_true, List.all_eq_true] at h
  have hcheck : case.combination.check (p.extend case.negatedGoal) := h.2 case hcase
  exact Combination.not_satisfiedBy_of_check hcheck x (Problem.satisfiedBy_extend.mpr ⟨hx, hholds⟩)

/-- Both checkers are exact and sound, whatever evidence they are given. A combination checks
exactly if all hypotheses that it lists exist, none but equalities are taken negatively, and the
multiples less the number of times that `0 < 1` is added make up a constant that violates the
strongest comparator taken; then the hypotheses have no solution. If a proof checks, no solution
satisfies a negated goal. -/
theorem Problem.checks_exact_and_sound (p : Problem) :
    (∀ comb : Combination, comb.check p ↔
        (∀ entry ∈ comb.coefficients,
            ∃ h, p.hypotheses[entry.1]? = some h ∧ (entry.2 < 0 → h.rel = .eq)) ∧
          (∀ v, comb.weightedSum p.hypotheses (·.form.coeff v) = 0) ∧
            ∃ rel, Comparator.Strongest (comb.Takes p.hypotheses) rel ∧
              ¬ rel.Holds
                ((comb.weightedSum p.hypotheses (·.constant) - comb.positivity : Int) : ℚ)) ∧
      (∀ comb : Combination, comb.check p → ∀ x, ¬ p.SatisfiedBy x) ∧
        ∀ proof : GoalProof, proof.check p → ∀ x, p.SatisfiedBy x →
          ∀ case ∈ proof.cases, ¬ case.negatedGoal.Holds x :=
  ⟨fun _ => Combination.check_iff_entries, fun _ => Combination.not_satisfiedBy_of_check,
    fun _ hcheck _ hx _ => GoalProof.not_holds_of_check hcheck hx⟩

/-- A proof of `x₁ < 2` from `x₀ ≤ 1`, `x₀ = x₁` and `x₂ < 5`, made up by hand: the equality is
taken negatively, and the strict hypothesis is listed with coefficient zero. -/
theorem Problem.checks_exact_and_sound_by_hand :
    let p : Problem :=
      { hypotheses := [⟨.var 0, .le, .const 1⟩, ⟨.var 0, .eq, .var 1⟩, ⟨.var 2, .lt, .const 5⟩] }
    let negated : Hypothesis := ⟨.var 1, .ge, .const 2⟩
    let comb : Combination := { coefficients := .ofList [(0, 1), (1, -1), (2, 0), (3, 1)] }
    (comb.check (p.extend negated) ∧ ∀ x, ¬ (p.extend negated).SatisfiedBy x) ∧
      (GoalProof.mk [⟨negated, comb⟩]).check p ∧ p.SatisfiedBy 0 ∧ ¬ negated.Holds 0 := by
  intro p negated comb
  have hsat : p.SatisfiedBy 0 := by
    simp [p, SatisfiedBy, Hypothesis.Holds, Relation.Holds, AffineExpr.eval, AffineExpr.var,
      AffineExpr.term, AffineExpr.const, LinearForm.eval_ofTerms]
  exact ⟨⟨rfl, (checks_exact_and_sound (p.extend negated)).2.1 comb rfl⟩, rfl, hsat,
    (checks_exact_and_sound p).2.2 (.mk [⟨negated, comb⟩]) rfl 0 hsat _ List.mem_cons_self⟩

end LinearRefutation
