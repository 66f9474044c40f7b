import LinearRefutation.Problem.Combination
import LinearRefutation.Proofs.Encoding

/-!
# Sums of hypotheses

A combination has a sum exactly when it fits the hypotheses: it lists only hypotheses that exist,
and an inequality never with a negative coefficient. The sum then takes each hypothesis as often as
its coefficient says (`Combination.residue_eq_ok_iff`).

A combination read off a certificate always fits, and it amounts to the total of the comparisons
that the certificate takes (`Combination.amountsTo_ofCertificate`), so that it checks whenever the
certificate verifies. The multiples of one hypothesis add up because an inequality is credited with
one sign only, and because the comparator of an equality adds nothing.
-/

namespace LinearRefutation

open Finset

namespace Hypothesis

/-- A multiple of the normal form of a hypothesis. -/
def multiple (h : Hypothesis) (k : Int) : Combination.Residue :=
  (k • h.normalize.1, k.natAbs • h.normalize.2)

/-- A hypothesis admits a negative multiple only if it is an equality. -/
def Admits (h : Hypothesis) (k : Int) : Prop := k < 0 → h.normalize.2 = .eq

variable {h : Hypothesis}

@[simp]
theorem multiple_zero : h.multiple 0 = 0 :=
  Prod.ext (zero_zsmul _) (zero_nsmul _)

/-- Multiples that are admitted add up. -/
theorem multiple_add {k l : Int} (hk : h.Admits k) (hl : h.Admits l) :
    h.multiple (k + l) = h.multiple k + h.multiple l := by
  refine Prod.ext (add_zsmul ..) ?_
  show (k + l).natAbs • h.normalize.2 = k.natAbs • h.normalize.2 + l.natAbs • h.normalize.2
  by_cases heq : h.normalize.2 = .eq
  · -- the comparator of an equality is the zero of the sum
    rw [heq, Comparator.eq_eq_zero, nsmul_zero, nsmul_zero, nsmul_zero, add_zero]
  · have hk' : ¬ k < 0 := fun hneg => heq (hk hneg)
    have hl' : ¬ l < 0 := fun hneg => heq (hl hneg)
    have habs : (k + l).natAbs = k.natAbs + l.natAbs := by omega
    rw [habs, add_nsmul]

/-- Taking a hypothesis a natural number of times. -/
theorem encode_multiple_natCast (n : Nat) :
    encodeHom (h.multiple n) = n • h.normalize.1.encode h.normalize.2 := by
  have hmultiple : h.multiple n = n • h.normalize :=
    Prod.ext (natCast_zsmul ..) rfl
  rw [hmultiple, map_nsmul]
  rfl

/-- Taking an equality with the signs changed. -/
theorem encode_multiple_neg_natCast (heq : h.normalize.2 = .eq) (n : Nat) :
    encodeHom (h.multiple (-n)) = n • (-h.normalize.1).encode h.normalize.2 := by
  have hmultiple : h.multiple (-n) = n • (-h.normalize.1, h.normalize.2) := by
    refine Prod.ext ?_ ?_
    · show (-(n : Int)) • h.normalize.1 = n • -h.normalize.1
      rw [neg_smul, natCast_zsmul, smul_neg]
    · show (-(n : Int)).natAbs • h.normalize.2 = n • h.normalize.2
      rw [heq, Comparator.eq_eq_zero, nsmul_zero, nsmul_zero]
  rw [hmultiple, map_nsmul]
  rfl

end Hypothesis

namespace Combination

/-! ## The sum of a combination -/

/-- The sum in which the hypothesis with number `i` is taken `k i` times. -/
def combined (hypotheses : List Hypothesis) (k : Nat → Int) : Residue :=
  ∑ i ∈ range hypotheses.length, (hypotheses.getD i default).multiple (k i)

/-- The sum that a combination stands for. -/
def value (comb : Combination) (hypotheses : List Hypothesis) : Residue :=
  comb.base + combined hypotheses comb.coefficient

/-- A combination fits hypotheses when it lists only hypotheses that exist, each with a coefficient
that it admits. -/
def Fits (comb : Combination) (hypotheses : List Hypothesis) : Prop :=
  ∀ entry ∈ comb.coefficients,
    entry.1 < hypotheses.length ∧ (hypotheses.getD entry.1 default).Admits entry.2

variable {hypotheses : List Hypothesis} {comb : Combination}

/-- Adding a multiple of a hypothesis that exists, with the checks written out. -/
theorem addMultiple_of_lt {sum : Residue} {entry : Nat × Int} (hlt : entry.1 < hypotheses.length) :
    addMultiple hypotheses sum entry =
      if hypotheses[entry.1].normalize.2 ≠ .eq ∧ entry.2 < 0 then .error (.negative entry.1)
      else if entry.2 = 0 then .ok sum
      else .ok (sum.1 + entry.2 • hypotheses[entry.1].normalize.1,
        sum.2.join hypotheses[entry.1].normalize.2) := by
  unfold addMultiple
  rw [List.getElem?_eq_getElem hlt]
  simp only [AffineExpr.scale_eq]

/-- One multiple is added when the hypothesis exists and admits the coefficient. -/
theorem addMultiple_eq_ok_iff (hypotheses : List Hypothesis) (sum : Residue) (entry : Nat × Int)
    (s : Residue) :
    addMultiple hypotheses sum entry = .ok s ↔
      (entry.1 < hypotheses.length ∧ (hypotheses.getD entry.1 default).Admits entry.2) ∧
        s = sum + (hypotheses.getD entry.1 default).multiple entry.2 := by
  by_cases hlt : entry.1 < hypotheses.length
  · rw [addMultiple_of_lt hlt, List.getD_eq_getElem _ _ hlt]
    set h := hypotheses[entry.1]
    by_cases hbad : h.normalize.2 ≠ .eq ∧ entry.2 < 0
    · rw [if_pos hbad]
      refine iff_of_false (fun hok => nomatch hok) ?_
      rintro ⟨⟨-, hadmits⟩, -⟩
      exact hbad.1 (hadmits hbad.2)
    · have hadmits : h.Admits entry.2 := fun hneg => by_contra fun hne => hbad ⟨hne, hneg⟩
      rw [if_neg hbad]
      by_cases hzero : entry.2 = 0
      · rw [if_pos hzero, hzero, Hypothesis.multiple_zero, add_zero, Except.ok.injEq, eq_comm]
        simp [hlt, Hypothesis.Admits]
      · have hrel : entry.2.natAbs • h.normalize.2 = h.normalize.2 :=
          Comparator.nsmul_of_ne_zero (Int.natAbs_ne_zero.mpr hzero) _
        have hsum : sum + h.multiple entry.2 =
            (sum.1 + entry.2 • h.normalize.1, sum.2.join h.normalize.2) :=
          Prod.ext rfl (congrArg (sum.2 + ·) hrel)
        rw [if_neg hzero, hsum, Except.ok.injEq, eq_comm]
        simp [hlt, hadmits]
  · unfold addMultiple
    rw [List.getElem?_eq_none (Nat.le_of_not_lt hlt)]
    simp [hlt]

/-- The sum that a combination stands for, entry by entry. -/
theorem value_eq_sum_entries (hfits : comb.Fits hypotheses) :
    comb.value hypotheses = comb.base + (comb.coefficients.toList.map fun entry =>
      (hypotheses.getD entry.1 default).multiple entry.2).sum := by
  rw [IndexMap.sum_entries comb.coefficients 0
    (f := fun i k => (hypotheses.getD i default).multiple k)
    (fun i => Hypothesis.multiple_zero) fun entry hentry => mem_range.mpr (hfits entry hentry).1]
  rfl

/-- A combination has a sum exactly when it fits. -/
theorem residue_eq_ok_iff {s : Residue} :
    comb.residue hypotheses = .ok s ↔ comb.Fits hypotheses ∧ s = comb.value hypotheses := by
  refine (foldlM_add_eq_ok_iff (addMultiple_eq_ok_iff hypotheses)).trans ?_
  apply and_congr_right
  intro hfits
  rw [value_eq_sum_entries hfits]

/-- A combination checks exactly if it fits and its sum is a constant that fails its comparison with
zero. -/
theorem check_iff {p : Problem} :
    comb.check p ↔ comb.Fits p.hypotheses ∧ (comb.value p.hypotheses).1.isConstant ∧
      (comb.value p.hypotheses).2.violatedBy (comb.value p.hypotheses).1.constant := by
  unfold check
  cases hresidue : comb.residue p.hypotheses with
  | ok s =>
    obtain ⟨hfits, rfl⟩ := residue_eq_ok_iff.mp hresidue
    simp [hfits]
  | error flaw =>
    apply iff_of_false Bool.false_ne_true
    rintro ⟨hfits, -⟩
    rw [residue_eq_ok_iff.mpr ⟨hfits, rfl⟩] at hresidue
    exact nomatch hresidue

/-! ## Combinations read off certificates -/

/-- A combination that fits takes each hypothesis with a coefficient that it admits. -/
theorem Fits.admits (hfits : comb.Fits hypotheses) (i : Nat) :
    (hypotheses.getD i default).Admits (comb.coefficient i) := by
  intro hneg
  have hentry := IndexMap.mem_of_getD_ne (m := comb.coefficients) (i := i) hneg.ne
  exact (hfits _ hentry).2 hneg

theorem combined_add {k l : Nat → Int} (hk : ∀ i, (hypotheses.getD i default).Admits (k i))
    (hl : ∀ i, (hypotheses.getD i default).Admits (l i)) :
    combined hypotheses (fun i => k i + l i) = combined hypotheses k + combined hypotheses l := by
  unfold combined
  rw [← sum_add_distrib]
  exact sum_congr rfl fun i _ => Hypothesis.multiple_add (hk i) (hl i)

theorem combined_single {j : Nat} (hj : j < hypotheses.length) (k : Int) :
    combined hypotheses (fun i => if j = i then k else 0) =
      (hypotheses.getD j default).multiple k := by
  show ∑ i ∈ range hypotheses.length,
    (hypotheses.getD i default).multiple (if j = i then k else 0) = _
  rw [sum_eq_single_of_mem j (mem_range.mpr hj) fun i _ hne => by
    rw [if_neg hne.symm, Hypothesis.multiple_zero], if_pos rfl]

/-- What `0 < 1` contributes is encoded as a multiple of its comparison. -/
theorem encode_base (comb : Combination) :
    encodeHom comb.base = comb.positivity • Comparison.positivity := by
  refine Comparison.ext rfl (LinearForm.ext_coeff fun v => ?_)
  rw [Comparison.form_nsmul, LinearForm.coeff_nsmul]
  show (AffineExpr.encode _ _).coeff v = comb.positivity * (LinearForm.ofTerms [(0, -1)]).coeff v
  rw [LinearForm.coeff_ofTerms]
  cases v with
  | zero =>
    rw [AffineExpr.coeff_encode_zero]
    simp [base, AffineExpr.const, LinearForm.coeffSum]
  | succ v =>
    rw [AffineExpr.coeff_encode_succ]
    simp [base, AffineExpr.const, LinearForm.coeffSum]

/-- A combination amounts to a comparison when it fits the hypotheses and its sum is encoded as that
comparison. -/
def AmountsTo (comb : Combination) (hypotheses : List Hypothesis) (c : Comparison) : Prop :=
  comb.Fits hypotheses ∧ encodeHom (comb.value hypotheses) = c

/-- The combination with a further multiple of a hypothesis. -/
def addCoefficient (comb : Combination) (index : Nat) (k : Int) : Combination :=
  { comb with coefficients := IndexMap.alter comb.coefficients index 0 (· + k) }

theorem Fits.addCoefficient (hfits : comb.Fits hypotheses) {index : Nat} {k : Int}
    (hlt : index < hypotheses.length) (hk : (hypotheses.getD index default).Admits k) :
    (comb.addCoefficient index k).Fits hypotheses := by
  intro entry hentry
  rcases Ascending.mem_insert.mp hentry with rfl | ⟨hmem, -⟩
  · refine ⟨hlt, fun hneg => ?_⟩
    have hsum : comb.coefficient index + k < 0 := hneg
    -- a sum below zero has a summand below zero
    by_cases hk' : k < 0
    · exact hk hk'
    · have hold : comb.coefficient index < 0 := by omega
      exact hfits.admits index hold
  · exact hfits entry hmem

/-- A further multiple that is admitted is added to the sum. -/
theorem value_addCoefficient (hfits : comb.Fits hypotheses) {index : Nat} {k : Int}
    (hlt : index < hypotheses.length) (hk : (hypotheses.getD index default).Admits k) :
    (comb.addCoefficient index k).value hypotheses =
      comb.value hypotheses + (hypotheses.getD index default).multiple k := by
  have hcoefficient : (comb.addCoefficient index k).coefficient =
      fun i => comb.coefficient i + if index = i then k else 0 := by
    funext i
    show IndexMap.getD (IndexMap.alter comb.coefficients index 0 (· + k)) i 0 = _
    rw [IndexMap.getD_alter]
    by_cases heq : index = i
    · rw [if_pos heq, if_pos heq]
      rfl
    · rw [if_neg heq, if_neg heq, add_zero]
      rfl
  have hadmits : ∀ i, (hypotheses.getD i default).Admits (if index = i then k else 0) := by
    intro i
    by_cases heq : index = i
    · rw [if_pos heq, ← heq]
      exact hk
    · rw [if_neg heq]
      exact fun hneg => absurd hneg (lt_irrefl 0)
  unfold value
  rw [hcoefficient, combined_add hfits.admits hadmits, combined_single hlt, ← add_assoc]
  rfl

section AmountsTo

variable {c d : Comparison} {n : Nat}

theorem amountsTo_empty (hypotheses : List Hypothesis) :
    ({} : Combination).AmountsTo hypotheses 0 := by
  have hcombined : combined hypotheses ({} : Combination).coefficient = 0 :=
    sum_eq_zero fun i _ => Hypothesis.multiple_zero
  refine ⟨fun entry hentry => absurd hentry (Ascending.not_mem_empty entry), ?_⟩
  unfold value
  rw [hcombined, add_zero]
  rfl

theorem AmountsTo.addCoefficient (h : comb.AmountsTo hypotheses c) {index : Nat} {k : Int}
    (hlt : index < hypotheses.length) (hk : hypotheses[index].Admits k)
    (hd : encodeHom (hypotheses[index].multiple k) = n • d) :
    (comb.addCoefficient index k).AmountsTo hypotheses (c + n • d) := by
  obtain ⟨hfits, rfl⟩ := h
  rw [← List.getD_eq_getElem _ default hlt] at hk hd
  refine ⟨hfits.addCoefficient hlt hk, ?_⟩
  rw [value_addCoefficient hfits hlt hk, map_add, hd]

theorem AmountsTo.addPositivity (h : comb.AmountsTo hypotheses c) (n : Nat) :
    ({ comb with positivity := comb.positivity + n } : Combination).AmountsTo hypotheses
      (c + n • Comparison.positivity) := by
  obtain ⟨hfits, rfl⟩ := h
  refine ⟨hfits, ?_⟩
  unfold value
  rw [map_add, map_add, encode_base, encode_base, add_nsmul]
  exact add_right_comm ..

/-- Crediting a multiple of a comparison of the encoding adds the multiple; an entry without an
origin adds nothing. -/
theorem AmountsTo.credit {p : Problem} (h : comb.AmountsTo p.hypotheses c) (entry : Nat × Nat) :
    (credit p.encode.origins comb entry).AmountsTo p.hypotheses
      (c + entry.2 • p.encode.comparisons.getD entry.1 0) := by
  have horigin : p.encode.origins[entry.1]? = (p.encode.entries[entry.1]?).map Prod.snd :=
    List.getElem?_map ..
  have hcomparison : p.encode.comparisons.getD entry.1 0 =
      ((p.encode.entries[entry.1]?).map Prod.fst).getD 0 := by
    rw [List.getD_eq_getElem?_getD, Encoding.comparisons, List.getElem?_map]
  unfold Combination.credit
  rw [hcomparison, horigin]
  cases hget : p.encode.entries[entry.1]? with
  | none =>
    show comb.AmountsTo p.hypotheses (c + entry.2 • 0)
    rwa [nsmul_zero, add_zero]
  | some found =>
    -- an entry comes from a hypothesis, from an equality with its signs changed, or from `0 < 1`
    rcases Problem.mem_encode.mp (List.mem_of_getElem? hget) with ⟨i, hi, hmem⟩ | rfl
    · rcases Hypothesis.mem_encode.mp hmem with rfl | ⟨hrel, rfl⟩
      · have hadmits : p.hypotheses[i].Admits entry.2 := by
          intro hneg
          omega
        exact h.addCoefficient hi hadmits (Hypothesis.encode_multiple_natCast entry.2)
      · exact h.addCoefficient hi (fun _ => hrel)
          (Hypothesis.encode_multiple_neg_natCast hrel entry.2)
    · exact h.addPositivity entry.2

/-- Crediting entry after entry adds up the multiples. -/
theorem AmountsTo.foldl_credit {p : Problem} {comb : Combination} {c : Comparison}
    (h : comb.AmountsTo p.hypotheses c) (entries : List (Nat × Nat)) :
    (entries.foldl (Combination.credit p.encode.origins) comb).AmountsTo p.hypotheses
      (c + (entries.map fun entry => entry.2 • p.encode.comparisons.getD entry.1 0).sum) := by
  induction entries generalizing comb c with
  | nil => rwa [List.map_nil, List.sum_nil, add_zero]
  | cons entry rest ih =>
    rw [List.map_cons, List.sum_cons, ← add_assoc]
    exact ih (h.credit entry)

/-- Leaving out the coefficients that cancelled changes nothing. -/
theorem AmountsTo.without (h : comb.AmountsTo hypotheses c) :
    ({ comb with coefficients := IndexMap.without comb.coefficients 0 } : Combination).AmountsTo
      hypotheses c := by
  obtain ⟨hfits, rfl⟩ := h
  refine ⟨fun entry hentry => hfits entry (IndexMap.mem_without.mp hentry).1, ?_⟩
  have hcoefficient : (fun i => IndexMap.getD (IndexMap.without comb.coefficients 0) i 0) =
      comb.coefficient := by
    funext i
    exact IndexMap.getD_without comb.coefficients i 0
  show encodeHom (comb.base + combined hypotheses
    fun i => IndexMap.getD (IndexMap.without comb.coefficients 0) i 0) = _
  rw [hcoefficient]
  rfl

end AmountsTo

/-- The combination read off a certificate amounts to the total that the certificate takes. -/
theorem amountsTo_ofCertificate (p : Problem) (cert : Certificate) :
    (ofCertificate cert p.encode.origins).AmountsTo p.hypotheses
      (total p.encode.comparisons cert.multiplicity) := by
  have hcredited := ((amountsTo_empty p.hypotheses).foldl_credit cert.multipliers.toList).without
  rw [zero_add, sum_entries_eq_total] at hcredited
  exact hcredited

/-- A combination checks exactly if what it amounts to has at most variable `0`, and the coefficient
of that variable fails the comparison. -/
theorem AmountsTo.check_iff {p : Problem} {c : Comparison} (h : comb.AmountsTo p.hypotheses c) :
    comb.check p ↔ (∀ v, c.coeff (v + 1) = 0) ∧ c.rel.violatedBy (c.coeff 0) := by
  obtain ⟨hfits, rfl⟩ := h
  rw [Combination.check_iff, and_iff_right hfits]
  set s := comb.value p.hypotheses
  show s.1.isConstant ∧ _ ↔ (∀ v, (s.1.encode s.2).coeff (v + 1) = 0) ∧
    s.2.violatedBy ((s.1.encode s.2).coeff 0)
  unfold AffineExpr.isConstant
  simp only [LinearForm.isZero_iff, AffineExpr.coeff_encode_zero, AffineExpr.coeff_encode_succ]

/-- The combination read off a certificate that verifies checks. -/
theorem check_ofCertificate {p : Problem} {cert : Certificate}
    (h : cert.verify p.encode.comparisons) : (ofCertificate cert p.encode.origins).check p := by
  obtain ⟨-, hcontr⟩ := Certificate.verify_iff.mp h
  obtain ⟨hrel, hcoeff⟩ := Comparison.isContradiction_iff.mp hcontr
  rw [(amountsTo_ofCertificate p cert).check_iff, hrel, hcoeff]
  exact ⟨fun v => hcoeff (v + 1), rfl⟩

end Combination

end LinearRefutation
