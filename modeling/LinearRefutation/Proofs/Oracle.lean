import LinearRefutation.Problem.Refute
import LinearRefutation.Proofs.Combination

/-!
# Certificates of any oracle

An oracle may answer with any certificate. Entries that name no comparison and entries that are zero
add nothing, so that the combination read off the certificate stands for the rest of it, and the two
ways to evaluate it agree: the combination checks exactly if replaying the rest over the comparisons
asked about gives one that mentions at most the constant and that the constant fails
(`Problem.refuteWith_faithful`).
-/

namespace LinearRefutation

/-- An equality is normalized to an equality, and nothing else is. -/
theorem Hypothesis.normalize_eq_iff {h : Hypothesis} : h.normalize.2 = .eq ↔ h.rel = .eq := by
  obtain ⟨lhs, rel, rhs⟩ := h
  cases rel <;> simp [normalize]

/-! ## The part of a certificate that counts -/

namespace Certificate

/-- The entries that are not zero and name one of `count` hypotheses. -/
def restrict (cert : Certificate) (count : Nat) : Certificate :=
  ⟨cert.multipliers.filter fun entry => entry.1 < count ∧ entry.2 ≠ 0⟩

variable {cert : Certificate} {hypotheses : List Comparison}

theorem mem_restrict {count : Nat} {entry : Nat × Nat} :
    entry ∈ (cert.restrict count).multipliers ↔
      entry ∈ cert.multipliers ∧ entry.1 < count ∧ entry.2 ≠ 0 := by
  unfold restrict
  rw [Ascending.mem_filter, decide_eq_true_iff]

theorem multiplicity_restrict {count i : Nat} (hi : i < count) :
    (cert.restrict count).multiplicity i = cert.multiplicity i := by
  by_cases hzero : cert.multiplicity i = 0
  · rw [hzero]
    by_contra hne
    obtain ⟨hmem, -, -⟩ := mem_restrict.mp (IndexMap.mem_of_getD_ne hne)
    exact hne ((IndexMap.getD_eq_of_mem hmem 0).symm.trans hzero)
  · have hmem : (i, cert.multiplicity i) ∈ cert.multipliers := IndexMap.mem_of_getD_ne hzero
    exact IndexMap.getD_eq_of_mem (mem_restrict.mpr ⟨hmem, hi, hzero⟩) 0

/-- The part of a certificate that counts can always be replayed, to the total of the hypotheses. -/
theorem replay_restrict (cert : Certificate) (hypotheses : List Comparison) :
    (cert.restrict hypotheses.length).replay hypotheses =
      .ok (total hypotheses cert.multiplicity) := by
  refine replay_eq_ok_iff.mpr ⟨fun entry hentry => ?_, ?_⟩
  · obtain ⟨-, hlt, hne⟩ := mem_restrict.mp hentry
    exact ⟨hlt, Nat.pos_of_ne_zero hne⟩
  · refine Finset.sum_congr rfl fun i hi => ?_
    rw [multiplicity_restrict (Finset.mem_range.mp hi)]

end Certificate

/-! ## Combinations read off certificates -/

namespace Combination

/-- A combination read off a certificate lists hypotheses that exist, none with coefficient zero,
and only equalities with a negative one. -/
theorem exists_hypothesis_of_mem_ofCertificate {p : Problem} {cert : Certificate} {entry : Nat × Int}
    (h : entry ∈ (ofCertificate cert p.encode.origins).coefficients) :
    ∃ hyp, p.hypotheses[entry.1]? = some hyp ∧ entry.2 ≠ 0 ∧ (entry.2 < 0 → hyp.rel = .eq) := by
  obtain ⟨hlt, hadmits⟩ := (amountsTo_ofCertificate p cert).1 entry h
  rw [List.getD_eq_getElem _ _ hlt] at hadmits
  obtain ⟨-, hne⟩ := IndexMap.mem_without.mp h
  refine ⟨p.hypotheses[entry.1], List.getElem?_eq_getElem hlt, hne, fun hneg => ?_⟩
  exact Hypothesis.normalize_eq_iff.mp (hadmits hneg)

/-- A combination read off a certificate checks exactly if the part of the certificate that counts
is replayed to a comparison that mentions at most variable `0` and that the coefficient of this
variable fails. -/
theorem check_ofCertificate_iff {p : Problem} {cert : Certificate} :
    (ofCertificate cert p.encode.origins).check p ↔
      ∃ c, (cert.restrict p.encode.comparisons.length).replay p.encode.comparisons = .ok c ∧
        (∀ v, v ≠ 0 → c.coeff v = 0) ∧ c.rel.violatedBy (c.coeff 0) := by
  rw [(amountsTo_ofCertificate p cert).check_iff, Certificate.replay_restrict]
  simp only [Except.ok.injEq, exists_eq_left']
  refine and_congr_left fun _ => ⟨fun h v hv => ?_, fun h v => h (v + 1) v.succ_ne_zero⟩
  obtain ⟨w, rfl⟩ := Nat.exists_eq_succ_of_ne_zero hv
  exact h w

end Combination

namespace Problem

/-- A combination is returned for every certificate that an oracle may answer with. It lists only
hypotheses that exist, none with coefficient zero, and only equalities with a negative one. It
checks exactly if replaying the entries of the certificate that are in range and not zero, over the
comparisons that the oracle was asked about, gives a comparison that mentions at most variable `0`
and that the coefficient of this variable fails; in particular if the certificate verifies. -/
theorem refuteWith_faithful {σ : Type} [Oracle σ] (p : Problem) (oracle : σ) (cert : Certificate)
    (h : (Oracle.produce oracle p.encode.comparisons p.encode.maxVar).1.value = .ok (some cert)) :
    ∃ comb, (p.refuteWith oracle).1.value = .ok (some comb) ∧
      (∀ entry ∈ comb.coefficients, ∃ hyp, p.hypotheses[entry.1]? = some hyp ∧ entry.2 ≠ 0 ∧
        (entry.2 < 0 → hyp.rel = .eq)) ∧
      (comb.check p ↔
        ∃ c, (cert.restrict p.encode.comparisons.length).replay p.encode.comparisons = .ok c ∧
          (∀ v, v ≠ 0 → c.coeff v = 0) ∧ c.rel.violatedBy (c.coeff 0)) ∧
      (cert.verify p.encode.comparisons → comb.check p) := by
  refine ⟨.ofCertificate cert p.encode.origins, ?_, ?_, Combination.check_ofCertificate_iff,
    Combination.check_ofCertificate⟩
  · show Except.map (Option.map fun cert => Combination.ofCertificate cert p.encode.origins)
      (Oracle.produce oracle p.encode.comparisons p.encode.maxVar).1.value = _
    rw [h]
    rfl
  · exact fun _ hentry => Combination.exists_hypothesis_of_mem_ofCertificate hentry

/-- The certificate lists a comparison with multiplicity zero and one that does not exist, so it
cannot be replayed itself. What is left of it refutes `x ≤ 0` and `x = 1`. -/
theorem refuteWith_faithful_malformed :
    let p : Problem := { hypotheses := [⟨.var 0, .le, .const 0⟩, ⟨.var 0, .eq, .const 1⟩] }
    let cert : Certificate := ⟨.ofList [(0, 1), (1, 0), (2, 1), (9, 5)]⟩
    let oracle : PreparedOracle := { name := "prepared", answer := .ok (some cert) }
    cert.verify p.encode.comparisons = false ∧
      ∃ comb, (p.refuteWith oracle).1.value = .ok (some comb) ∧ comb.check p ∧
        ∃ c, (cert.restrict p.encode.comparisons.length).replay p.encode.comparisons = .ok c ∧
          (∀ v, v ≠ 0 → c.coeff v = 0) ∧ c.rel.violatedBy (c.coeff 0) := by
  intro p cert oracle
  obtain ⟨comb, hvalue, -, hcheck, -⟩ := refuteWith_faithful p oracle cert rfl
  obtain rfl := Option.some.inj (Except.ok.inj hvalue)
  exact ⟨rfl, _, rfl, rfl, hcheck.mp rfl⟩

end Problem

end LinearRefutation
