import LinearRefutation.Proofs.Checking
import LinearRefutation.Proofs.Faults

/-!
# Verifying certificates of any origin

A certificate that was read from outside may list hypotheses that do not exist, and it may list a
hypothesis with multiplicity zero. What its replay gives and whether it verifies are described in
terms of the entries alone (`Certificate.verify_iff_entries`), and a certificate that verifies can
be relied on whoever made it up: the hypotheses have no common solution.

The replay adds one multiple after the other, and coefficients cancel on the way. That it comes to
the weighted sums of the coefficients, and to the strongest of the comparators, is read off from the
sum of all multiples by the homomorphisms to the coefficients and to the comparators.
-/

namespace LinearRefutation.Certificate

/-- The coefficients of a variable in the listed hypotheses, each multiplied by the multiplicity,
added up. -/
def weightedSum (cert : Certificate) (hypotheses : List Comparison) (v : Nat) : Int :=
  (cert.multipliers.toList.map fun entry =>
    (entry.2 : Int) * (hypotheses.getD entry.1 0).coeff v).sum

/-- The comparators that a certificate takes: those of the hypotheses that it lists. -/
def Takes (cert : Certificate) (hypotheses : List Comparison) (r : Comparator) : Prop :=
  ∃ entry ∈ cert.multipliers, ∃ c, hypotheses[entry.1]? = some c ∧ c.rel = r

variable {cert : Certificate} {hypotheses : List Comparison}

/-- An additive part of the total is the sum of this part of the multiples. -/
theorem map_total {M : Type*} [AddCommMonoid M] (ψ : Comparison →+ M) :
    ψ (total hypotheses cert.multiplicity) =
      (cert.multipliers.toList.map fun entry => ψ (entry.2 • hypotheses.getD entry.1 0)).sum := by
  have hsum : (cert.multipliers.toList.map fun entry => entry.2 • hypotheses.getD entry.1 0).sum =
      total hypotheses cert.multiplicity := sum_entries_eq_total cert.multipliers hypotheses
  rw [← hsum, map_list_sum, List.map_map]
  rfl

/-- The coefficients of the total are the weighted sums. -/
theorem coeff_total (v : Nat) :
    (total hypotheses cert.multiplicity).coeff v = cert.weightedSum hypotheses v := by
  refine (map_total ((LinearForm.coeffHom v).comp Comparison.formHom)).trans (congrArg List.sum ?_)
  exact List.map_congr_left fun entry _ => LinearForm.coeff_nsmul entry.2 _ v

/-- The comparator of the total is the strongest one taken. -/
theorem strongest_total (hfits : cert.Fits hypotheses) :
    Comparator.Strongest (cert.Takes hypotheses) (total hypotheses cert.multiplicity).rel := by
  have hrel : (total hypotheses cert.multiplicity).rel = (cert.multipliers.toList.map fun entry =>
      (entry.2 • hypotheses.getD entry.1 0).rel).sum := map_total Comparison.relHom
  -- no multiple is one by zero, so that each is as strong as the hypothesis
  have hentry (entry : Nat × Nat) (hmem : entry ∈ cert.multipliers) (r : Comparator) :
      (entry.2 • hypotheses.getD entry.1 0).rel = r ↔
        ∃ c, hypotheses[entry.1]? = some c ∧ c.rel = r := by
    obtain ⟨hlt, hpos⟩ := hfits entry hmem
    rw [Comparison.rel_nsmul, Comparator.nsmul_of_ne_zero hpos.ne', List.getD_eq_getElem _ _ hlt,
      List.getElem?_eq_getElem hlt]
    simp
  rw [hrel]
  refine (Comparator.strongest_sum _ _).congr fun r _ => exists_congr fun entry => ?_
  exact and_congr_right fun hmem => hentry entry hmem r

/-- A certificate can be replayed exactly if it fits. -/
theorem exists_replay_iff : (∃ sum, cert.replay hypotheses = .ok sum) ↔ cert.Fits hypotheses := by
  constructor
  · rintro ⟨sum, hsum⟩
    exact (replay_eq_ok_iff.mp hsum).1
  · exact fun hfits => ⟨_, replay_eq_ok_iff.mpr ⟨hfits, rfl⟩⟩

/-- What a replay gives has the weighted sums as coefficients and is as strong as the strongest
hypothesis listed. -/
theorem replay_exact {sum : Comparison} (h : cert.replay hypotheses = .ok sum) :
    (∀ v, sum.coeff v = cert.weightedSum hypotheses v) ∧
      Comparator.Strongest (cert.Takes hypotheses) sum.rel := by
  obtain ⟨hfits, rfl⟩ := replay_eq_ok_iff.mp h
  exact ⟨coeff_total, strongest_total hfits⟩

/-- A certificate verifies exactly if its entries are admissible, every variable cancels, and a
strict hypothesis is listed. -/
theorem verify_iff_entries : cert.verify hypotheses ↔
    cert.Fits hypotheses ∧ (∀ v, cert.weightedSum hypotheses v = 0) ∧ cert.Takes hypotheses .lt := by
  rw [verify_iff]
  apply and_congr_right
  intro hfits
  rw [Comparison.isContradiction_iff, (strongest_total hfits).eq_lt_iff, and_comm]
  simp only [coeff_total]

/-- Verification is exact and sound, whatever certificate it is given. The certificate can be
replayed exactly if all hypotheses that it lists exist and none is listed zero times; otherwise it
is refused as a certificate. A replay gives the weighted sums of the coefficients with the strongest
comparator listed. The certificate verifies exactly if moreover every weighted sum is zero and a
strict hypothesis is listed, and then no assignment satisfies all hypotheses. -/
theorem verification_exact_and_sound (cert : Certificate) (hypotheses : List Comparison) :
    ((∃ sum, cert.replay hypotheses = .ok sum) ↔
        ∀ entry ∈ cert.multipliers, entry.1 < hypotheses.length ∧ 0 < entry.2) ∧
      (∀ fault, cert.replay hypotheses = .error fault → ∃ flaw, fault = .badCertificate flaw) ∧
      (∀ sum, cert.replay hypotheses = .ok sum →
        (∀ v, sum.coeff v = cert.weightedSum hypotheses v) ∧
          Comparator.Strongest (cert.Takes hypotheses) sum.rel) ∧
      (cert.verify hypotheses ↔
        (∀ entry ∈ cert.multipliers, entry.1 < hypotheses.length ∧ 0 < entry.2) ∧
          (∀ v, cert.weightedSum hypotheses v = 0) ∧ cert.Takes hypotheses .lt) ∧
      (cert.verify hypotheses → ∀ x, ¬ ∀ c ∈ hypotheses, c.Holds x) := by
  refine ⟨exists_replay_iff, fun fault hfault => ?_, fun _ => replay_exact, verify_iff_entries,
    unsatisfiable_of_verify⟩
  obtain ⟨entry, -, ⟨-, heq⟩ | ⟨-, heq⟩⟩ := replay_eq_error hfault
  · exact ⟨_, heq⟩
  · exact ⟨_, heq⟩

/-- Three times `2x₀ - x₁ < 0`, `3x₁ - x₂ = 0` and `x₂ - 6x₀ ≤ 0` make `0 < 0`. A certificate that
lists the strict hypothesis zero times is refused. -/
theorem verification_exact_and_sound_mixed :
    let hypotheses : List Comparison :=
      [⟨.lt, .ofTerms [(0, 2), (1, -1)]⟩, ⟨.eq, .ofTerms [(1, 3), (2, -1)]⟩,
        ⟨.le, .ofTerms [(2, 1), (0, -6)]⟩]
    let cert : Certificate := ⟨.ofList [(0, 3), (1, 1), (2, 1)]⟩
    let forged : Certificate := ⟨.ofList [(0, 0), (1, 1), (2, 1)]⟩
    (∃ sum, cert.replay hypotheses = .ok sum ∧ (∀ v, sum.coeff v = cert.weightedSum hypotheses v) ∧
        Comparator.Strongest (cert.Takes hypotheses) sum.rel) ∧
      (cert.verify hypotheses ∧ (∀ v, cert.weightedSum hypotheses v = 0) ∧
        ∀ x, ¬ ∀ c ∈ hypotheses, c.Holds x) ∧
      (forged.Takes hypotheses .lt ∧ ¬ (∃ sum, forged.replay hypotheses = .ok sum) ∧
        ∃ flaw, forged.replay hypotheses = .error (.badCertificate flaw)) := by
  intro hypotheses cert forged
  have hverify : cert.verify hypotheses := by decide
  obtain ⟨hreplays, -, hexact, hverifies, hsound⟩ := verification_exact_and_sound cert hypotheses
  obtain ⟨hforged, hrefused, -⟩ := verification_exact_and_sound forged hypotheses
  have hlisted : (0, 0) ∈ forged.multipliers := List.mem_cons_self
  have hnot : ¬ ∃ sum, forged.replay hypotheses = .ok sum := fun hreplay =>
    lt_irrefl 0 (hforged.mp hreplay _ hlisted).2
  obtain ⟨sum, hsum⟩ := hreplays.mpr (hverifies.mp hverify).1
  refine ⟨⟨sum, hsum, hexact sum hsum⟩, ⟨hverify, (hverifies.mp hverify).2.1, hsound hverify⟩,
    ⟨_, hlisted, _, rfl, rfl⟩, hnot, ?_⟩
  rcases hreplay : forged.replay hypotheses with fault | sum'
  · obtain ⟨flaw, rfl⟩ := hrefused fault hreplay
    exact ⟨flaw, rfl⟩
  · exact absurd ⟨sum', hreplay⟩ hnot

end LinearRefutation.Certificate
