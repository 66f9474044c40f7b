import LinearRefutation.Proofs.Refuter

/-!
# Soundness of the refuter

The certificate of a contradiction that the refuter reports stands on its own: it lists hypotheses
that exist, each at least once, it replays to exactly the fact `0 < 0` that was derived, and so the
hypotheses have no solution. Nothing about the search has to be trusted.
-/

namespace LinearRefutation

/-- A certificate refutes hypotheses, with a given sum, when it can be replayed to that sum,
verifies, and the hypotheses have no solution. -/
structure Certificate.Refutes (cert : Certificate) (hypotheses : List Comparison) (sum : Comparison) :
    Prop where
  lt_length : ∀ entry ∈ cert.multipliers, entry.1 < hypotheses.length
  pos : ∀ entry ∈ cert.multipliers, 0 < entry.2
  replay : cert.replay hypotheses = .ok sum
  verify : cert.verify hypotheses = true
  unsatisfiable : ∀ x : Assignment, ¬ ∀ c ∈ hypotheses, c.Holds x

/-- The certificate of a derived contradiction refutes the hypotheses it is derived from. -/
theorem Fact.Derived.refutes {hypotheses : List Comparison} {w : Fact} (h : w.Derived hypotheses)
    (hcontr : w.isContradiction) :
    (Certificate.ofWitness w).Refutes hypotheses w.comparison := by
  have hfits : (Certificate.ofWitness w).Fits hypotheses := h.1.fits
  have hreplay : (Certificate.ofWitness w).replay hypotheses = .ok w.comparison :=
    h.2 ▸ h.1.replay
  have hverify : (Certificate.ofWitness w).verify hypotheses = true := by
    unfold Certificate.verify
    rw [hreplay]
    exact hcontr
  exact {
    lt_length := fun entry hentry => (hfits entry hentry).1
    pos := fun entry hentry => (hfits entry hentry).2
    replay := hreplay
    verify := hverify
    unsatisfiable := Certificate.unsatisfiable_of_verify hverify }

theorem Verdict.witness?_eq_some_iff {verdict : Verdict} {w : Fact} :
    verdict.witness? = some w ↔ verdict = .refuted w := by
  unfold witness?
  rcases verdict with w' | _ <;> simp

namespace Refuter

/-- The certificate of a reported contradiction refutes the hypotheses. -/
theorem Reports.refutes {r : Refuter} {hypotheses : List Comparison} {w : Fact}
    (h : r.Reports hypotheses (.refuted w)) :
    (Certificate.ofWitness w).Refutes hypotheses w.comparison :=
  h.derived.1.refutes h.derived.2

/-- A certificate is produced for the contradiction that a run reports. -/
theorem produce_eq_some {r : Refuter} {hypotheses : List Comparison} {maxVar : Nat}
    {cert : Certificate} (h : (r.produce hypotheses maxVar).1.value = .ok (some cert)) :
    ∃ w, (r.run hypotheses maxVar).1.value = .ok (.refuted w) ∧ cert = .ofWitness w := by
  obtain ⟨verdict, hrun, hcert⟩ := map_eq_ok_iff.mp h
  obtain ⟨w, hwitness, rfl⟩ := Option.map_eq_some_iff.mp hcert
  rw [Verdict.witness?_eq_some_iff.mp hwitness] at hrun
  exact ⟨w, hrun, rfl⟩

/-- Whatever a refuter's config and past, the certificate of a contradiction that it reports, by any
of its entry points, refutes the hypotheses and replays to the witness. -/
theorem certificate_refutes (r : Refuter) (hypotheses : List Comparison) (maxVar : Nat) :
    (∀ w, (r.run hypotheses maxVar).1.value = .ok (.refuted w) →
        (Certificate.ofWitness w).Refutes hypotheses w.comparison) ∧
      (∀ w, (r.runAuto hypotheses).1.value = .ok (.refuted w) →
        (Certificate.ofWitness w).Refutes hypotheses w.comparison) ∧
      ∀ cert, (r.produce hypotheses maxVar).1.value = .ok (some cert) →
        ∃ w, (r.run hypotheses maxVar).1.value = .ok (.refuted w) ∧
          cert = .ofWitness w ∧ cert.Refutes hypotheses w.comparison := by
  refine ⟨?_, ?_, ?_⟩
  · intro w hrun
    exact Reports.refutes (.inl ⟨maxVar, hrun⟩)
  · intro w hauto
    exact Reports.refutes (.inr hauto)
  · intro cert hproduce
    obtain ⟨w, hrun, rfl⟩ := produce_eq_some hproduce
    exact ⟨w, hrun, rfl, Reports.refutes (.inl ⟨maxVar, hrun⟩)⟩

/-- Twice `x₀ - 2·x₁ < 0` and `-2·x₀ + 4·x₁ ≤ 0` add up to `0 < 0`. -/
theorem certificate_refutes_cycle : ∃ w : Fact,
    let hypotheses : List Comparison :=
      [⟨.lt, .ofTerms [(0, 1), (1, -2)]⟩, ⟨.le, .ofTerms [(0, -2), (1, 4)]⟩]
    (({} : Refuter).run hypotheses 1).1.value = .ok (.refuted w) ∧
      (Certificate.ofWitness w).Refutes hypotheses w.comparison :=
  ⟨_, rfl, (certificate_refutes {} _ 1).1 _ rfl⟩

end Refuter

end LinearRefutation
