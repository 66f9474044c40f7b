import LinearRefutation.Proofs.Elimination.Cost
import LinearRefutation.Proofs.Refuter

/-!
# Larger limits

Limits only decide whether a search goes on: whatever it gathers and counts is computed without
them. So a search that is completed under some limits is repeated step by step under larger ones,
and its record is the same, from the rounds of both passes to the verdict
(`Run.search_eq_of_limitsLE`). Raising a limit can turn an aborted search into a completed one, but
never changes what a completed search found, logged or counted (`Refuter.verdict_of_limitsLE`).
-/

namespace LinearRefutation

/-! ## Limits compared -/

/-- Two configs that filter alike, of which the second allows at least as much as the first. A limit
that is absent allows everything. -/
structure Config.LimitsLE (config wide : Config) : Prop where
  prune : config.prune = wide.prune
  maxWorkingSet : ∀ w, wide.maxWorkingSet = some w → ∃ l, config.maxWorkingSet = some l ∧ l ≤ w
  maxPairs : ∀ w, wide.maxPairs = some w → ∃ l, config.maxPairs = some l ∧ l ≤ w

namespace Config

variable {config wide : Config}

/-- What is within a limit is within a larger one. -/
theorem Within.of_le {limit larger : Option Nat} {amount : Nat} (h : Within limit amount)
    (hle : ∀ w, larger = some w → ∃ l, limit = some l ∧ l ≤ w) : Within larger amount := by
  intro w hw
  obtain ⟨l, hl, hlw⟩ := hle w hw
  exact (h l hl).trans hlw

theorem LimitsLE.withPruning (h : config.LimitsLE wide) (enabled : Bool) :
    (config.withPruning enabled).LimitsLE (wide.withPruning enabled) :=
  ⟨rfl, h.maxWorkingSet, h.maxPairs⟩

theorem LimitsLE.checkWorkingSet (h : config.LimitsLE wide) {size : Nat}
    (hok : config.checkWorkingSet size = .ok ()) : wide.checkWorkingSet size = .ok () :=
  check_eq_ok_iff.mpr ((check_eq_ok_iff.mp hok).of_le h.maxWorkingSet)

end Config

/-! ## Rounds and passes -/

section Widen

variable {config wide : Config} {facts : FactSet}

namespace Eliminator

variable {spent var : Nat}

/-- What limits afford, larger ones afford. -/
theorem Affords.of_limitsLE (h : config.LimitsLE wide) {pairs held : Nat}
    (haffords : Affords { config, spent } pairs held) : Affords { config := wide, spent } pairs held :=
  ⟨haffords.1.imp_right (·.of_le h.maxPairs), haffords.2.of_le h.maxWorkingSet⟩

/-- What a completed round gathers, it gathers under larger limits. -/
theorem gather_of_limitsLE (h : config.LimitsLE wide) {g : Gathering}
    (hok : gather { config, spent } var facts = .ok g) :
    gather { config := wide, spent } var facts = .ok g := by
  obtain ⟨haffords, hg⟩ := gather_eq_ok_iff.mp hok
  have hgathered : facts.gathered config.prune var = facts.gathered wide.prune var := by rw [h.prune]
  exact gather_eq_ok_iff.mpr ⟨hgathered ▸ haffords.of_limitsLE h, hg.trans hgathered⟩

/-- A completed round is the same under larger limits, and costs the same. -/
theorem eliminate_of_limitsLE (h : config.LimitsLE wide) {e' : Eliminator} {round : Round}
    (hok : eliminate { config, spent } var facts = (.ok round, e')) :
    ∃ spent', e' = { config, spent := spent' } ∧
      eliminate { config := wide, spent } var facts = (.ok round, { config := wide, spent := spent' }) := by
  obtain ⟨g, hgather, rfl, rfl⟩ := eliminate_eq_ok_iff.mp hok
  exact ⟨spent + g.tried, rfl, eliminate_eq_ok_iff.mpr ⟨g, gather_of_limitsLE h hgather, rfl, rfl⟩⟩

end Eliminator

namespace Pass

/-- A pass that arrives at a verdict is the same under larger limits. -/
theorem descend_of_limitsLE (h : config.LimitsLE wide) {spent bound : Nat} {verdict : Verdict}
    (hok : (descend { config, spent } facts bound).verdict = .ok verdict) :
    descend { config := wide, spent } facts bound = descend { config, spent } facts bound := by
  induction bound generalizing spent facts with
  | zero => rfl
  | succ var ih =>
    rcases hround : Eliminator.eliminate { config, spent } var facts with ⟨abort | round, e'⟩
    · rw [descend_of_aborted hround] at hok
      exact nomatch hok
    obtain ⟨spent', rfl, hwide⟩ := Eliminator.eliminate_of_limitsLE h hround
    cases hfind : FactSet.contradiction? round.facts with
    | some w => rw [descend_of_refuted hround hfind, descend_of_refuted hwide hfind]
    | none =>
      rw [descend_of_next hround hfind] at hok
      rw [descend_of_next hround hfind, descend_of_next hwide hfind, ih hok]

theorem start_of_limitsLE (h : config.LimitsLE wide) {bound : Nat} {verdict : Verdict}
    (hok : (start config facts bound).verdict = .ok verdict) :
    start wide facts bound = start config facts bound := by
  cases hfind : FactSet.contradiction? facts with
  | some w => rw [start_of_refuted hfind, start_of_refuted hfind]
  | none =>
    cases hsize : config.checkWorkingSet facts.size with
    | error fault =>
      rw [start_of_overfull hfind hsize] at hok
      exact nomatch hok
    | ok _ =>
      rw [start_of_fits hfind hsize] at hok
      rw [start_of_fits hfind hsize, start_of_fits hfind (h.checkWorkingSet hsize)]
      exact descend_of_limitsLE h hok

end Pass

/-- A search that arrives at a verdict is the same under larger limits, in everything that is
recorded of it. -/
theorem Run.search_eq_of_limitsLE (h : config.LimitsLE wide) {bound : Nat} {verdict : Verdict}
    (hok : (search config facts bound).verdict = .ok verdict) :
    search wide facts bound = search config facts bound := by
  by_cases hrepeat : config.prune = true ∧ (Pass.start config facts bound).verdict = .ok .exhausted
  · -- both passes are completed: the first exhausted the facts, the second has the verdict
    rw [search_of_repeated hrepeat] at hok
    have hfirst := Pass.start_of_limitsLE h hrepeat.2
    have hsecond := Pass.start_of_limitsLE (h.withPruning false) hok
    have hrepeat' : wide.prune = true ∧ (Pass.start wide facts bound).verdict = .ok .exhausted := by
      rw [hfirst, ← h.prune]
      exact hrepeat
    rw [search_of_repeated hrepeat, search_of_repeated hrepeat', hfirst, hsecond]
  · rw [search_of_single hrepeat] at hok
    have hfirst := Pass.start_of_limitsLE h hok
    have hsingle :
        ¬ (wide.prune = true ∧ (Pass.start wide facts bound).verdict = .ok .exhausted) := by
      rw [hfirst, ← h.prune]
      exact hrepeat
    rw [search_of_single hrepeat, search_of_single hsingle, hfirst]

end Widen

namespace Refuter

/-- A run that arrives at a verdict arrives at the same one under larger limits: the witness is the
same fact, with the same derivation, and so is the certificate. It logs the same events and adds the
same to the statistics. -/
theorem verdict_of_limitsLE (r wide : Refuter) (hle : r.config.LimitsLE wide.config)
    (hypotheses : List Comparison) (maxVar : Nat) {verdict : Verdict}
    (h : (r.run hypotheses maxVar).1.value = .ok verdict) :
    (wide.run hypotheses maxVar).1.value = .ok verdict ∧
      (wide.run hypotheses maxVar).1.events = (r.run hypotheses maxVar).1.events ∧
        ∃ increment, Adds r.config (·.run hypotheses maxVar) increment ∧
          Adds wide.config (·.run hypotheses maxVar) increment := by
  cases hunbound : unbound? hypotheses maxVar with
  | some found =>
    unfold run at h
    rw [hunbound] at h
    exact nomatch h
  | none =>
    have hsearch (r : Refuter) := (run_eq_search (r := r) hunbound).2
    rw [hsearch] at h
    have hsame := Run.search_eq_of_limitsLE hle h
    have hanswer : (wide.run hypotheses maxVar).1 = (r.run hypotheses maxVar).1 := by
      rw [hsearch, hsearch]
      unfold search
      rw [hsame]
    refine ⟨?_, congrArg Logged.events hanswer, _, adds_run r.config hunbound,
      hsame ▸ adds_run wide.config hunbound⟩
    rw [hanswer, hsearch]
    exact h

/-- One pair and two facts are enough to refute `x₀ - 2·x₁ < 0` and `-2·x₀ + 4·x₁ ≤ 0`, and nothing
changes with a larger limit on the facts and none on the pairs. -/
theorem verdict_of_limitsLE_cycle :
    let r : Refuter := { config := { maxPairs := some 1, maxWorkingSet := some 2 } }
    let wide : Refuter := { config := { maxWorkingSet := some 3 } }
    let hypotheses : List Comparison :=
      [⟨.lt, .ofTerms [(0, 1), (1, -2)]⟩, ⟨.le, .ofTerms [(0, -2), (1, 4)]⟩]
    r.config.LimitsLE wide.config ∧
      ∃ w, (r.run hypotheses 1).1.value = .ok (.refuted w) ∧
        (wide.run hypotheses 1).1.value = .ok (.refuted w) := by
  intro r wide hypotheses
  have hle : r.config.LimitsLE wide.config := {
    prune := rfl
    maxWorkingSet := fun w hw => ⟨2, rfl, by cases hw; decide⟩
    maxPairs := fun w hw => nomatch hw }
  exact ⟨hle, _, rfl, (verdict_of_limitsLE r wide hle hypotheses 1 rfl).1⟩

end Refuter

end LinearRefutation
