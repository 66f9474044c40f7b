import LinearRefutation.Proofs.Elimination.Cost

/-!
# When an elimination is completed

The limits are looked at in the middle of a round, after every pair, and the pairs of a call that
fails stay charged to the eliminator. Nevertheless a call is completed exactly if the limits afford
the whole round: all its opposed pairs, on top of those spent before, and the facts that it would
leave without limits. What it returns then is what it would return without limits. Over a sequence
of calls the pairs of the completed ones stay within the limit
(`Eliminator.eliminate_within_limits`).
-/

namespace LinearRefutation

namespace Eliminator

variable {e e' : Eliminator} {var : Nat} {facts : FactSet} {round : Round}

/-! ## One call -/

/-- A call is completed exactly if the limits afford what it would build without them, and then
builds it. -/
theorem eliminate_eq_ok_iff_affords :
    e.eliminate var facts = (.ok round, e') ↔
      e.Affords (FactSet.opposed facts var).length
          (facts.gathered e.config.prune var).facts.size ∧
        round = ⟨var, facts, facts.gathered e.config.prune var⟩ ∧
          e' = { e with spent := e.spent + (FactSet.opposed facts var).length } := by
  rw [eliminate_eq_ok_iff]
  simp only [gather_eq_ok_iff]
  constructor
  · rintro ⟨g, ⟨haffords, rfl⟩, rfl, rfl⟩
    rw [FactSet.tried_gathered]
    exact ⟨haffords, rfl, rfl⟩
  · rintro ⟨haffords, rfl, rfl⟩
    refine ⟨_, ⟨haffords, rfl⟩, rfl, ?_⟩
    rw [FactSet.tried_gathered]

theorem eliminate_withoutLimits (e : Eliminator) (var : Nat) (facts : FactSet) :
    e.withoutLimits.eliminate var facts =
      (.ok ⟨var, facts, facts.gathered e.config.prune var⟩,
        { e.withoutLimits with spent := e.spent + (FactSet.opposed facts var).length }) := by
  rw [← FactSet.tried_gathered facts e.config.prune var]
  exact eliminate_eq_ok_iff.mpr ⟨_, gather_withoutLimits e var facts, rfl, rfl⟩

/-- A call that fails is charged as well, and leaves the config alone. -/
theorem eliminate_eq_error_charged {abort : Abort} (h : e.eliminate var facts = (.error abort, e')) :
    ∃ charged, e' = { e with spent := e.spent + charged } := by
  unfold eliminate at h
  rcases hgather : e.gather var facts with abort' | gathered
  · rw [hgather, Prod.mk.injEq] at h
    exact ⟨_, h.2.symm⟩
  · rw [hgather] at h
    exact nomatch h

/-! ## Sequences of calls -/

/-- What a sequence of calls on one eliminator returns. A call that fails does not end the
sequence. -/
def outcomes (e : Eliminator) : List (Nat × FactSet) → List (Except Abort Round)
  | [] => []
  | (var, facts) :: calls =>
    (e.eliminate var facts).1 :: (e.eliminate var facts).2.outcomes calls

/-- How many pairs the completed ones among some calls tried. -/
def completedPairs (outcomes : List (Except Abort Round)) : Nat :=
  (outcomes.map fun
    | .ok round => round.pairs
    | .error _ => 0).sum

/-- If completed calls tried any pairs, these are within the limit together with what was spent
before. -/
theorem within_completedPairs (e : Eliminator) (calls : List (Nat × FactSet)) :
    completedPairs (e.outcomes calls) = 0 ∨
      Config.Within e.config.maxPairs (e.spent + completedPairs (e.outcomes calls)) := by
  -- along the calls, with whatever the eliminator has been charged by then
  induction calls generalizing e with
  | nil => exact .inl rfl
  | cons call calls ih =>
    obtain ⟨var, facts⟩ := call
    rcases hcall : e.eliminate var facts with ⟨abort | round, e'⟩
    · obtain ⟨charged, rfl⟩ := eliminate_eq_error_charged hcall
      have hsum : completedPairs (e.outcomes ((var, facts) :: calls)) =
          completedPairs (outcomes { e with spent := e.spent + charged } calls) := by
        rw [outcomes, hcall]
        exact Nat.zero_add _
      rw [hsum]
      exact (ih _).imp_right (·.mono (by simp only; omega))
    · obtain ⟨haffords, rfl, rfl⟩ := eliminate_eq_ok_iff_affords.mp hcall
      set pairs := (FactSet.opposed facts var).length
      have hsum : completedPairs (e.outcomes ((var, facts) :: calls)) =
          pairs + completedPairs (outcomes { e with spent := e.spent + pairs } calls) := by
        rw [outcomes, hcall]
        exact congrArg (· + _) (FactSet.tried_gathered facts e.config.prune var)
      rw [hsum]
      rcases ih { e with spent := e.spent + pairs } with hrest | hrest
      · rw [hrest, Nat.add_zero]
        exact haffords.1
      · rw [← Nat.add_assoc]
        exact .inr hrest

/-- A call on an eliminator is completed exactly if either no pair is opposed or the limit on pairs
covers all opposed pairs on top of those spent, and the limit on facts covers the facts that the
same call leaves without limits. Then the round and the pairs charged are those of that call;
otherwise a limit is reported as exhausted. Over any sequence of calls, failed ones included, the
pairs tried by the completed calls are within the limit. -/
theorem eliminate_within_limits (e : Eliminator) :
    (∀ var facts, ∃ round,
        let pairs := (FactSet.positive facts var).size * (FactSet.negative facts var).size
        e.withoutLimits.eliminate var facts =
            (.ok round, { e.withoutLimits with spent := e.spent + pairs }) ∧
          ((∃ round' e', e.eliminate var facts = (.ok round', e')) ↔
            e.Affords pairs round.facts.size) ∧
          (e.Affords pairs round.facts.size →
            e.eliminate var facts = (.ok round, { e with spent := e.spent + pairs })) ∧
          (¬ e.Affords pairs round.facts.size →
            ∃ abort e', e.eliminate var facts = (.error abort, e') ∧ e.config.Exceeds abort.fault)) ∧
      ∀ calls, Config.Within e.config.maxPairs (completedPairs (e.outcomes calls)) := by
  constructor
  · intro var facts
    refine ⟨⟨var, facts, facts.gathered e.config.prune var⟩, ?_⟩
    rw [← FactSet.length_opposed]
    refine ⟨eliminate_withoutLimits e var facts, ⟨?_, fun haffords => ?_⟩, fun haffords => ?_,
      fun hnot => ?_⟩
    · rintro ⟨round, e', hcall⟩
      exact (eliminate_eq_ok_iff_affords.mp hcall).1
    · exact ⟨_, _, eliminate_eq_ok_iff_affords.mpr ⟨haffords, rfl, rfl⟩⟩
    · exact eliminate_eq_ok_iff_affords.mpr ⟨haffords, rfl, rfl⟩
    · rcases hcall : e.eliminate var facts with ⟨abort | round, e'⟩
      · exact ⟨abort, e', rfl, exceeds_of_eliminate hcall⟩
      · exact absurd (eliminate_eq_ok_iff_affords.mp hcall).1 hnot
  · intro calls
    rcases within_completedPairs e calls with hzero | hwithin
    · rw [hzero]
      exact Config.within_zero _
    · exact hwithin.mono (Nat.le_add_left ..)

/-- Three calls with a limit of two pairs and one fact. The first tries one pair and leaves one
fact, which can be afforded. The second has four pairs to try and is given up at the second of them,
with three pairs spent. The third has none to try and is completed all the same. -/
theorem eliminate_within_limits_overspent :
    let e : Eliminator := { config := { maxPairs := some 2, maxWorkingSet := some 1 } }
    let two : FactSet := .ofHypotheses [⟨.le, .ofTerms [(0, 1)]⟩, ⟨.le, .ofTerms [(0, -1), (1, 1)]⟩]
    let four : FactSet := .ofHypotheses [⟨.le, .ofTerms [(0, 1)]⟩, ⟨.le, .ofTerms [(0, 2), (1, 1)]⟩,
      ⟨.le, .ofTerms [(0, -1)]⟩, ⟨.le, .ofTerms [(0, -1), (1, 1)]⟩]
    let calls := [(0, two), (0, four), (1, FactSet.ofHypotheses [])]
    ((e.outcomes calls).map fun outcome => outcome.toOption.map Round.pairs) = [some 1, none, some 0] ∧
      completedPairs (e.outcomes calls) ≤ 2 ∧
        ∃ round, e.Affords 1 round.facts.size ∧ e.eliminate 0 two = (.ok round, { e with spent := 1 }) := by
  intro e two four calls
  obtain ⟨hcall, hcalls⟩ := eliminate_within_limits e
  have hpairs : ((e.outcomes calls).map fun outcome => outcome.toOption.map Round.pairs) =
      [some 1, none, some 0] := by decide +kernel
  refine ⟨hpairs, hcalls calls 2 rfl, ?_⟩
  obtain ⟨round, -, hiff, hcompleted, -⟩ := hcall 0 two
  have haffords : e.Affords 1 round.facts.size := hiff.mp ⟨_, _, rfl⟩
  exact ⟨round, haffords, hcompleted haffords⟩

end Eliminator

end LinearRefutation
