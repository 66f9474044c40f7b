import Mathlib.Algebra.Order.BigOperators.Group.List
import LinearRefutation.Proofs.Elimination.Filter
import LinearRefutation.Proofs.Elimination.Stage

/-!
# What rounds and passes count

Every pair that a round tries ends in one of three ways: its combination is new, the filter takes it
out, or it repeats a comparison. Only a new one makes the set of facts larger, since one that
repeats a comparison can only take the place of the fact that states it. These equations hold after
every pair (`Gathering.Balanced`), and hence for every completed round
(`Eliminator.balanced_of_eliminate`).

A pass completes a round for each variable if it exhausts its facts, and never more. A search makes
two passes if the filter is on and the first one exhausts its facts, and otherwise one
(`Run.length_rounds_le`, `Run.length_rounds_of_exhausted`).
-/

namespace LinearRefutation

/-! ## Rounds -/

namespace Gathering

variable {g : Gathering} {prune : Bool} {untouched var : Nat} {f : Fact}

/-- The counts of what has been gathered, in a round that began with some facts, add up. -/
structure Balanced (prune : Bool) (untouched : Nat) (g : Gathering) : Prop where
  tried : g.tried = g.generated + g.discarded.length + g.duplicates
  size : g.facts.size = untouched + g.generated
  discarded : prune = false → g.discarded = []

/-- The counts still add up after a further pair. -/
theorem Balanced.take (h : g.Balanced prune untouched) :
    (g.tick.take prune var f).Balanced prune untouched := by
  obtain ⟨htried, hsize, hdiscarded⟩ := h
  -- the combination of the pair is taken out, new, or a repetition
  rcases g.tick.take_cases prune var f with
    ⟨hfails, htake⟩ | ⟨-, ⟨hfind, htake⟩ | ⟨known, hfind, htake⟩⟩
  · rw [htake]
    refine ⟨?_, hsize, fun hoff => absurd (fun hon => nomatch hoff.symm.trans hon) hfails⟩
    show g.tried + 1 = g.generated + (g.discarded.length + 1) + g.duplicates
    omega
  · have hnew : ¬ g.facts.contains f.comparison := by
      rw [Ascending.contains, show g.facts.find? f.comparison = none from hfind]
      exact Bool.false_ne_true
    rw [htake]
    refine ⟨?_, ?_, hdiscarded⟩
    · show g.tried + 1 = g.generated + 1 + g.discarded.length + g.duplicates
      omega
    · show Ascending.size (g.facts.insert f) = untouched + (g.generated + 1)
      rw [Ascending.size_insert, if_neg hnew]
      omega
  · have hknown : g.facts.contains f.comparison := by
      rw [Ascending.contains, show g.facts.find? f.comparison = some known from hfind]
      rfl
    rw [htake]
    refine ⟨?_, ?_, hdiscarded⟩
    · show g.tried + 1 = g.generated + g.discarded.length + (g.duplicates + 1)
      omega
    · show Ascending.size (if f.history.size < known.history.size then g.facts.insert f
        else g.facts) = untouched + g.generated
      rw [apply_ite Ascending.size, Ascending.size_insert, if_pos hknown, ite_self, hsize]

end Gathering

namespace Eliminator

variable {e e' : Eliminator} {var : Nat} {facts : FactSet} {round : Round}

/-- The counts of a completed round add up. -/
theorem balanced_of_eliminate (h : e.eliminate var facts = (.ok round, e')) :
    round.gathered.Balanced e.config.prune round.untouched := by
  obtain ⟨g, hgather, rfl, -⟩ := eliminate_eq_ok_iff.mp h
  exact gather_induction (I := fun _ g => g.Balanced e.config.prune (FactSet.absent facts var).size)
    ⟨rfl, rfl, fun _ => rfl⟩ (fun _ _ _ _ _ _ _ _ => Gathering.Balanced.take) hgather

/-- A completed round tries every fact with a positive coefficient with every fact with a negative
one. -/
theorem pairs_of_eliminate (h : e.eliminate var facts = (.ok round, e')) :
    round.pairs = round.positive * round.negative := by
  obtain ⟨g, hgather, rfl, -⟩ := eliminate_eq_ok_iff.mp h
  obtain ⟨-, rfl⟩ := gather_eq_ok_iff.mp hgather
  exact (FactSet.tried_gathered ..).trans (FactSet.length_opposed ..)

end Eliminator

/-! ## Passes -/

namespace Pass

/-- A pass completes at most one round for every variable below the bound, and all of them if it
exhausts its facts. -/
theorem length_rounds_start (config : Config) (seed : FactSet) (bound : Nat) :
    (start config seed bound).rounds.length ≤ bound ∧
      ((start config seed bound).verdict = .ok .exhausted →
        (start config seed bound).rounds.length = bound) := by
  cases hfind : FactSet.contradiction? seed with
  | some w =>
    rw [start_of_refuted hfind]
    exact ⟨Nat.zero_le bound, fun h => nomatch h⟩
  | none =>
    cases hsize : config.checkWorkingSet seed.size with
    | error fault =>
      rw [start_of_overfull hfind hsize]
      exact ⟨Nat.zero_le bound, fun h => nomatch h⟩
    | ok _ =>
      rw [start_of_fits hfind hsize]
      obtain ⟨hle, hexhausted, -⟩ := length_rounds_descend { config } seed bound
      exact ⟨hle, hexhausted⟩

end Pass

/-! ## Searches -/

namespace Run

variable {config : Config} {seed : FactSet} {bound : Nat} {round : Round}

/-- Every round of a search is one of an eliminator with the config of the search, apart from the
filter, which may be off. -/
theorem exists_eliminate_of_mem_rounds (h : round ∈ (search config seed bound).rounds) :
    ∃ (e e' : Eliminator) (before : FactSet),
      (e.config = config ∨ e.config = config.withPruning false) ∧
        e.eliminate round.var before = (.ok round, e') := by
  obtain ⟨pass, hpass, hround⟩ := List.mem_flatMap.mp h
  obtain ⟨config', hconfig, rfl⟩ := eq_start_of_mem_passes hpass
  obtain ⟨e, e', before, rfl, -, hround⟩ := Pass.exists_stage_of_start (.completed hround)
  exact ⟨e, e', before, hconfig, hround⟩

/-- The largest number of passes of a search. -/
def maxPasses (config : Config) : Nat := if config.prune then 2 else 1

/-- A search repeats its pass at most once, and only to switch the filter off. -/
theorem length_passes_le (config : Config) (seed : FactSet) (bound : Nat) :
    (search config seed bound).passes.length ≤ maxPasses config := by
  by_cases hrepeat : config.prune = true ∧ (Pass.start config seed bound).verdict = .ok .exhausted
  · rw [search_of_repeated hrepeat, maxPasses, if_pos hrepeat.1]
    exact le_rfl
  · rw [search_of_single hrepeat, maxPasses]
    show 1 ≤ _
    split
    · exact one_le_two
    · exact le_rfl

/-- A search with the verdict of exhaustion makes all its passes, and all of them exhaust the
facts. -/
theorem passes_of_exhausted (h : (search config seed bound).verdict = .ok .exhausted) :
    (search config seed bound).passes.length = maxPasses config ∧
      ∀ pass ∈ (search config seed bound).passes, pass.rounds.length = bound := by
  by_cases hrepeat : config.prune = true ∧ (Pass.start config seed bound).verdict = .ok .exhausted
  · rw [search_of_repeated hrepeat] at h ⊢
    refine ⟨by rw [maxPasses, if_pos hrepeat.1]; rfl, ?_⟩
    exact List.forall_mem_cons.mpr ⟨(Pass.length_rounds_start ..).2 hrepeat.2,
      List.forall_mem_singleton.mpr ((Pass.length_rounds_start ..).2 h)⟩
  · rw [search_of_single hrepeat] at h ⊢
    have hoff : ¬ config.prune = true := fun hon => hrepeat ⟨hon, h⟩
    refine ⟨by rw [maxPasses, if_neg hoff]; rfl, ?_⟩
    exact List.forall_mem_singleton.mpr ((Pass.length_rounds_start ..).2 h)

theorem length_rounds_le (config : Config) (seed : FactSet) (bound : Nat) :
    (search config seed bound).rounds.length ≤ maxPasses config * bound := by
  have hpasses : ∀ pass ∈ (search config seed bound).passes, pass.rounds.length ≤ bound := by
    intro pass hpass
    obtain ⟨config', -, rfl⟩ := eq_start_of_mem_passes hpass
    exact (Pass.length_rounds_start config' seed bound).1
  unfold rounds
  rw [List.length_flatMap]
  calc ((search config seed bound).passes.map fun pass => pass.rounds.length).sum
      ≤ (search config seed bound).passes.length * bound := by
        have hsum := List.sum_le_card_nsmul
          ((search config seed bound).passes.map fun pass => pass.rounds.length) bound
          (List.forall_mem_map.mpr hpasses)
        rwa [List.length_map, smul_eq_mul] at hsum
    _ ≤ maxPasses config * bound := Nat.mul_le_mul_right bound (length_passes_le config seed bound)

theorem length_rounds_of_exhausted (h : (search config seed bound).verdict = .ok .exhausted) :
    (search config seed bound).rounds.length = maxPasses config * bound := by
  obtain ⟨hcount, hpasses⟩ := passes_of_exhausted h
  have hsum := List.sum_eq_card_nsmul
    ((search config seed bound).passes.map fun pass => pass.rounds.length) bound
    (List.forall_mem_map.mpr hpasses)
  rw [List.length_map, smul_eq_mul, hcount] at hsum
  unfold rounds
  rw [List.length_flatMap, hsum]

end Run

end LinearRefutation
