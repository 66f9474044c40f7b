import LinearRefutation.Elimination.Run

/-!
# Statistics

The statistics of a search are read off its record. Those of several searches add up, except for the
largest number of facts held, which is a maximum.
-/

namespace LinearRefutation

/-- Counts of the work done in searches. Pairs and combinations count once their round is completed:
combinations are new (`generated`), taken out by the filter (`pruned`), or repeat a comparison
(`duplicates`). `maxWorkingSet` is the largest number of facts at the beginning of a search or at
the end of a round, and `unprunedReruns` counts the searches repeated without the filter. -/
structure Statistics where
  runs : Nat := 0
  refutations : Nat := 0
  rounds : Nat := 0
  pairsTried : Nat := 0
  generated : Nat := 0
  pruned : Nat := 0
  duplicates : Nat := 0
  maxWorkingSet : Nat := 0
  unprunedReruns : Nat := 0
deriving DecidableEq, Repr, Inhabited

namespace Statistics

/-- The statistics of the searches of both. -/
def add (s t : Statistics) : Statistics where
  runs := s.runs + t.runs
  refutations := s.refutations + t.refutations
  rounds := s.rounds + t.rounds
  pairsTried := s.pairsTried + t.pairsTried
  generated := s.generated + t.generated
  pruned := s.pruned + t.pruned
  duplicates := s.duplicates + t.duplicates
  maxWorkingSet := max s.maxWorkingSet t.maxWorkingSet
  unprunedReruns := s.unprunedReruns + t.unprunedReruns

instance : Add Statistics := ⟨add⟩

end Statistics

/-- The statistics of a completed round. -/
def Round.statistics (round : Round) : Statistics where
  rounds := 1
  pairsTried := round.pairs
  generated := round.generated
  pruned := round.pruned
  duplicates := round.duplicates
  maxWorkingSet := round.facts.size

/-- The statistics of one search. -/
def Run.statistics (run : Run) : Statistics :=
  let entered : Statistics :=
    { runs := 1
      refutations := if run.verdict matches .ok (.refuted _) then 1 else 0
      maxWorkingSet := run.seed.size
      unprunedReruns := run.second.toList.length }
  run.rounds.foldl (fun sum round => sum + round.statistics) entered

end LinearRefutation
