import LinearRefutation.Elimination.Round
import LinearRefutation.Certificate

/-!
# Eliminating all variables

A `Pass` eliminates the variables below a bound from the largest down and stops at the first fact
`0 < 0`. It records its rounds and how it ended.
-/

namespace LinearRefutation

/-- What a finished search found out: a derived fact `0 < 0`, or that all variables were eliminated
without one. -/
inductive Verdict where
  | refuted (witness : Fact)
  | exhausted
deriving DecidableEq, Inhabited

namespace Verdict

/-- Whether a contradiction was found. -/
def isRefuted : Verdict → Bool
  | .refuted _ => true
  | .exhausted => false

/-- The fact `0 < 0` that was derived. -/
def witness? : Verdict → Option Fact
  | .refuted witness => some witness
  | .exhausted => none

/-- The certificate of a contradiction. -/
def certificate? (verdict : Verdict) : Option Certificate :=
  verdict.witness?.map Certificate.ofWitness

end Verdict

/-- How a pass ended: with a verdict, before the first round because there were too many facts to
begin with, or in the round that was to eliminate `var`. -/
inductive Ending where
  | finished (verdict : Verdict)
  | overfull (fault : Fault)
  | aborted (var : Nat) (abort : Abort)

/-- The record of one elimination of all variables: the completed rounds, first to last, the facts
after these, and how the pass ended. -/
structure Pass where
  rounds : List Round
  facts : FactSet
  ending : Ending

namespace Pass

/-- The verdict of a pass, or the fault that ended it. -/
def verdict (pass : Pass) : Except Fault Verdict :=
  match pass.ending with
  | .finished verdict => .ok verdict
  | .overfull fault => .error fault
  | .aborted _ abort => .error abort.fault

/-- Whether all variables were eliminated without contradiction. -/
def isExhausted (pass : Pass) : Bool :=
  match pass.ending with
  | .finished .exhausted => true
  | _ => false

/-- Eliminate the variables below `bound` from facts that hold no contradiction. -/
def descend (e : Eliminator) (facts : FactSet) : (bound : Nat) → Pass
  | 0 => ⟨[], facts, .finished .exhausted⟩
  | var + 1 =>
    match e.eliminate var facts with
    | (.error abort, _) => ⟨[], facts, .aborted var abort⟩
    | (.ok round, e) =>
      match FactSet.contradiction? round.facts with
      | some witness => ⟨[round], round.facts, .finished (.refuted witness)⟩
      | none =>
        let rest := descend e round.facts var
        { rest with rounds := round :: rest.rounds }

/-- Eliminate the variables below `bound`. A contradiction in the facts given is found before they
are counted against the budget. -/
def start (config : Config) (facts : FactSet) (bound : Nat) : Pass :=
  match FactSet.contradiction? facts with
  | some witness => ⟨[], facts, .finished (.refuted witness)⟩
  | none =>
    match config.checkWorkingSet facts.size with
    | .error fault => ⟨[], facts, .overfull fault⟩
    | .ok () => descend { config } facts bound

end Pass

end LinearRefutation
