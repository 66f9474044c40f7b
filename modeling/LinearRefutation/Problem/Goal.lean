import LinearRefutation.Problem.Refute

/-!
# Proving goals

A goal is proved by refuting the hypotheses together with each negation of the goal. An inequality
has one negation; an equality has two, and both must be refuted.
-/

namespace LinearRefutation

/-- A negation of a goal, assumed after the hypotheses of the problem, with its refutation. -/
structure ProofCase where
  negatedGoal : Hypothesis
  combination : Combination
deriving DecidableEq, Inhabited

namespace ProofCase

/-- Whether the combination checks against the problem extended by the negated goal. -/
def check (proof : ProofCase) (p : Problem) : Bool :=
  proof.combination.check (p.extend proof.negatedGoal)

end ProofCase

/-- A proof of a goal: the refutations of its negations. -/
structure GoalProof where
  cases : List ProofCase
deriving DecidableEq, Inhabited

namespace GoalProof

/-- Whether there is a case and all cases check. -/
def check (proof : GoalProof) (p : Problem) : Bool :=
  !proof.cases.isEmpty && proof.cases.all fun case => case.check p

end GoalProof

namespace Problem

/-- Refute the problem together with each of the negations of a goal, up to the first that is not
refuted. -/
def proveCases (p : Problem) (goal : Hypothesis) :
    (negations : List Hypothesis) → Logged (Except Fault (Option (List ProofCase)))
  | [] => pure (.ok (some []))
  | negatedGoal :: rest => do
    match ← (p.extend negatedGoal).refute with
    | .error fault => return .error fault
    | .ok none =>
      Logged.log (.unproved goal negatedGoal)
      return .ok none
    | .ok (some combination) =>
      let cases ← p.proveCases goal rest
      return cases.map (Option.map (⟨negatedGoal, combination⟩ :: ·))

/-- Search for a proof of a goal. -/
def prove (p : Problem) (goal : Hypothesis) : Logged (Except Fault (Option GoalProof)) := do
  let cases ← p.proveCases goal goal.negations
  return cases.map (Option.map GoalProof.mk)

end Problem

end LinearRefutation
