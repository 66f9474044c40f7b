import LinearRefutation.Fact

/-!
# Certificates

A `Certificate` lists how often each hypothesis is to be taken. Replaying it adds up those
multiples; it verifies when the sum is `0 < 0`, and then the hypotheses cannot hold together.

A certificate read from outside may list a hypothesis that does not exist, or list one with
multiplicity zero. Neither can be replayed.
-/

namespace LinearRefutation

/-- How often each hypothesis is taken. -/
@[ext]
structure Certificate where
  multipliers : IndexMap Nat
deriving DecidableEq, Inhabited

namespace Certificate

/-- The certificate with these multiplicities, leaving out the zero ones. -/
def ofMultipliers (multipliers : IndexMap Nat) : Certificate := ⟨IndexMap.without multipliers 0⟩

/-- The certificate that a fact's derivation amounts to. -/
def ofWitness (witness : Fact) : Certificate := ofMultipliers witness.derivation.multipliers

/-- The multiplicity of a listed hypothesis. -/
def multiplier? (cert : Certificate) (hypothesis : Nat) : Option Nat :=
  IndexMap.get? cert.multipliers hypothesis

/-- The listed hypotheses. -/
def hypotheses (cert : Certificate) : IndexSet := IndexMap.keys cert.multipliers

/-- The number of listed hypotheses. -/
def size (cert : Certificate) : Nat := cert.multipliers.size

/-- Whether no hypothesis is listed. -/
def isEmpty (cert : Certificate) : Bool := cert.multipliers.isEmpty

/-- Add one listed multiple to a sum of hypotheses. The multiplicity is looked at first. -/
def addMultiple (hypotheses : List Comparison) (sum : Comparison) (entry : Nat × Nat) :
    Except Fault Comparison :=
  if entry.2 = 0 then
    .error (.badCertificate (.zeroMultiplicity entry.1))
  else
    match hypotheses[entry.1]? with
    | none => .error (.badCertificate (.outOfRange entry.1 hypotheses.length))
    | some c => do return sum + (← c.scale entry.2)

/-- The sum of the listed multiples, taken in the order of the hypotheses. -/
def replay (cert : Certificate) (hypotheses : List Comparison) : Except Fault Comparison :=
  cert.multipliers.toList.foldlM (addMultiple hypotheses) .trivial

/-- Whether the replay gives `0 < 0`. -/
def verify (cert : Certificate) (hypotheses : List Comparison) : Bool :=
  match cert.replay hypotheses with
  | .ok sum => sum.isContradiction
  | .error _ => false

end Certificate

end LinearRefutation
