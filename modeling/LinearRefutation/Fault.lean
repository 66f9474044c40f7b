/-!
# What can go wrong

Every failure of the library is one of four causes: a hypothesis that mentions a variable above the
declared bound, a budget that is used up, a certificate that cannot be replayed, or a scaling by
zero. `Fault.message` words them.
-/

namespace LinearRefutation

/-- What a budget limits: the number of facts held at one time, or the number of pairs of facts
combined. -/
inductive Resource where
  | workingSet
  | pairs
deriving DecidableEq, Repr

/-- The name of a resource in messages. -/
def Resource.name : Resource → String
  | .workingSet => "working set size"
  | .pairs => "pair combinations"

/-- Why a certificate cannot be replayed: it lists a hypothesis with multiplicity zero, or one that
is not among the `count` given ones, or another reason in the words of whoever refused it. -/
inductive CertificateFlaw where
  | zeroMultiplicity (hypothesis : Nat)
  | outOfRange (hypothesis count : Nat)
  | other (reason : String)
deriving DecidableEq, Repr

/-- The wording of a flaw. -/
def CertificateFlaw.message : CertificateFlaw → String
  | .zeroMultiplicity hypothesis => s!"hypothesis {hypothesis} has multiplicity zero"
  | .outOfRange hypothesis count => s!"hypothesis {hypothesis} out of range ({count} hypotheses)"
  | .other reason => reason

/-- The cause of a failure. -/
inductive Fault where
  | unboundVariable (hypothesis var bound : Nat)
  | exhausted (resource : Resource) (limit : Nat)
  | badCertificate (flaw : CertificateFlaw)
  | zeroFactor
deriving DecidableEq, Repr

/-- The wording of a fault. -/
def Fault.message : Fault → String
  | .unboundVariable hypothesis var bound =>
    s!"Invalid input: hypothesis {hypothesis} mentions variable {var} above max variable {bound}"
  | .exhausted resource limit =>
    "Resource exhausted: " ++ resource.name ++ s!" exceeded limit {limit}"
  | .badCertificate flaw => "Invalid certificate: " ++ flaw.message
  | .zeroFactor => "linear expressions are never scaled by zero"

end LinearRefutation
