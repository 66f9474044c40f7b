import LinearRefutation.Problem.Combination
import LinearRefutation.Refuter

/-!
# Refuting a problem

A problem is refuted by asking an oracle about its encoding and reading the certificate in terms of
the hypotheses. That no refutation is found does not by itself mean that there is none: it depends
on the oracle.
-/

namespace LinearRefutation

namespace Problem

/-- Ask an oracle for a refutation. -/
def refuteWith {σ : Type} [Oracle σ] (p : Problem) (oracle : σ) :
    Logged (Except Fault (Option Combination)) × σ :=
  let encoding := p.encode
  let asking := Event.asking (Oracle.name oracle) p.size encoding.entries.length encoding.maxVar
  let (reply, oracle) := Oracle.produce oracle encoding.comparisons encoding.maxVar
  let read (cert : Certificate) := Combination.ofCertificate cert encoding.origins
  ({ value := reply.value.map (Option.map read), events := asking :: reply.events }, oracle)

/-- Search for a refutation by elimination. -/
def refute (p : Problem) : Logged (Except Fault (Option Combination)) :=
  (p.refuteWith ({ config := p.config } : Refuter)).1

end Problem

end LinearRefutation
