import LinearRefutation.Elimination.Run
import LinearRefutation.Hypothesis

/-!
# Log events

An `Event` is something worth logging; its level, message and fields are read off it. The events of
rounds, passes and searches are read off their records. `Logged` pairs a value with the events that
were logged while it was computed.
-/

namespace LinearRefutation

/-- How important an event is. -/
inductive Level where
  | trace
  | debug
  | info
  | warn
deriving DecidableEq, Repr

/-- The name of a level in the log. -/
def Level.name : Level → String
  | .trace => "TRACE"
  | .debug => "DEBUG"
  | .info => "INFO"
  | .warn => "WARN"

/-- Something worth logging. `remaining` is the number of facts at the end of a pass that found no
contradiction. -/
inductive Event where
  | discarded (var : Nat) (fact : Fact)
  | eliminated (round : Round)
  | aborted (var : Nat) (fault : Fault)
  | overfull (fault : Fault)
  | repeating (remaining : Nat)
  | refuted (witness : Fact)
  | exhausted (remaining : Nat)
  | asking (oracle : String) (hypotheses comparisons maxVar : Nat)
  | unproved (goal negated : Hypothesis)

namespace Event

/-- The level an event is logged at. -/
def level : Event → Level
  | .discarded .. => .trace
  | .eliminated .. | .repeating .. | .asking .. | .unproved .. => .debug
  | .refuted .. | .exhausted .. => .info
  | .aborted .. | .overfull .. => .warn

/-- The text of an event. -/
def message : Event → String
  | .discarded .. => "pruned non-minimal"
  | .eliminated .. => "eliminated variable"
  | .aborted .. => "elimination aborted"
  | .overfull .. => "input exceeds the working-set budget"
  | .repeating .. => "pruned run exhausted, repeating without the minimality filter"
  | .refuted .. => "contradiction found"
  | .exhausted .. => "elimination exhausted"
  | .asking .. => "refuting hypotheses"
  | .unproved .. => "negated goal not refuted"

/-- The named values logged with an event. -/
def fields : Event → List (String × String)
  | .discarded var fact =>
    [("var", toString var), ("comp", fact.comparison.render), ("src", fact.derivation.render)]
  | .eliminated round =>
    [("var", toString round.var), ("positive", toString round.positive),
      ("negative", toString round.negative), ("untouched", toString round.untouched),
      ("generated", toString round.generated), ("pruned", toString round.pruned),
      ("size", toString round.facts.size)]
  | .aborted var fault => [("var", toString var), ("error", fault.message)]
  | .overfull fault => [("error", fault.message)]
  | .repeating remaining => [("remaining", toString remaining)]
  | .refuted witness =>
    [("src", witness.derivation.render), ("hypotheses", toString witness.history.size)]
  | .exhausted remaining => [("remaining", toString remaining)]
  | .asking oracle hypotheses comparisons maxVar =>
    [("oracle", oracle), ("hypotheses", toString hypotheses), ("comps", toString comparisons),
      ("max_var", toString maxVar)]
  | .unproved goal negated => [("goal", goal.render), ("case", negated.render)]

end Event

/-! ## The events of a search -/

/-- The combinations that the filter took out, oldest first. -/
def Gathering.events (g : Gathering) (var : Nat) : List Event :=
  g.discarded.reverse.map (.discarded var)

/-- The events of a round, completed or not, without the one that closes it. -/
def Eliminator.events (var : Nat) : Except Abort Round → List Event
  | .ok round => round.gathered.events var
  | .error abort => abort.gathered.events var

/-- The events of a completed round. -/
def Round.events (round : Round) : List Event :=
  round.gathered.events round.var ++ [.eliminated round]

/-- The events of the end of a pass. -/
def Ending.events : Ending → List Event
  | .finished _ => []
  | .overfull fault => [.overfull fault]
  | .aborted var abort => abort.gathered.events var ++ [.aborted var abort.fault]

/-- The events of a pass. -/
def Pass.events (pass : Pass) : List Event :=
  pass.rounds.flatMap Round.events ++ pass.ending.events

/-- The events of a search. -/
def Run.events (run : Run) : List Event :=
  let repeated :=
    match run.second with
    | some second => .repeating run.first.facts.size :: second.events
    | none => []
  let closing :=
    match run.verdict with
    | .ok (.refuted witness) => [.refuted witness]
    | .ok .exhausted => [.exhausted run.last.facts.size]
    | .error _ => []
  run.first.events ++ repeated ++ closing

/-! ## Values with their events -/

/-- A value and the events logged while it was computed, oldest first. -/
structure Logged (α : Type) where
  value : α
  events : List Event := []

namespace Logged

instance : Monad Logged where
  pure a := { value := a }
  bind x f :=
    let y := f x.value
    { value := y.value, events := x.events ++ y.events }

/-- Log one event. -/
def log (event : Event) : Logged Unit := { value := (), events := [event] }

end Logged

end LinearRefutation
