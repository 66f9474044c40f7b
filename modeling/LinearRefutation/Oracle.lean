import LinearRefutation.Event

/-!
# Oracles

An oracle is asked for a certificate that comparisons contradict each other. It may keep a state,
log events, fail, find nothing, or answer with a certificate that is wrong: whoever asks checks.
-/

namespace LinearRefutation

/-- Something that answers questions for certificates, with its state in `σ`. It is asked about
comparisons whose variables are at most `maxVar`, and logged under its name. -/
class Oracle (σ : Type) where
  name : σ → String
  produce : σ → (hypotheses : List Comparison) → (maxVar : Nat) →
    Logged (Except Fault (Option Certificate)) × σ

/-- An oracle that gives a prepared answer to every question and remembers the last question, the
comparisons with the bound on their variables. -/
structure PreparedOracle where
  name : String
  answer : Except Fault (Option Certificate)
  asked : Option (List Comparison × Nat) := none

instance : Oracle PreparedOracle where
  name oracle := oracle.name
  produce oracle hypotheses maxVar :=
    ({ value := oracle.answer }, { oracle with asked := some (hypotheses, maxVar) })

end LinearRefutation
