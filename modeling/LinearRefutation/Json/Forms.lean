import LinearRefutation.Config
import LinearRefutation.Json.Codec
import LinearRefutation.Problem.Combination

/-!
# JSON forms of the domain

The records and maps under which configs, comparisons, certificates and combinations are stored. A
stored linear form may list zero coefficients; they are dropped when it is read. Certificates and
combinations keep theirs.
-/

namespace LinearRefutation.Json

/-- A config may leave out any of its fields, which then have their defaults. -/
instance : Codec Config where
  encode config := .record [
    ("max_working_set", .optional .natural config.maxWorkingSet),
    ("max_pairs", .optional .natural config.maxPairs),
    ("prune_non_minimal", .truth config.prune)]
  decode? value := do
    let limit? := Value.optional? (Value.natural? indexLimit)
    let default : Config := {}
    match ← value.fields? ["max_working_set", "max_pairs", "prune_non_minimal"] with
    | [maxWorkingSet, maxPairs, prune] =>
      return {
        maxWorkingSet := ← Value.field? default.maxWorkingSet limit? maxWorkingSet
        maxPairs := ← Value.field? default.maxPairs limit? maxPairs
        prune := ← Value.field? default.prune Value.truth? prune }
    | _ => none

/-- A comparator is its name; an object in which the name has the value `null` is accepted too. -/
instance : Codec Comparator where
  encode rel := .scalar (.string rel.name.toList)
  decode?
    | .scalar (.string body) => (Escape.read? body).bind Comparator.ofName?
    | .object [(body, .scalar .null)] => (Escape.read? body).bind Comparator.ofName?
    | _ => none

instance : Codec LinearForm where
  encode form := Codec.encode form.terms
  decode? value := (Codec.decode? value).map fun (m : IndexMap Int) => .ofTerms m.toList

instance : Codec Comparison where
  encode c := .record [("ineq", Codec.encode c.rel), ("coeffs", Codec.encode c.form)]
  decode? value := do
    match ← value.fields? ["ineq", "coeffs"] with
    | [rel, form] =>
      return ⟨← Value.required? Codec.decode? rel, ← Value.required? Codec.decode? form⟩
    | _ => none

instance : Codec Certificate where
  encode cert := .record [("multipliers", Codec.encode cert.multipliers)]
  decode? value := do
    match ← value.fields? ["multipliers"] with
    | [multipliers] => return ⟨← Value.required? Codec.decode? multipliers⟩
    | _ => none

instance : Codec Combination where
  encode comb := .record [
    ("coefficients", Codec.encode comb.coefficients),
    ("positivity", Codec.encode comb.positivity)]
  decode? value := do
    match ← value.fields? ["coefficients", "positivity"] with
    | [coefficients, positivity] =>
      return {
        coefficients := ← Value.required? Codec.decode? coefficients
        positivity := ← Value.required? Codec.decode? positivity }
    | _ => none

end LinearRefutation.Json
