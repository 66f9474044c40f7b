import LinearRefutation.Fault

/-!
# Budgets

A `Config` bounds the work of a search and switches the minimality filter. Each pass of a search
counts its pairs anew. Without a limit a resource is free; the limit itself is still within it.
-/

namespace LinearRefutation

/-- The limits of a search, and whether it filters combinations: `maxWorkingSet` facts may be held
at one time and `maxPairs` pairs combined in one pass, and with `prune` combinations that cannot be
minimal are discarded. -/
structure Config where
  maxWorkingSet : Option Nat := some 10000
  maxPairs : Option Nat := none
  prune : Bool := true
deriving DecidableEq, Repr, Inhabited

namespace Config

/-- No limits, with the filter on. -/
def unlimited : Config := { maxWorkingSet := none, maxPairs := none }

/-- The config with a limit on the facts held. -/
def withMaxWorkingSet (config : Config) (limit : Nat) : Config :=
  { config with maxWorkingSet := some limit }

/-- The config with a limit on the pairs combined. -/
def withMaxPairs (config : Config) (limit : Nat) : Config := { config with maxPairs := some limit }

/-- The config with the filter switched on or off. -/
def withPruning (config : Config) (enabled : Bool) : Config := { config with prune := enabled }

/-- Succeeds while an amount of a resource is within its limit. -/
def check (resource : Resource) (limit : Option Nat) (amount : Nat) : Except Fault Unit :=
  match limit with
  | none => .ok ()
  | some limit => if limit < amount then .error (.exhausted resource limit) else .ok ()

/-- Succeeds while a number of facts may be held. -/
def checkWorkingSet (config : Config) (size : Nat) : Except Fault Unit :=
  check .workingSet config.maxWorkingSet size

/-- Succeeds while a number of pairs may be combined. -/
def checkPairs (config : Config) (pairs : Nat) : Except Fault Unit :=
  check .pairs config.maxPairs pairs

end Config

end LinearRefutation
