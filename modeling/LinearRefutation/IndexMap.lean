import LinearRefutation.Ascending

/-!
# Finite maps and sets of indices

Variables and hypotheses are natural numbers. `IndexSet` holds indices in ascending order and
`IndexMap β` attaches a value to each; a map may hold zero values, and an index without an entry is
not the same as one with entry zero.
-/

namespace LinearRefutation

universe u v

/-- A finite set of indices. -/
abbrev IndexSet := Ascending (id : Nat → Nat)

/-- A finite map from indices to values. -/
abbrev IndexMap (β : Type u) := Ascending (Prod.fst : Nat × β → Nat)

namespace IndexMap

variable {β : Type u} {γ : Type v}

/-- The value at an index. -/
def get? (m : IndexMap β) (index : Nat) : Option β := (m.find? index).map Prod.snd

/-- The value at an index, `default` without an entry. -/
def getD (m : IndexMap β) (index : Nat) (default : β) : β := (m.get? index).getD default

/-- The indices that have an entry. -/
def keys (m : IndexMap β) : IndexSet :=
  ⟨m.toList.map Prod.fst, List.pairwise_map.mpr m.ascending⟩

/-- The largest index that has an entry. -/
def maxKey? (m : IndexMap β) : Option Nat := m.toList.getLast?.map Prod.fst

/-- The map with `f` applied to every value. -/
def mapValues (f : β → γ) (m : IndexMap β) : IndexMap γ :=
  m.map (fun entry : Nat × β => (entry.1, f entry.2)) fun _ => rfl

/-- The map with `f` applied to the value at an index, taken to be `default` without an entry. -/
def alter (m : IndexMap β) (index : Nat) (default : β) (f : β → β) : IndexMap β :=
  m.insert (index, f (getD m index default))

/-- The map without the entries that hold `value`. -/
def without [DecidableEq β] (m : IndexMap β) (value : β) : IndexMap β :=
  m.filter fun entry => entry.2 ≠ value

end IndexMap

end LinearRefutation
