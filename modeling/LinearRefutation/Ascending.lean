/-!
# Strictly ascending lists

`Ascending key` is the list form of a finite set ordered by `key`: the keys ascend strictly, so
every key occurs at most once and two sets with the same members are equal as lists. Index sets,
index maps and sets of facts are all instances.

There are two ways to put an element in. `insert` lets the new element replace the one with an equal
key; `insertNew` leaves the old one in place. `ofList` inserts from left to right, so among elements
with equal keys the last one stays.
-/

namespace LinearRefutation

universe u v w

/-- A list whose keys ascend strictly. -/
@[ext]
structure Ascending {α : Type u} {κ : Type v} [Ord κ] (key : α → κ) where
  toList : List α
  ascending : toList.Pairwise fun a b => compare (key a) (key b) = .lt

namespace Ascending

variable {α : Type u} {κ : Type v} [Ord κ] {key : α → κ}

instance [DecidableEq α] : DecidableEq (Ascending key) := fun s t =>
  decidable_of_iff (s.toList = t.toList) Ascending.ext_iff.symm

/-- The set without members. -/
def empty : Ascending key := ⟨[], .nil⟩

instance : Inhabited (Ascending key) := ⟨empty⟩

instance : Membership α (Ascending key) := ⟨fun s a => a ∈ s.toList⟩

/-- The set whose only member is `a`. -/
def singleton (a : α) : Ascending key := ⟨[a], List.pairwise_singleton _ a⟩

/-- The number of members. -/
def size (s : Ascending key) : Nat := s.toList.length

/-- Whether there is no member. -/
def isEmpty (s : Ascending key) : Bool := s.toList.isEmpty

/-- The member with key `k`. -/
def find? (s : Ascending key) (k : κ) : Option α :=
  s.toList.find? fun a => compare (key a) k == .eq

/-- Whether some member has key `k`. -/
def contains (s : Ascending key) (k : κ) : Bool := (s.find? k).isSome

/-- The members that satisfy `p`. -/
def filter (p : α → Bool) (s : Ascending key) : Ascending key :=
  ⟨s.toList.filter p, s.ascending.filter p⟩

/-- The set without the member whose key is `k`. -/
def erase (s : Ascending key) (k : κ) : Ascending key := s.filter fun a => compare (key a) k != .eq

/-- The images of the members under a function that keeps keys in order. -/
def map {β : Type w} {key' : β → κ} (f : α → β) (keeps : ∀ a, key' (f a) = key a)
    (s : Ascending key) : Ascending key' :=
  ⟨s.toList.map f, List.pairwise_map.mpr (s.ascending.imp fun h => by simpa only [keeps] using h)⟩

/-! ## Insertion -/

/-- Put `a` in front of the first larger key, in place of an equal one. -/
def place (key : α → κ) (a : α) : List α → List α
  | [] => [a]
  | b :: rest =>
    match compare (key a) (key b) with
    | .lt => a :: b :: rest
    | .eq => a :: rest
    | .gt => b :: place key a rest

/-- Placing adds at most the placed element. -/
theorem mem_of_mem_place {a x : α} {l : List α} (h : x ∈ place key a l) : x = a ∨ x ∈ l := by
  induction l with
  | nil => simpa [place] using h
  | cons b rest ih =>
    simp only [place] at h
    split at h
    · simpa using h
    · rcases List.mem_cons.mp h with h | h
      · exact .inl h
      · exact .inr (List.mem_cons_of_mem _ h)
    · rcases List.mem_cons.mp h with h | h
      · exact .inr (h ▸ List.mem_cons_self)
      · exact (ih h).imp_right (List.mem_cons_of_mem _)

/-- Placing an element keeps the keys strictly ascending. -/
theorem pairwise_place [Std.TransOrd κ] (a : α) {l : List α}
    (h : l.Pairwise fun a b => compare (key a) (key b) = .lt) :
    (place key a l).Pairwise fun a b => compare (key a) (key b) = .lt := by
  induction l with
  | nil => simp [place]
  | cons b rest ih =>
    obtain ⟨below, tail⟩ := List.pairwise_cons.mp h
    simp only [place]
    split
    next hab =>
      refine List.pairwise_cons.mpr ⟨fun x hx => ?_, h⟩
      rcases List.mem_cons.mp hx with rfl | hx
      · exact hab
      · exact Std.TransCmp.lt_trans hab (below x hx)
    next hab =>
      exact List.pairwise_cons.mpr
        ⟨fun x hx => Std.TransCmp.lt_of_eq_of_lt hab (below x hx), tail⟩
    next hab =>
      refine List.pairwise_cons.mpr ⟨fun x hx => ?_, ih tail⟩
      rcases mem_of_mem_place hx with rfl | hx
      · exact Std.OrientedCmp.lt_of_gt hab
      · exact below x hx

/-- The set with `a` in it, in place of a member with an equal key. -/
def insert [Std.TransOrd κ] (s : Ascending key) (a : α) : Ascending key :=
  ⟨place key a s.toList, pairwise_place a s.ascending⟩

/-- The set with `a` in it, unless a member with an equal key is there already. -/
def insertNew [Std.TransOrd κ] (s : Ascending key) (a : α) : Ascending key :=
  if s.contains (key a) then s else s.insert a

/-- The set of the elements of a list; of those with equal keys the last one is in it. -/
def ofList [Std.TransOrd κ] (l : List α) : Ascending key := l.foldl insert empty

/-- The members of both sets; where keys are equal, that of the second. -/
def union [Std.TransOrd κ] (s t : Ascending key) : Ascending key := t.toList.foldl insert s

instance [Std.TransOrd κ] : Union (Ascending key) := ⟨union⟩

/-- A member of `s` with `a` put in is `a` or a member of `s`. -/
theorem mem_of_mem_insert [Std.TransOrd κ] {s : Ascending key} {a x : α}
    (h : x ∈ (s.insert a).toList) : x = a ∨ x ∈ s.toList :=
  mem_of_mem_place h

end Ascending

end LinearRefutation
