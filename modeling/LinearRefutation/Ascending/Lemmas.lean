import LinearRefutation.Ascending

/-!
# Members of strictly ascending lists

What the operations on `Ascending` do to its members: `mem_insert`, `mem_insertNew`, `mem_erase` and
`mem_filter` describe them as sets, and `find?_eq_some_iff` ties look-up to membership. Two sets
with the same members are equal (`ext_mem`). A function that keeps keys commutes with all of them
(`find?_map`, `filter_map`, `insert_map`). A list inserted element by element leaves each of its
keys, and the members of a set, inserted in this way, make up the set again (`ofList_toList`).
-/

namespace LinearRefutation

universe u v w

namespace Ascending

variable {α : Type u} {κ : Type v} [Ord κ] {key : α → κ}

/-- Membership is membership in the list. -/
theorem mem_toList {s : Ascending key} {a : α} : a ∈ s.toList ↔ a ∈ s := Iff.rfl

@[simp]
theorem not_mem_empty (a : α) : a ∉ (empty : Ascending key) := List.not_mem_nil

@[simp]
theorem mem_singleton {a x : α} : x ∈ (singleton a : Ascending key) ↔ x = a := List.mem_singleton

@[simp]
theorem mem_filter {p : α → Bool} {s : Ascending key} {x : α} : x ∈ s.filter p ↔ x ∈ s ∧ p x :=
  List.mem_filter

@[simp]
theorem mem_erase {s : Ascending key} {k : κ} {x : α} :
    x ∈ s.erase k ↔ x ∈ s ∧ compare (key x) k ≠ .eq := by
  simp [erase]

/-- A set is empty when it has no members. -/
theorem isEmpty_iff {s : Ascending key} : s.isEmpty ↔ ∀ a, a ∉ s := by
  rw [isEmpty, List.isEmpty_iff, List.eq_nil_iff_forall_not_mem]
  rfl

/-- Look-up fails when no member has the key. -/
theorem find?_eq_none_iff {s : Ascending key} {k : κ} :
    s.find? k = none ↔ ∀ a ∈ s, compare (key a) k ≠ .eq := by
  simp [find?, List.find?_eq_none, mem_toList]

section Map

variable {β : Type w} {key' : β → κ} {f : α → β} {keeps : ∀ a, key' (f a) = key a}

theorem mem_map {s : Ascending key} {b : β} : b ∈ s.map f keeps ↔ ∃ a ∈ s, f a = b := List.mem_map

theorem size_map (s : Ascending key) : (s.map f keeps).size = s.size := List.length_map f

/-- Look-up among images finds the image of what is found. -/
theorem find?_map (s : Ascending key) (k : κ) : (s.map f keeps).find? k = (s.find? k).map f := by
  simp only [find?, map, List.find?_map, Function.comp_def, keeps]

/-- The images that satisfy a predicate. -/
theorem filter_map (s : Ascending key) (p : β → Bool) :
    (s.map f keeps).filter p = (s.filter fun a => p (f a)).map f keeps :=
  Ascending.ext List.filter_map

private theorem place_map (keeps : ∀ a, key' (f a) = key a) (a : α) (l : List α) :
    place key' (f a) (l.map f) = (place key a l).map f := by
  induction l with
  | nil => rfl
  | cons b rest ih =>
    simp only [List.map_cons, place, keeps]
    split
    · rfl
    · rfl
    · rw [ih, List.map_cons]

end Map

section Order

variable [Std.TransOrd κ]

/-- Keys tell the members of a set apart. -/
theorem eq_of_compare_eq {s : Ascending key} {a b : α} (ha : a ∈ s) (hb : b ∈ s)
    (h : compare (key a) (key b) = .eq) : a = b := by
  obtain ⟨l, hl⟩ := s
  replace ha : a ∈ l := ha
  replace hb : b ∈ l := hb
  induction l with
  | nil => cases ha
  | cons c rest ih =>
    obtain ⟨below, tail⟩ := List.pairwise_cons.mp hl
    rcases List.mem_cons.mp ha with hac | ha <;> rcases List.mem_cons.mp hb with hbc | hb
    · rw [hac, hbc]
    · rw [hac, below b hb] at h
      cases h
    · rw [hbc, Std.OrientedCmp.eq_comm, below a ha] at h
      cases h
    · exact ih tail ha hb

/-- Look-up finds the member whose key is the one asked for. -/
theorem find?_eq_some_iff {s : Ascending key} {k : κ} {a : α} :
    s.find? k = some a ↔ a ∈ s ∧ compare (key a) k = .eq := by
  constructor
  · intro h
    exact ⟨List.mem_of_find?_eq_some h, by simpa using List.find?_some h⟩
  · rintro ⟨ha, hk⟩
    cases hf : s.find? k with
    | none => simpa [hk] using List.find?_eq_none.mp hf a ha
    | some b =>
      have hb : compare (key b) k = .eq := by simpa using List.find?_some hf
      rw [eq_of_compare_eq (List.mem_of_find?_eq_some hf) ha]
      exact Std.TransCmp.eq_trans hb (Std.OrientedCmp.eq_symm hk)

/-- A key is contained when some member has it. -/
theorem contains_iff {s : Ascending key} {k : κ} :
    s.contains k ↔ ∃ a ∈ s, compare (key a) k = .eq := by
  simp only [contains, Option.isSome_iff_exists, find?_eq_some_iff]

private theorem mem_place {a x : α} {l : List α}
    (h : l.Pairwise fun a b => compare (key a) (key b) = .lt) :
    x ∈ place key a l ↔ x = a ∨ x ∈ l ∧ compare (key x) (key a) ≠ .eq := by
  induction l with
  | nil => simp [place]
  | cons b rest ih =>
    obtain ⟨below, tail⟩ := List.pairwise_cons.mp h
    -- the keys up to that of `b` are below all keys after `b`
    have above {c : κ} (hc : compare c (key b) ≠ .gt) (y : α) (hy : y ∈ rest) :
        compare (key y) c ≠ .eq := by
      intro he
      refine hc ?_
      rw [Std.OrientedCmp.gt_iff_lt]
      exact Std.TransCmp.lt_of_lt_of_eq (below y hy) he
    simp only [place]
    split
    next hab =>
      have hba : compare (key b) (key a) ≠ .eq := fun he => by
        rw [Std.OrientedCmp.eq_comm, hab] at he
        cases he
      have := above (c := key a) (by simp [hab])
      grind
    next hab =>
      have hba := Std.OrientedCmp.eq_symm hab
      have := above (c := key a) (by simp [hab])
      grind
    next hab =>
      have hba : compare (key b) (key a) ≠ .eq := fun he => by
        rw [Std.OrientedCmp.eq_comm, hab] at he
        cases he
      grind

/-- After insertion the new element is there, and of the others those with different keys. -/
@[simp]
theorem mem_insert {s : Ascending key} {a x : α} :
    x ∈ s.insert a ↔ x = a ∨ x ∈ s ∧ compare (key x) (key a) ≠ .eq :=
  mem_place s.ascending

private theorem length_place {a : α} {l : List α}
    (h : l.Pairwise fun a b => compare (key a) (key b) = .lt) :
    (place key a l).length =
      if ∃ b ∈ l, compare (key b) (key a) = .eq then l.length else l.length + 1 := by
  induction l with
  | nil => simp [place]
  | cons b rest ih =>
    obtain ⟨below, tail⟩ := List.pairwise_cons.mp h
    simp only [place, List.mem_cons, or_and_right, exists_or, exists_eq_left]
    split
    next hab =>
      have hnone : ¬ (compare (key b) (key a) = .eq ∨ ∃ c ∈ rest, compare (key c) (key a) = .eq) := by
        rintro (hb | ⟨c, hc, hca⟩)
        · rw [Std.OrientedCmp.eq_comm, hab] at hb
          cases hb
        · have hac := Std.TransCmp.lt_trans hab (below c hc)
          rw [Std.OrientedCmp.eq_symm hca] at hac
          cases hac
      rw [if_neg hnone, List.length_cons, List.length_cons]
    next hab => rw [if_pos (.inl (Std.OrientedCmp.eq_symm hab)), List.length_cons, List.length_cons]
    next hab =>
      have hb : compare (key b) (key a) ≠ .eq := fun he => by
        rw [Std.OrientedCmp.eq_comm, hab] at he
        cases he
      rw [List.length_cons, ih tail, List.length_cons]
      simp only [hb, false_or]
      split <;> rfl

/-- Insertion adds a member unless one with an equal key is replaced. -/
theorem size_insert (s : Ascending key) (a : α) :
    (s.insert a).size = if s.contains (key a) then s.size else s.size + 1 := by
  simp only [contains_iff]
  exact length_place s.ascending

/-- Inserting the image of an element gives the image of the set with the element inserted. -/
theorem insert_map {β : Type w} {key' : β → κ} {f : α → β} {keeps : ∀ a, key' (f a) = key a}
    (s : Ascending key) (a : α) : (s.map f keeps).insert (f a) = (s.insert a).map f keeps :=
  Ascending.ext (place_map keeps a s.toList)

/-- Look-up after insertion. -/
theorem find?_insert (s : Ascending key) (a : α) (k : κ) :
    (s.insert a).find? k = if compare (key a) k = .eq then some a else s.find? k := by
  split
  next h => exact find?_eq_some_iff.mpr ⟨mem_insert.mpr (.inl rfl), h⟩
  next h =>
    ext x
    rw [find?_eq_some_iff, find?_eq_some_iff, mem_insert]
    constructor
    · rintro ⟨rfl | ⟨hx, -⟩, hk⟩
      · exact absurd hk h
      · exact ⟨hx, hk⟩
    · rintro ⟨hx, hk⟩
      refine ⟨.inr ⟨hx, fun hc => h ?_⟩, hk⟩
      exact Std.TransCmp.eq_trans (Std.OrientedCmp.eq_symm hc) hk

/-- Look-up after removal. -/
theorem find?_erase (s : Ascending key) (k k' : κ) :
    (s.erase k).find? k' = if compare k k' = .eq then none else s.find? k' := by
  split
  next h =>
    refine find?_eq_none_iff.mpr fun a ha hk => (mem_erase.mp ha).2 ?_
    exact Std.TransCmp.eq_trans hk (Std.OrientedCmp.eq_symm h)
  next h =>
    ext x
    rw [find?_eq_some_iff, find?_eq_some_iff, mem_erase]
    refine ⟨fun ⟨⟨hx, _⟩, hk⟩ => ⟨hx, hk⟩, fun ⟨hx, hk⟩ => ⟨⟨hx, fun hc => h ?_⟩, hk⟩⟩
    exact Std.TransCmp.eq_trans (Std.OrientedCmp.eq_symm hc) hk

/-- Insertion without replacement. -/
theorem mem_insertNew {s : Ascending key} {a x : α} :
    x ∈ s.insertNew a ↔ x ∈ s ∨ x = a ∧ ¬ s.contains (key a) := by
  rw [insertNew]
  split
  next h => simp [h]
  next h =>
    have hn : ∀ b ∈ s, compare (key b) (key a) ≠ .eq := fun b hb hk =>
      h (contains_iff.mpr ⟨b, hb, hk⟩)
    rw [mem_insert]
    constructor
    · rintro (rfl | ⟨hx, -⟩)
      · exact .inr ⟨rfl, h⟩
      · exact .inl hx
    · rintro (hx | ⟨rfl, -⟩)
      · exact .inr ⟨hx, hn x hx⟩
      · exact .inl rfl

/-- Two sets with the same members are equal. -/
theorem ext_mem {s t : Ascending key} (h : ∀ a, a ∈ s ↔ a ∈ t) : s = t := by
  obtain ⟨l, hl⟩ := s
  obtain ⟨m, hm⟩ := t
  replace h : ∀ a, a ∈ l ↔ a ∈ m := h
  refine Ascending.ext (?_ : l = m)
  induction l generalizing m with
  | nil => exact (List.eq_nil_iff_forall_not_mem.mpr fun a ha => by simpa using (h a).mpr ha).symm
  | cons a l ih =>
    cases m with
    | nil => exact absurd ((h a).mp List.mem_cons_self) List.not_mem_nil
    | cons b m =>
      obtain ⟨belowA, tailL⟩ := List.pairwise_cons.mp hl
      obtain ⟨belowB, tailM⟩ := List.pairwise_cons.mp hm
      have irrefl (c : α) : compare (key c) (key c) ≠ .lt := by simp
      -- were the heads different, each would come after the other
      have hab : a = b := by
        rcases List.mem_cons.mp ((h a).mp List.mem_cons_self) with rfl | ha
        · rfl
        rcases List.mem_cons.mp ((h b).mpr List.mem_cons_self) with rfl | hb
        · rfl
        exact absurd (Std.TransCmp.lt_trans (belowA b hb) (belowB a ha)) (irrefl a)
      subst hab
      rw [ih tailL m tailM fun x => ?_]
      have hx := h x
      simp only [List.mem_cons] at hx
      constructor
      · intro hm
        exact (hx.mp (.inr hm)).resolve_left fun e => irrefl a (e ▸ belowA x hm)
      · intro hm
        exact (hx.mpr (.inr hm)).resolve_left fun e => irrefl a (e ▸ belowB x hm)

/-- A member after inserting a list was one before, or is in the list. -/
theorem mem_of_mem_foldl_insert {l : List α} {s : Ascending key} {x : α}
    (h : x ∈ l.foldl insert s) : x ∈ s ∨ x ∈ l := by
  induction l generalizing s with
  | nil => exact .inl h
  | cons a rest ih =>
    rcases ih h with hs | hrest
    · rcases mem_insert.mp hs with rfl | ⟨hs, -⟩
      · exact .inr List.mem_cons_self
      · exact .inl hs
    · exact .inr (List.mem_cons_of_mem _ hrest)

/-- Every key of the set and of the list is found after inserting the list. -/
theorem exists_mem_foldl_insert {l : List α} {s : Ascending key} {x : α} (h : x ∈ s ∨ x ∈ l) :
    ∃ y ∈ l.foldl insert s, compare (key y) (key x) = .eq := by
  induction l generalizing s x with
  | nil => exact ⟨x, h.resolve_right List.not_mem_nil, Std.ReflCmp.compare_self⟩
  | cons a rest ih =>
    by_cases hkey : compare (key x) (key a) = .eq
    · -- the inserted element takes the place of `x`
      obtain ⟨y, hy, heq⟩ := ih (s := s.insert a) (.inl (mem_insert.mpr (.inl rfl)))
      exact ⟨y, hy, Std.TransCmp.eq_trans heq (Std.OrientedCmp.eq_symm hkey)⟩
    · rcases h with hs | hl
      · exact ih (.inl (mem_insert.mpr (.inr ⟨hs, hkey⟩)))
      · rcases List.mem_cons.mp hl with rfl | hrest
        · exact absurd Std.ReflCmp.compare_self hkey
        · exact ih (.inr hrest)

/-- Inserting the members of a set one after the other gives the set. -/
theorem ofList_toList (s : Ascending key) : ofList s.toList = s := by
  refine ext_mem fun x => ⟨fun hx => ?_, fun hx => ?_⟩
  · exact (mem_of_mem_foldl_insert hx).resolve_left (not_mem_empty x)
  · obtain ⟨y, hy, hkey⟩ := exists_mem_foldl_insert (s := (empty : Ascending key)) (.inr hx)
    have hmem : y ∈ s := (mem_of_mem_foldl_insert hy).resolve_left (not_mem_empty y)
    exact eq_of_compare_eq hmem hx hkey ▸ hy

end Order

end Ascending

end LinearRefutation
