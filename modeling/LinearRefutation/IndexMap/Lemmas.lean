import LinearRefutation.Ascending.Lemmas
import LinearRefutation.IndexMap

/-!
# Entries of index maps

`get?` and `getD` after each operation on index maps. Maps none of whose entries holds the default
are equal when they have the same values (`ext_getD`).
-/

namespace LinearRefutation

universe u v

namespace IndexMap

variable {β : Type u} {γ : Type v}

/-- An entry is found under its index. -/
theorem get?_eq_some_iff {m : IndexMap β} {i : Nat} {b : β} : get? m i = some b ↔ (i, b) ∈ m := by
  simp only [get?, Option.map_eq_some_iff, Ascending.find?_eq_some_iff, Std.compare_eq_iff_eq]
  constructor
  · rintro ⟨a, ⟨h, rfl⟩, rfl⟩
    exact h
  · exact fun h => ⟨_, ⟨h, rfl⟩, rfl⟩

/-- Only an index with an entry is found. -/
theorem get?_eq_none_iff {m : IndexMap β} {i : Nat} : get? m i = none ↔ ∀ b, (i, b) ∉ m := by
  rw [Option.eq_none_iff_forall_ne_some]
  simp only [ne_eq, get?_eq_some_iff]

/-- Look-up after insertion. -/
theorem get?_insert (m : IndexMap β) (entry : Nat × β) (i : Nat) :
    get? (m.insert entry) i = if entry.1 = i then some entry.2 else get? m i := by
  simp only [get?, Ascending.find?_insert, Std.compare_eq_iff_eq]
  split <;> rfl

/-- Look-up after removal. -/
theorem get?_erase (m : IndexMap β) (i j : Nat) :
    get? (m.erase i) j = if i = j then none else get? m j := by
  simp only [get?, Ascending.find?_erase, Std.compare_eq_iff_eq]
  split <;> rfl

/-- The entries after a change of all values. -/
theorem mem_mapValues {f : β → γ} {m : IndexMap β} {entry : Nat × γ} :
    entry ∈ mapValues f m ↔ ∃ b, (entry.1, b) ∈ m ∧ f b = entry.2 := by
  constructor
  · intro h
    obtain ⟨⟨j, b⟩, hb, rfl⟩ := List.mem_map.mp h
    exact ⟨b, hb, rfl⟩
  · rintro ⟨b, hb, heq⟩
    exact List.mem_map.mpr ⟨(entry.1, b), hb, Prod.ext rfl heq⟩

/-- Look-up after a change of all values. -/
theorem get?_mapValues (f : β → γ) (m : IndexMap β) (i : Nat) :
    get? (mapValues f m) i = (get? m i).map f := by
  ext c
  simp only [get?_eq_some_iff, Option.map_eq_some_iff, mem_mapValues]

/-- The indices of the entries. -/
theorem mem_keys {m : IndexMap β} {i : Nat} : i ∈ keys m ↔ ∃ b, (i, b) ∈ m := by
  constructor
  · intro h
    obtain ⟨⟨j, b⟩, hb, rfl⟩ := List.mem_map.mp h
    exact ⟨b, hb⟩
  · rintro ⟨b, hb⟩
    exact List.mem_map.mpr ⟨(i, b), hb, rfl⟩

theorem mem_keys_iff_isSome {m : IndexMap β} {i : Nat} : i ∈ keys m ↔ (get? m i).isSome := by
  rw [mem_keys, Option.isSome_iff_exists]
  simp only [get?_eq_some_iff]

/-- A change of the value at an index adds the index. -/
theorem mem_keys_alter {m : IndexMap β} {i j : Nat} {d : β} {f : β → β} :
    i ∈ keys (alter m j d f) ↔ j = i ∨ i ∈ keys m := by
  rw [mem_keys_iff_isSome, mem_keys_iff_isSome, alter, get?_insert]
  by_cases h : j = i
  · simp [h]
  · simp [h]

theorem mem_keys_mapValues {m : IndexMap β} {i : Nat} {f : β → γ} :
    i ∈ keys (mapValues f m) ↔ i ∈ keys m := by
  rw [mem_keys_iff_isSome, mem_keys_iff_isSome, get?_mapValues, Option.isSome_map]

/-- The value after insertion. -/
theorem getD_insert (m : IndexMap β) (entry : Nat × β) (i : Nat) (d : β) :
    getD (m.insert entry) i d = if entry.1 = i then entry.2 else getD m i d := by
  rw [getD, get?_insert]
  split <;> rfl

/-- The value after removal. -/
theorem getD_erase (m : IndexMap β) (i j : Nat) (d : β) :
    getD (m.erase i) j d = if i = j then d else getD m j d := by
  rw [getD, get?_erase]
  split <;> rfl

/-- The value after a change of one entry. -/
theorem getD_alter (m : IndexMap β) (i j : Nat) (d : β) (f : β → β) :
    getD (alter m i d f) j d = if i = j then f (getD m j d) else getD m j d := by
  rw [alter, getD_insert]
  split
  next h => rw [← h]
  next => rfl

/-- A value other than the default is that of an entry. -/
theorem mem_of_getD_ne {m : IndexMap β} {i : Nat} {d : β} (h : getD m i d ≠ d) :
    (i, getD m i d) ∈ m := by
  rw [← get?_eq_some_iff]
  cases hg : get? m i with
  | none => exact absurd (by simp [getD, hg]) h
  | some b => simp [getD, hg]

/-- The value of an entry. -/
theorem getD_eq_of_mem {m : IndexMap β} {i : Nat} {b : β} (h : (i, b) ∈ m) (d : β) :
    getD m i d = b := by
  simp [getD, get?_eq_some_iff.mpr h]

/-- Maps with the same values everywhere are equal if no entry holds the default. -/
theorem ext_getD {m n : IndexMap β} (d : β) (hm : ∀ entry ∈ m, entry.2 ≠ d)
    (hn : ∀ entry ∈ n, entry.2 ≠ d) (h : ∀ i, getD m i d = getD n i d) : m = n := by
  refine Ascending.ext_mem fun (i, b) => ⟨fun hb => ?_, fun hb => ?_⟩
  · have hi : getD n i d = b := by rw [← h, getD_eq_of_mem hb]
    have : getD n i d ≠ d := by rw [hi]; exact hm _ hb
    exact hi ▸ mem_of_getD_ne this
  · have hi : getD m i d = b := by rw [h, getD_eq_of_mem hb]
    have : getD m i d ≠ d := by rw [hi]; exact hn _ hb
    exact hi ▸ mem_of_getD_ne this

/-- What is left without a value are the entries that hold another one. -/
theorem mem_without [DecidableEq β] {m : IndexMap β} {entry : Nat × β} {d : β} :
    entry ∈ without m d ↔ entry ∈ m ∧ entry.2 ≠ d := by
  rw [without, Ascending.mem_filter, decide_eq_true_iff]

/-- Look-up after leaving out the entries that hold a value. -/
theorem get?_without [DecidableEq β] (m : IndexMap β) (i : Nat) (d : β) :
    get? (without m d) i = if getD m i d = d then none else some (getD m i d) := by
  split
  next h =>
    refine get?_eq_none_iff.mpr fun b hb => ?_
    obtain ⟨hb, hne⟩ := mem_without.mp hb
    rw [getD_eq_of_mem hb] at h
    exact hne h
  next h =>
    exact get?_eq_some_iff.mpr (mem_without.mpr ⟨mem_of_getD_ne h, h⟩)

/-- Leaving out entries that hold the default keeps the values. -/
theorem getD_without [DecidableEq β] (m : IndexMap β) (i : Nat) (d : β) :
    getD (without m d) i d = getD m i d := by
  show (get? (without m d) i).getD d = getD m i d
  rw [get?_without]
  split
  next h => exact h.symm
  next => rfl

end IndexMap

end LinearRefutation
