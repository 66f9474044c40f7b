import LinearRefutation.Proofs.Replay

/-!
# Derivations and their multipliers

The multipliers of a derivation are computed bottom-up, by merging maps and multiplying their values
in place. What they come to is described from the places where a derivation uses hypotheses: a
hypothesis has an entry exactly if it is used somewhere, and its value adds up, over these places,
the products of the factors above them (`Derivation.multiplicity_eq_uses`). A multiple by zero is no
exception; it leaves entries that are zero.

A derivation can also be evaluated with the sums and multiples of comparisons, which fails for
hypotheses that do not exist and for multiples by zero only. Otherwise replaying the certificate
with the same multipliers gives the same comparison (`Derivation.multipliers_denote`), although the
certificate adds up the hypotheses in another order and does not know the comparators that were
joined on the way.
-/

namespace LinearRefutation

namespace Derivation

/-! ## Places -/

/-- A place in a derivation where a hypothesis is used, with the factors of the multiples that the
place is in, outermost first. -/
structure Place where
  index : Nat
  factors : List Nat
deriving DecidableEq, Repr

/-- The place in a multiple of the derivation that it is a place in. -/
def Place.within (factor : Nat) (place : Place) : Place :=
  { place with factors := factor :: place.factors }

/-- The places where a derivation uses hypotheses, from left to right. -/
def places : Derivation → List Place
  | .hypothesis index => [⟨index, []⟩]
  | .sum left right => left.places ++ right.places
  | .multiple factor of => of.places.map (Place.within factor)

/-- The sum, over the places where a hypothesis is used, of the products of the factors. -/
def uses (d : Derivation) (i : Nat) : Nat :=
  ((d.places.filter fun place => place.index = i).map fun place => place.factors.prod).sum

theorem places_ne_nil (d : Derivation) : d.places ≠ [] := by
  induction d with
  | hypothesis index => exact List.cons_ne_nil _ _
  | sum left right ihl _ => exact List.append_ne_nil_of_left_ne_nil ihl _
  | multiple factor d ih => exact fun h => ih (List.map_eq_nil_iff.mp h)

/-- Counting further uses adds the indices counted. -/
theorem mem_keys_foldl_addMultiplier {entries : List (Nat × Nat)} {counts : IndexMap Nat} {i : Nat} :
    i ∈ IndexMap.keys (entries.foldl addMultiplier counts) ↔
      i ∈ IndexMap.keys counts ∨ ∃ entry ∈ entries, entry.1 = i := by
  induction entries generalizing counts with
  | nil => simp
  | cons first rest ih =>
    rw [List.foldl_cons, ih, addMultiplier, IndexMap.mem_keys_alter, List.exists_mem_cons_iff, or_assoc,
      or_left_comm]

/-- A hypothesis has a multiplier if it is used somewhere, be it zero times. -/
theorem mem_keys_multipliers {d : Derivation} {i : Nat} :
    i ∈ IndexMap.keys d.multipliers ↔ ∃ place ∈ d.places, place.index = i := by
  induction d with
  | hypothesis index =>
    rw [IndexMap.mem_keys]
    simp [multipliers, places, eq_comm]
  | sum left right ihl ihr =>
    have hright : (∃ entry ∈ right.multipliers.toList, entry.1 = i) ↔
        i ∈ IndexMap.keys right.multipliers := List.mem_map.symm
    show i ∈ IndexMap.keys (right.multipliers.toList.foldl addMultiplier left.multipliers) ↔
      ∃ place ∈ left.places ++ right.places, place.index = i
    rw [mem_keys_foldl_addMultiplier, hright, ihl, ihr]
    simp only [List.mem_append, or_and_right, exists_or]
  | multiple factor d ih =>
    show i ∈ IndexMap.keys (IndexMap.mapValues (· * factor) d.multipliers) ↔
      ∃ place ∈ d.places.map (Place.within factor), place.index = i
    rw [IndexMap.mem_keys_mapValues, ih]
    simp only [List.mem_map, exists_exists_and_eq_and]
    rfl

/-- The multiplicity of a hypothesis adds up the products of the factors above its places. -/
theorem multiplicity_eq_uses (d : Derivation) (i : Nat) : d.multiplicity i = d.uses i := by
  induction d with
  | hypothesis index =>
    rw [multiplicity_hypothesis]
    by_cases h : index = i
    · simp [uses, places, h]
    · simp [uses, places, h]
  | sum left right ihl ihr =>
    rw [multiplicity_sum, ihl, ihr]
    simp only [uses, places, List.filter_append, List.map_append, List.sum_append]
  | multiple factor d ih =>
    rw [multiplicity_multiple, ih, mul_comm]
    simp only [uses, places, List.filter_map, List.map_map]
    rw [← List.sum_map_mul_left]
    congr 2

/-! ## Evaluation -/

/-- The comparison that a derivation derives, computed with the sums and multiples of
comparisons. -/
def evaluate (hypotheses : List Comparison) : Derivation → Except Fault Comparison
  | .hypothesis index =>
    match hypotheses[index]? with
    | some c => .ok c
    | none => .error (.badCertificate (.outOfRange index hypotheses.length))
  | .sum left right => do return (← left.evaluate hypotheses).add (← right.evaluate hypotheses)
  | .multiple factor of => do (← of.evaluate hypotheses).scale factor

variable {hypotheses : List Comparison} {d : Derivation} {c : Comparison}

/-- Proper derivations can be evaluated, and no others. -/
theorem evaluate_eq_ok_iff :
    d.evaluate hypotheses = .ok c ↔ d.Proper hypotheses ∧ c = d.value hypotheses := by
  induction d generalizing c with
  | hypothesis index =>
    unfold evaluate Proper value
    by_cases hlt : index < hypotheses.length
    · rw [List.getElem?_eq_getElem hlt, List.getD_eq_getElem _ _ hlt, Except.ok.injEq]
      simp [hlt, eq_comm]
    · rw [List.getElem?_eq_none (not_lt.mp hlt)]
      simp [hlt]
  | sum left right ihl ihr =>
    unfold evaluate Proper value
    simp only [bind_eq_ok_iff, ihl, ihr]
    constructor
    · rintro ⟨a, ⟨hl, rfl⟩, b, ⟨hr, rfl⟩, hsum⟩
      exact ⟨⟨hl, hr⟩, (Except.ok.inj hsum).symm⟩
    · rintro ⟨⟨hl, hr⟩, rfl⟩
      exact ⟨_, ⟨hl, rfl⟩, _, ⟨hr, rfl⟩, rfl⟩
  | multiple factor d ih =>
    unfold evaluate Proper value
    simp only [bind_eq_ok_iff, ih, Comparison.scale_eq_ok_iff]
    constructor
    · rintro ⟨a, ⟨hproper, rfl⟩, hne, rfl⟩
      exact ⟨⟨hne, hproper⟩, rfl⟩
    · rintro ⟨⟨hne, hproper⟩, rfl⟩
      exact ⟨_, ⟨hproper, rfl⟩, hne, rfl⟩

/-- A derivation is proper if the hypotheses exist at all of its places and no factor there is
zero. -/
theorem proper_iff_places :
    d.Proper hypotheses ↔ ∀ place ∈ d.places, place.index < hypotheses.length ∧ 0 ∉ place.factors := by
  induction d with
  | hypothesis index => simp [Proper, places]
  | sum left right ihl ihr =>
    unfold Proper places
    rw [ihl, ihr, List.forall_mem_append]
  | multiple factor d ih =>
    unfold Proper places
    rw [ih, List.forall_mem_map]
    constructor
    · rintro ⟨hne, hplaces⟩ place hplace
      obtain ⟨hlt, hfactors⟩ := hplaces place hplace
      exact ⟨hlt, List.not_mem_cons_of_ne_of_not_mem hne.symm hfactors⟩
    · intro h
      -- a derivation has places, and each of them is below the factor
      obtain ⟨place, hplace⟩ := List.exists_mem_of_ne_nil _ d.places_ne_nil
      refine ⟨fun hzero => (h place hplace).2 (hzero ▸ List.mem_cons_self), fun place hplace => ?_⟩
      obtain ⟨hlt, hfactors⟩ := h place hplace
      exact ⟨hlt, fun hmem => hfactors (List.mem_cons_of_mem _ hmem)⟩

/-- The multipliers of a derivation, whatever its shape and factors, have an entry for exactly the
hypotheses at its places, and the value of a hypothesis is the sum over its places of the products
of the factors above. If these hypotheses exist and no factor is zero, the derivation can be
evaluated with the sums and multiples of comparisons, and gives the comparison that the certificate
with these multipliers is replayed to. -/
theorem multipliers_denote (d : Derivation) :
    (∀ i, i ∈ IndexMap.keys d.multipliers ↔ ∃ place ∈ d.places, place.index = i) ∧
      (∀ i, IndexMap.getD d.multipliers i 0 =
        ((d.places.filter fun place => place.index = i).map fun place => place.factors.prod).sum) ∧
        ∀ hypotheses : List Comparison,
          (∀ place ∈ d.places, place.index < hypotheses.length ∧ 0 ∉ place.factors) →
            ∃ c, d.evaluate hypotheses = .ok c ∧
              (Certificate.ofMultipliers d.multipliers).replay hypotheses = .ok c := by
  refine ⟨fun i => mem_keys_multipliers, d.multiplicity_eq_uses, fun hypotheses hplaces => ?_⟩
  have hproper := proper_iff_places.mpr hplaces
  exact ⟨d.value hypotheses, evaluate_eq_ok_iff.mpr ⟨hproper, rfl⟩, hproper.replay⟩

/-- In `2·(h₁ + 3·h₀) + h₁` the hypothesis `h₁` is used at two places, three times in all.
Evaluation and replay take the hypotheses in different orders and give the same comparison. -/
theorem multipliers_denote_shared :
    let d : Derivation := .sum
      (.multiple 2 (.sum (.hypothesis 1) (.multiple 3 (.hypothesis 0)))) (.hypothesis 1)
    let hypotheses : List Comparison := [⟨.eq, .ofTerms [(0, 1)]⟩, ⟨.lt, .ofTerms [(0, -2), (1, 1)]⟩]
    d.places = [⟨1, [2]⟩, ⟨0, [2, 3]⟩, ⟨1, []⟩] ∧ IndexMap.getD d.multipliers 1 0 = 3 ∧
      ∃ c, c = ⟨.lt, .ofTerms [(1, 3)]⟩ ∧ d.evaluate hypotheses = .ok c ∧
        (Certificate.ofMultipliers d.multipliers).replay hypotheses = .ok c := by
  intro d hypotheses
  obtain ⟨-, hvalue, hevaluate⟩ := multipliers_denote d
  obtain ⟨c, hc, hreplay⟩ := hevaluate hypotheses (by decide)
  have hresult : d.evaluate hypotheses = .ok ⟨.lt, .ofTerms [(1, 3)]⟩ := by rfl
  exact ⟨rfl, hvalue 1, c, Except.ok.inj (hc.symm.trans hresult), hc, hreplay⟩

end Derivation

end LinearRefutation
