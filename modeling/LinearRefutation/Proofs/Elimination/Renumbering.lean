import LinearRefutation.Proofs.Elimination.Relabelling
import LinearRefutation.Proofs.Elimination.Tracing

/-!
# Renumbering hypotheses

The numbers of hypotheses occur in derivations and in histories, and nowhere else in a fact. An
injective renumbering keeps the length of every history, so elimination does not notice it
(`Relabelling.renumbering`). A renumbered derivation uses a hypothesis under its new number as often
as the derivation does under the old one (`Derivation.multiplicity_renumber`).
-/

namespace LinearRefutation

/-! ## Sets of indices -/

namespace IndexSet

/-- The indices that others are renumbered to. -/
def image (σ : Nat → Nat) (s : IndexSet) : IndexSet := Ascending.ofList (s.toList.map σ)

variable {σ : Nat → Nat} {s t : IndexSet} {i : Nat}

theorem mem_image : i ∈ s.image σ ↔ ∃ j ∈ s, σ j = i := by
  have hlist : i ∈ s.image σ ↔ i ∈ (Ascending.empty : IndexSet) ∨ i ∈ s.toList.map σ :=
    mem_foldl_insert
  rw [hlist, List.mem_map]
  simp only [Ascending.not_mem_empty, false_or, Ascending.mem_toList]

theorem image_union : (s ∪ t).image σ = s.image σ ∪ t.image σ := by
  refine Ascending.ext_mem fun i => ?_
  simp only [mem_image, mem_union, or_and_right, exists_or]

/-- An injective renumbering keeps the size of a set. -/
theorem size_image (hσ : Function.Injective σ) (s : IndexSet) : (s.image σ).size = s.size := by
  have himage : (s.image σ).toFinset = s.toFinset.image σ := by
    ext i
    simp only [mem_toFinset, mem_image, Finset.mem_image]
  rw [← card_toFinset, himage, Finset.card_image_of_injective _ hσ, card_toFinset]

/-- A renumbering of some indices that keeps them apart extends to an injective one of all: the
others go beyond its bound. -/
theorem exists_injective_of_partial {To : Nat → Nat → Prop} {bound : Nat}
    (functional : ∀ i j j', To i j → To i j' → j = j')
    (injective : ∀ i i' j, To i j → To i' j → i = i') (below : ∀ i j, To i j → j < bound) :
    ∃ σ : Nat → Nat, Function.Injective σ ∧ ∀ {i j}, To i j → σ i = j := by
  classical
  let σ (i : Nat) : Nat := if h : ∃ j, To i j then h.choose else i + bound
  have hto {i j : Nat} (h : To i j) : σ i = j := by
    have hex : ∃ j, To i j := ⟨j, h⟩
    have heq : σ i = hex.choose := dif_pos hex
    exact heq.trans (functional i _ _ hex.choose_spec h)
  have hbeyond {i : Nat} (h : ¬ ∃ j, To i j) : σ i = i + bound := dif_neg h
  -- targets stay below `bound`, and the other indices are moved above it
  refine ⟨σ, fun i i' heq => ?_, hto⟩
  by_cases hi : ∃ j, To i j <;> by_cases hi' : ∃ j, To i' j
  · obtain ⟨j, hi⟩ := hi
    obtain ⟨j', hi'⟩ := hi'
    rw [hto hi, hto hi'] at heq
    exact injective i i' j hi (heq ▸ hi')
  · obtain ⟨j, hi⟩ := hi
    have hlt := below i j hi
    rw [hto hi, hbeyond hi'] at heq
    omega
  · obtain ⟨j', hi'⟩ := hi'
    have hlt := below i' j' hi'
    rw [hbeyond hi, hto hi'] at heq
    omega
  · rw [hbeyond hi, hbeyond hi'] at heq
    omega

end IndexSet

/-! ## Derivations -/

namespace Derivation

/-- The derivation with its hypotheses renumbered. -/
def renumber (σ : Nat → Nat) : Derivation → Derivation
  | .hypothesis index => .hypothesis (σ index)
  | .sum left right => .sum (left.renumber σ) (right.renumber σ)
  | .multiple factor of => .multiple factor (of.renumber σ)

/-- A renumbered derivation uses each hypothesis as often as before. -/
theorem multiplicity_renumber {σ : Nat → Nat} (hσ : Function.Injective σ) (d : Derivation) (i : Nat) :
    (d.renumber σ).multiplicity (σ i) = d.multiplicity i := by
  induction d with
  | hypothesis index =>
    show (hypothesis (σ index)).multiplicity (σ i) = _
    rw [multiplicity_hypothesis, multiplicity_hypothesis]
    simp only [hσ.eq_iff]
  | sum left right ihl ihr =>
    show (sum (left.renumber σ) (right.renumber σ)).multiplicity (σ i) = _
    rw [multiplicity_sum, multiplicity_sum, ihl, ihr]
  | multiple factor d ih =>
    show (multiple factor (d.renumber σ)).multiplicity (σ i) = _
    rw [multiplicity_multiple, multiplicity_multiple, ih]

end Derivation

/-! ## Facts -/

namespace Fact

/-- The fact with its hypotheses renumbered. -/
def renumber (σ : Nat → Nat) (p : Fact) : Fact :=
  { p with derivation := p.derivation.renumber σ, history := p.history.image σ }

variable (σ : Nat → Nat) (p q : Fact) (var : Nat)

theorem renumber_add : (p.add q var).renumber σ = (p.renumber σ).add (q.renumber σ) var := by
  have hhistory : (p.history ∪ q.history).image σ = p.history.image σ ∪ q.history.image σ :=
    IndexSet.image_union
  simp only [renumber, add, hhistory, Derivation.renumber]

theorem renumber_combined? :
    (p.renumber σ).combined? (q.renumber σ) var = (p.combined? q var).map (renumber σ) := by
  unfold combined?
  rw [Option.map_map]
  congr 1
  funext factors
  exact (renumber_add σ (p.times factors.1) (q.times factors.2) var).symm

end Fact

/-- Elimination does not notice an injective renumbering of the hypotheses. -/
def Relabelling.renumbering (σ : Nat → Nat) (hσ : Function.Injective σ) : Relabelling where
  apply := Fact.renumber σ
  comparison _ := rfl
  size_history p := IndexSet.size_image hσ p.history
  mayBeMinimal p var := by
    have hsize : (p.renumber σ).history.size = p.history.size := IndexSet.size_image hσ p.history
    unfold Fact.mayBeMinimal
    rw [hsize]
    rfl
  combined? := Fact.renumber_combined? σ

end LinearRefutation
