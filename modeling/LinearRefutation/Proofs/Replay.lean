import LinearRefutation.Proofs.Except
import LinearRefutation.Proofs.Sums

/-!
# Replaying certificates and derivations

A certificate can be replayed exactly when it fits the hypotheses, and its replay is their total
with the listed multiplicities (`Certificate.replay_eq_ok_iff`). A derivation has a value, found by
following its sums and multiples. If it is proper, its multipliers make up a certificate that fits
and whose replay is that value (`Derivation.Proper.replay`): the certificate forgets the shape of
the derivation, not what it derives.
-/

namespace LinearRefutation

open Finset

variable {hypotheses : List Comparison}

/-! ## Certificates -/

namespace Certificate

/-- How often a certificate takes a hypothesis. -/
def multiplicity (cert : Certificate) (i : Nat) : Nat := IndexMap.getD cert.multipliers i 0

/-- A certificate fits hypotheses when it lists only hypotheses that exist, each at least once. -/
def Fits (cert : Certificate) (hypotheses : List Comparison) : Prop :=
  ∀ entry ∈ cert.multipliers, entry.1 < hypotheses.length ∧ 0 < entry.2

/-- One multiple is added when the hypothesis exists and the multiplicity is positive. -/
theorem addMultiple_eq_ok_iff (hypotheses : List Comparison) (sum : Comparison) (entry : Nat × Nat)
    (c : Comparison) :
    addMultiple hypotheses sum entry = .ok c ↔
      (entry.1 < hypotheses.length ∧ 0 < entry.2) ∧
        c = sum + entry.2 • hypotheses.getD entry.1 0 := by
  unfold addMultiple
  by_cases hzero : entry.2 = 0
  · simp [hzero]
  · rw [if_neg hzero]
    by_cases hlt : entry.1 < hypotheses.length
    · rw [List.getElem?_eq_getElem hlt, List.getD_eq_getElem _ _ hlt]
      show (do return sum + (← (hypotheses[entry.1]).scale entry.2)) = Except.ok c ↔ _
      rw [Comparison.scale_eq hzero]
      show Except.ok (sum + entry.2 • hypotheses[entry.1]) = .ok c ↔ _
      rw [Except.ok.injEq, eq_comm]
      simp [hlt, Nat.pos_of_ne_zero hzero]
    · rw [List.getElem?_eq_none (Nat.le_of_not_lt hlt)]
      simp [hlt]

/-- A replay succeeds exactly for a certificate that fits, and gives the total. -/
theorem replay_eq_ok_iff {cert : Certificate} {c : Comparison} :
    cert.replay hypotheses = .ok c ↔
      cert.Fits hypotheses ∧ c = total hypotheses cert.multiplicity := by
  refine (foldlM_add_eq_ok_iff (addMultiple_eq_ok_iff hypotheses)).trans ?_
  rw [sum_entries_eq_total]
  show _ ∧ c = 0 + total hypotheses cert.multiplicity ↔ _
  rw [zero_add]
  rfl

/-- A certificate verifies exactly if it fits and the total is `0 < 0`. -/
theorem verify_iff {cert : Certificate} :
    cert.verify hypotheses ↔
      cert.Fits hypotheses ∧ (total hypotheses cert.multiplicity).isContradiction := by
  unfold verify
  cases hreplay : cert.replay hypotheses with
  | ok c =>
    obtain ⟨hfits, rfl⟩ := replay_eq_ok_iff.mp hreplay
    simp [hfits]
  | error fault =>
    apply iff_of_false Bool.false_ne_true
    rintro ⟨hfits, -⟩
    rw [replay_eq_ok_iff.mpr ⟨hfits, rfl⟩] at hreplay
    exact nomatch hreplay

end Certificate

/-! ## Derivations -/

namespace Derivation

/-- The comparison that a derivation derives. -/
def value (hypotheses : List Comparison) : Derivation → Comparison
  | .hypothesis index => hypotheses.getD index 0
  | .sum left right => left.value hypotheses + right.value hypotheses
  | .multiple factor of => factor • of.value hypotheses

/-- A proper derivation uses only hypotheses that exist and never multiplies by zero. -/
def Proper (hypotheses : List Comparison) : Derivation → Prop
  | .hypothesis index => index < hypotheses.length
  | .sum left right => left.Proper hypotheses ∧ right.Proper hypotheses
  | .multiple factor of => factor ≠ 0 ∧ of.Proper hypotheses

/-- How often a derivation uses a hypothesis. -/
def multiplicity (d : Derivation) (i : Nat) : Nat := IndexMap.getD d.multipliers i 0

theorem getD_foldl_addMultiplier (entries : List (Nat × Nat)) (counts : IndexMap Nat) (i : Nat) :
    IndexMap.getD (entries.foldl addMultiplier counts) i 0 = IndexMap.getD counts i 0 +
      (entries.map fun entry => if entry.1 = i then entry.2 else 0).sum := by
  induction entries generalizing counts with
  | nil => rfl
  | cons entry rest ih =>
    rw [List.foldl_cons, ih, addMultiplier, IndexMap.getD_alter, List.map_cons, List.sum_cons]
    split <;> omega

theorem multiplicity_hypothesis (index i : Nat) :
    (hypothesis index).multiplicity i = if index = i then 1 else 0 := by
  show IndexMap.getD (Ascending.insert Ascending.empty (index, 1)) i 0 = _
  rw [IndexMap.getD_insert]
  rfl

theorem multiplicity_sum (left right : Derivation) (i : Nat) :
    (sum left right).multiplicity i = left.multiplicity i + right.multiplicity i := by
  show IndexMap.getD (right.multipliers.toList.foldl addMultiplier left.multipliers) i 0 = _
  rw [getD_foldl_addMultiplier, IndexMap.sum_entries_at]
  rfl

theorem multiplicity_multiple (factor i : Nat) (d : Derivation) :
    (multiple factor d).multiplicity i = d.multiplicity i * factor := by
  show IndexMap.getD (IndexMap.mapValues (· * factor) d.multipliers) i 0 = _
  unfold multiplicity IndexMap.getD
  rw [IndexMap.get?_mapValues]
  cases IndexMap.get? d.multipliers i <;> simp

/-- The value of a derivation is the total of the hypotheses as often as it uses them. -/
theorem Proper.value_eq_total {d : Derivation} (h : d.Proper hypotheses) :
    d.value hypotheses = total hypotheses d.multiplicity := by
  -- along the tree: the total is additive in the multiplicities
  induction d with
  | hypothesis index =>
    rw [funext (multiplicity_hypothesis index), total_single h]
    rfl
  | sum left right ihl ihr =>
    rw [funext (multiplicity_sum left right), total_add, ← ihl h.1, ← ihr h.2]
    rfl
  | multiple factor d ih =>
    rw [funext fun i => multiplicity_multiple factor i d, total_mul, ← ih h.2]
    rfl

/-- A proper derivation uses no hypothesis that does not exist. -/
theorem Proper.lt_length {d : Derivation} (h : d.Proper hypotheses) {i : Nat}
    (hi : d.multiplicity i ≠ 0) : i < hypotheses.length := by
  induction d with
  | hypothesis index =>
    rw [multiplicity_hypothesis] at hi
    by_cases heq : index = i
    · exact heq ▸ h
    · exact absurd (if_neg heq) hi
  | sum left right ihl ihr =>
    rw [multiplicity_sum] at hi
    by_cases hl : left.multiplicity i = 0
    · exact ihr h.2 (by omega)
    · exact ihl h.1 hl
  | multiple factor d ih =>
    rw [multiplicity_multiple] at hi
    exact ih h.2 (left_ne_zero_of_mul hi)

/-- Further uses leave no count at zero. -/
theorem ne_zero_of_mem_foldl {entries : List (Nat × Nat)} {counts : IndexMap Nat}
    (hentries : ∀ entry ∈ entries, entry.2 ≠ 0) (hcounts : ∀ entry ∈ counts, entry.2 ≠ 0) :
    ∀ entry ∈ entries.foldl addMultiplier counts, entry.2 ≠ 0 := by
  induction entries generalizing counts with
  | nil => exact hcounts
  | cons first rest ih =>
    obtain ⟨hfirst, hrest⟩ := List.forall_mem_cons.mp hentries
    refine ih hrest fun entry hentry => ?_
    rcases Ascending.mem_insert.mp hentry with rfl | ⟨hold, -⟩
    · show IndexMap.getD counts first.1 0 + first.2 ≠ 0
      omega
    · exact hcounts entry hold

/-- A proper derivation counts no hypothesis zero times. -/
theorem Proper.multiplier_ne_zero {d : Derivation} (h : d.Proper hypotheses) :
    ∀ entry ∈ d.multipliers, entry.2 ≠ 0 := by
  induction d with
  | hypothesis index =>
    intro entry hentry
    rw [Ascending.mem_singleton.mp hentry]
    exact one_ne_zero
  | sum left right ihl ihr => exact ne_zero_of_mem_foldl (ihr h.2) (ihl h.1)
  | multiple factor d ih =>
    intro entry hentry
    obtain ⟨count, hcount, heq⟩ := IndexMap.mem_mapValues.mp hentry
    rw [← heq]
    exact mul_ne_zero (ih h.2 _ hcount) h.1

/-- The certificate that lists what a derivation uses. -/
def certificate (d : Derivation) : Certificate := .ofMultipliers d.multipliers

theorem multiplicity_certificate (d : Derivation) :
    d.certificate.multiplicity = d.multiplicity := by
  funext i
  exact IndexMap.getD_without d.multipliers i 0

theorem Proper.fits {d : Derivation} (h : d.Proper hypotheses) :
    d.certificate.Fits hypotheses := by
  intro entry hentry
  obtain ⟨hmem, hne⟩ := IndexMap.mem_without.mp hentry
  have hvalue : d.multiplicity entry.1 = entry.2 := IndexMap.getD_eq_of_mem hmem 0
  exact ⟨h.lt_length (hvalue ▸ hne), Nat.pos_of_ne_zero hne⟩

/-- The certificate of a proper derivation lists its multipliers as they are. -/
theorem Proper.certificate_eq {d : Derivation} (h : d.Proper hypotheses) :
    d.certificate = ⟨d.multipliers⟩ := by
  refine Certificate.ext (IndexMap.ext_getD 0 (fun entry hentry => ?_) h.multiplier_ne_zero ?_)
  · exact (IndexMap.mem_without.mp hentry).2
  · exact fun i => IndexMap.getD_without d.multipliers i 0

/-- Replaying the certificate of a proper derivation gives its value. -/
theorem Proper.replay {d : Derivation} (h : d.Proper hypotheses) :
    d.certificate.replay hypotheses = .ok (d.value hypotheses) := by
  rw [Certificate.replay_eq_ok_iff, multiplicity_certificate]
  exact ⟨h.fits, h.value_eq_total⟩

end Derivation

end LinearRefutation
