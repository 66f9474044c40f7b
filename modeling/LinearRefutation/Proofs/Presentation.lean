import LinearRefutation.Proofs.Elimination.Renumbering
import LinearRefutation.Proofs.Refuter

/-!
# The order of the hypotheses

Hypotheses come as a list, but a run depends on the set of comparisons in it only. The facts
searched are the last occurrences of the comparisons (`FactSet.mem_ofHypotheses_iff`), so those of
two lists with the same members differ by a renumbering, which elimination does not notice. Hence
both lists are answered alike: the fault or the kind of verdict is the same, the witnesses state the
same comparison and take corresponding hypotheses equally often, and the statistics grow by the same
amount (`Refuter.sameReports_of_mem_iff`).
-/

namespace LinearRefutation

/-! ## Last occurrences -/

/-- The comparison at an index of a list occurs there for the last time. -/
structure LastAt (hypotheses : List Comparison) (index : Nat) (c : Comparison) : Prop where
  get : hypotheses[index]? = some c
  last : ∀ j, index < j → hypotheses[j]? ≠ some c

section LastAt

variable {hypotheses hypotheses' : List Comparison} {i i' : Nat} {c d : Comparison}

theorem LastAt.mem (h : LastAt hypotheses i c) : c ∈ hypotheses := List.mem_of_getElem? h.get

theorem LastAt.index_unique (h : LastAt hypotheses i c) (h' : LastAt hypotheses i' c) : i = i' :=
  Nat.le_antisymm (Nat.le_of_not_lt fun hlt => h'.last i hlt h.get)
    (Nat.le_of_not_lt fun hlt => h.last i' hlt h'.get)

theorem getElem?_concat_eq_some_iff :
    (hypotheses ++ [d])[i]? = some c ↔ hypotheses[i]? = some c ∨ i = hypotheses.length ∧ c = d := by
  rcases Nat.lt_trichotomy i hypotheses.length with hlt | rfl | hgt
  · rw [List.getElem?_append_left hlt]
    simp only [hlt.ne, false_and, or_false]
  · rw [List.getElem?_concat_length, List.getElem?_eq_none le_rfl]
    simp [eq_comm]
  · have hle : (hypotheses ++ [d]).length ≤ i := by
      rw [List.length_append]
      exact hgt
    rw [List.getElem?_eq_none hle, List.getElem?_eq_none hgt.le]
    simp [hgt.ne']

/-- The last occurrences in a list with one more comparison are this comparison and those of
others. -/
theorem lastAt_concat : LastAt (hypotheses ++ [d]) i c ↔
    i = hypotheses.length ∧ c = d ∨ LastAt hypotheses i c ∧ c ≠ d := by
  have lt_of_get {i : Nat} (h : hypotheses[i]? = some c) : i < hypotheses.length :=
    (List.getElem?_eq_some_iff.mp h).1
  constructor
  · rintro ⟨get, last⟩
    simp only [ne_eq, getElem?_concat_eq_some_iff] at get last
    rcases get with hget | hend
    · refine .inr ⟨⟨hget, fun j hj hc => last j hj (.inl hc)⟩, fun heq => ?_⟩
      exact last _ (lt_of_get hget) (.inr ⟨rfl, heq⟩)
    · exact .inl hend
  · rintro (⟨rfl, rfl⟩ | ⟨h, hne⟩)
    · refine ⟨getElem?_concat_eq_some_iff.mpr (.inr ⟨rfl, rfl⟩), fun j hj hc => ?_⟩
      rcases getElem?_concat_eq_some_iff.mp hc with hc | ⟨rfl, -⟩
      · exact Nat.lt_asymm hj (lt_of_get hc)
      · exact Nat.lt_irrefl _ hj
    · refine ⟨getElem?_concat_eq_some_iff.mpr (.inl h.get), fun j hj hc => ?_⟩
      rcases getElem?_concat_eq_some_iff.mp hc with hc | ⟨-, heq⟩
      · exact h.last j hj hc
      · exact hne heq

/-- The facts of a list of hypotheses are the last occurrences of their comparisons. -/
theorem FactSet.mem_ofHypotheses_iff {p : Fact} :
    p ∈ FactSet.ofHypotheses hypotheses ↔
      ∃ i c, LastAt hypotheses i c ∧ p = Fact.ofHypothesis i c := by
  induction hypotheses using List.reverseRecOn with
  | nil => exact iff_of_false (Ascending.not_mem_empty p) fun ⟨_, _, h, _⟩ => nomatch h.get
  | append_singleton front d ih =>
    have hinsert : FactSet.ofHypotheses (front ++ [d]) =
        (FactSet.ofHypotheses front).insert (Fact.ofHypothesis front.length d) := by
      unfold FactSet.ofHypotheses Ascending.ofList
      rw [List.mapIdx_concat, List.foldl_append]
      rfl
    rw [hinsert, Ascending.mem_insert, ih]
    simp only [lastAt_concat, ne_eq, Std.compare_eq_iff_eq]
    constructor
    · rintro (rfl | ⟨⟨i, c, h, rfl⟩, hne⟩)
      · exact ⟨_, _, .inl ⟨rfl, rfl⟩, rfl⟩
      · exact ⟨i, c, .inr ⟨h, hne⟩, rfl⟩
    · rintro ⟨i, c, ⟨rfl, rfl⟩ | ⟨h, hne⟩, rfl⟩
      · exact .inl rfl
      · exact .inr ⟨⟨i, c, h, rfl⟩, hne⟩

theorem exists_lastAt (h : c ∈ hypotheses) : ∃ i, LastAt hypotheses i c := by
  obtain ⟨p, hp, rfl⟩ := FactSet.states_ofHypotheses h
  obtain ⟨i, d, hlast, rfl⟩ := FactSet.mem_ofHypotheses_iff.mp hp
  exact ⟨i, hlast⟩

/-- The last occurrences in a list can be renumbered to those in another one. -/
theorem exists_injective_lastAt (hypotheses hypotheses' : List Comparison) :
    ∃ σ : Nat → Nat, Function.Injective σ ∧
      ∀ i i' c, LastAt hypotheses i c → LastAt hypotheses' i' c → σ i = i' := by
  let To (i i' : Nat) : Prop := ∃ c, LastAt hypotheses i c ∧ LastAt hypotheses' i' c
  have functional : ∀ i j j', To i j → To i j' → j = j' := by
    rintro i j j' ⟨c, hc, hc'⟩ ⟨d, hd, hd'⟩
    obtain rfl : c = d := Option.some.inj (hc.get.symm.trans hd.get)
    exact hc'.index_unique hd'
  have injective : ∀ i i' j, To i j → To i' j → i = i' := by
    rintro i i' j ⟨c, hc, hc'⟩ ⟨d, hd, hd'⟩
    obtain rfl : c = d := Option.some.inj (hc'.get.symm.trans hd'.get)
    exact hc.index_unique hd
  have below : ∀ i j, To i j → j < hypotheses'.length := by
    rintro i j ⟨c, -, hc'⟩
    exact (List.getElem?_eq_some_iff.mp hc'.get).1
  obtain ⟨σ, hσ, hto⟩ := IndexSet.exists_injective_of_partial functional injective below
  exact ⟨σ, hσ, fun i i' c h h' => hto ⟨c, h, h'⟩⟩

/-- The facts of lists with the same members differ by a renumbering that matches last
occurrences. -/
theorem exists_renumbering (same : ∀ c, c ∈ hypotheses ↔ c ∈ hypotheses') :
    ∃ σ : Nat → Nat, ∃ hσ : Function.Injective σ,
      (∀ i i' c, LastAt hypotheses i c → LastAt hypotheses' i' c → σ i = i') ∧
        FactSet.ofHypotheses hypotheses' =
          FactSet.relabel (.renumbering σ hσ) (FactSet.ofHypotheses hypotheses) := by
  obtain ⟨σ, hσ, hlast⟩ := exists_injective_lastAt hypotheses hypotheses'
  refine ⟨σ, hσ, hlast, Ascending.ext_mem fun p => ?_⟩
  rw [FactSet.mem_relabel, FactSet.mem_ofHypotheses_iff]
  constructor
  · rintro ⟨i', c, h', rfl⟩
    obtain ⟨i, h⟩ := exists_lastAt ((same c).mpr h'.mem)
    exact ⟨Fact.ofHypothesis i c, FactSet.mem_ofHypotheses_iff.mpr ⟨i, c, h, rfl⟩,
      congrArg (Fact.ofHypothesis · c) (hlast i i' c h h')⟩
  · rintro ⟨p, hp, rfl⟩
    obtain ⟨i, c, h, rfl⟩ := FactSet.mem_ofHypotheses_iff.mp hp
    obtain ⟨i', h'⟩ := exists_lastAt ((same c).mp h.mem)
    exact ⟨i', c, h', congrArg (Fact.ofHypothesis · c) (hlast i i' c h h')⟩

end LastAt

/-! ## Certificates -/

/-- A certificate lists what the derivation uses. -/
theorem Certificate.multiplier?_ofWitness (w : Fact) (i : Nat) :
    (ofWitness w).multiplier? i =
      if w.derivation.multiplicity i = 0 then none else some (w.derivation.multiplicity i) :=
  IndexMap.get?_without w.derivation.multipliers i 0

/-- Renumbering the hypotheses of a witness renumbers the list. -/
theorem Certificate.multiplier?_renumber {σ : Nat → Nat} (hσ : Function.Injective σ) (w : Fact)
    (i : Nat) : (ofWitness (w.renumber σ)).multiplier? (σ i) = (ofWitness w).multiplier? i := by
  have hmultiplicity : (w.renumber σ).derivation.multiplicity (σ i) = w.derivation.multiplicity i :=
    Derivation.multiplicity_renumber hσ w.derivation i
  rw [multiplier?_ofWitness, multiplier?_ofWitness, hmultiplicity]

/-- What is derived from the facts of a list of hypotheses uses last occurrences only. -/
theorem Run.lastAt_of_refuted {config : Config} {hypotheses : List Comparison} {bound : Nat} {w : Fact}
    (h : (search config (FactSet.ofHypotheses hypotheses) bound).verdict = .ok (.refuted w)) {i : Nat}
    (hi : w.derivation.multiplicity i ≠ 0) : ∃ c, LastAt hypotheses i c := by
  have huses := Run.invariant_of_refuted
    (P := fun p => ∀ i, p.derivation.multiplicity i ≠ 0 → ∃ c, LastAt hypotheses i c) ?_ ?_ h
  · exact huses.1 i hi
  · intro p q f var hp hq hcombined i hi
    obtain ⟨m, n, -, -, -, hderivation, -⟩ := Fact.combined?_eq_some hcombined
    rw [hderivation, Derivation.multiplicity_sum, Derivation.multiplicity_multiple,
      Derivation.multiplicity_multiple] at hi
    by_cases hzero : p.derivation.multiplicity i = 0
    · rw [hzero, Nat.zero_mul, Nat.zero_add] at hi
      exact hq i (left_ne_zero_of_mul hi)
    · exact hp i hzero
  · intro p hp i hi
    obtain ⟨j, c, hlast, rfl⟩ := FactSet.mem_ofHypotheses_iff.mp hp
    have huse : (Derivation.hypothesis j).multiplicity i ≠ 0 := hi
    rw [Derivation.multiplicity_hypothesis] at huse
    obtain rfl : j = i := by
      by_contra hne
      exact huse (if_neg hne)
    exact ⟨c, hlast⟩

/-! ## Reports -/

namespace Refuter

/-- Whether the certificate of a refutation, if there is one, lists last occurrences only. -/
def UsesLast (hypotheses : List Comparison) (answer : Except Fault Verdict) : Prop :=
  ∀ w, answer = .ok (.refuted w) → ∀ i ∈ (Certificate.ofWitness w).hypotheses,
    ∃ c, LastAt hypotheses i c

/-- A refuter reports alike on two lists of hypotheses: the faults or the kinds of verdict are the
same, and what the witnesses state, the statistics grow by the same amount, and the certificates
take the last occurrences of a comparison equally often and no others. -/
structure SameReports (r : Refuter)
    (use : Refuter → List Comparison → Logged (Except Fault Verdict) × Refuter)
    (hypotheses hypotheses' : List Comparison) : Prop where
  outcome : (use r hypotheses).1.value.map (·.witness?.map Fact.comparison) =
    (use r hypotheses').1.value.map (·.witness?.map Fact.comparison)
  increment : ∃ increment, Adds r.config (use · hypotheses) increment ∧
    Adds r.config (use · hypotheses') increment
  usesLast : UsesLast hypotheses (use r hypotheses).1.value
  usesLast' : UsesLast hypotheses' (use r hypotheses').1.value
  multiplier : ∀ w w', (use r hypotheses).1.value = .ok (.refuted w) →
    (use r hypotheses').1.value = .ok (.refuted w') → ∀ i i' c, LastAt hypotheses i c →
      LastAt hypotheses' i' c →
        (Certificate.ofWitness w).multiplier? i = (Certificate.ofWitness w').multiplier? i'

variable {hypotheses hypotheses' : List Comparison}

theorem usesLast_search (config : Config) (hypotheses : List Comparison) (bound : Nat) :
    UsesLast hypotheses (Run.search config (FactSet.ofHypotheses hypotheses) bound).verdict := by
  intro w h i hi
  refine Run.lastAt_of_refuted h (i := i) ?_
  obtain ⟨n, hn⟩ := IndexMap.mem_keys.mp hi
  have hlisted : (Certificate.ofWitness w).multiplier? i = some n := IndexMap.get?_eq_some_iff.mpr hn
  rw [Certificate.multiplier?_ofWitness] at hlisted
  intro hzero
  rw [if_pos hzero] at hlisted
  exact nomatch hlisted

/-- Uses that search lists with the same members, with the same bound, report alike. -/
theorem sameReports_of_search (r : Refuter)
    {use : Refuter → List Comparison → Logged (Except Fault Verdict) × Refuter} {bound : Nat}
    (same : ∀ c, c ∈ hypotheses ↔ c ∈ hypotheses')
    (left : ∀ s, use s hypotheses = search s hypotheses bound)
    (right : ∀ s, use s hypotheses' = search s hypotheses' bound) :
    SameReports r use hypotheses hypotheses' := by
  -- the second search is the first one with its hypotheses renumbered
  obtain ⟨σ, hσ, hlast, hfacts⟩ := exists_renumbering same
  let ρ : Relabelling := .renumbering σ hσ
  let run := Run.search r.config (FactSet.ofHypotheses hypotheses) bound
  have hrun : Run.search r.config (FactSet.ofHypotheses hypotheses') bound = run.relabel ρ := by
    rw [hfacts]
    exact Run.search_relabel ρ r.config (FactSet.ofHypotheses hypotheses) bound
  have hvalue : (use r hypotheses).1.value = run.verdict := by
    rw [left]
    rfl
  have hvalue' : (use r hypotheses').1.value = run.verdict.map (Verdict.relabel ρ) := by
    rw [right, ← Run.verdict_relabel, ← hrun]
    rfl
  have hadds : Adds r.config (use · hypotheses) run.statistics := by
    rw [funext left]
    exact adds_search r.config hypotheses bound
  have hadds' : Adds r.config (use · hypotheses') run.statistics := by
    rw [funext right, ← Run.statistics_relabel ρ run, ← hrun]
    exact adds_search r.config hypotheses' bound
  refine ⟨?_, ⟨run.statistics, hadds, hadds'⟩, ?_, ?_, ?_⟩
  · rw [hvalue, hvalue']
    rcases run.verdict with fault | witness | _ <;> rfl
  · rw [left]
    exact usesLast_search r.config hypotheses bound
  · rw [right]
    exact usesLast_search r.config hypotheses' bound
  · intro w w' hw hw' i i' c hi hi'
    rw [← hvalue, hw] at hvalue'
    obtain rfl : w' = w.renumber σ := by
      rw [hw'] at hvalue'
      exact Verdict.refuted.inj (Except.ok.inj hvalue')
    rw [← hlast i i' c hi hi', Certificate.multiplier?_renumber hσ]

/-- A run depends on the set of comparisons only. On lists with the same members, in any order and
with any repetitions, a search without a declared bound reports alike, and so does a search with one
that is above all variables. -/
theorem sameReports_of_mem_iff (r : Refuter) (hypotheses hypotheses' : List Comparison)
    (same : ∀ c, c ∈ hypotheses ↔ c ∈ hypotheses') :
    SameReports r runAuto hypotheses hypotheses' ∧
      ∀ maxVar, (∀ c ∈ hypotheses, ∀ v, c.coeff v ≠ 0 → v ≤ maxVar) →
        SameReports r (run · · maxVar) hypotheses hypotheses' := by
  constructor
  · have hbound : bound hypotheses' = bound hypotheses :=
      eq_of_forall_ge_iff fun b => by simp only [bound_le_iff, same]
    exact sameReports_of_search r same (fun _ => rfl) fun s => congrArg (s.search hypotheses') hbound
  · intro maxVar bounded
    have bounded' : ∀ c ∈ hypotheses', ∀ v, c.coeff v ≠ 0 → v ≤ maxVar :=
      fun c hc => bounded c ((same c).mpr hc)
    exact sameReports_of_search r same
      (fun _ => (run_eq_search (unbound?_eq_none_iff.mpr bounded)).2)
      fun _ => (run_eq_search (unbound?_eq_none_iff.mpr bounded')).2

/-- The refutation of `x₀ - 2·x₁ < 0` and `-2·x₀ + 4·x₁ ≤ 0` is reported alike when they are turned
around and one is repeated, of which the first occurrence is not used. -/
theorem sameReports_of_mem_iff_cycle :
    let c : Comparison := ⟨.lt, .ofTerms [(0, 1), (1, -2)]⟩
    let d : Comparison := ⟨.le, .ofTerms [(0, -2), (1, 4)]⟩
    (∀ e, e ∈ [c, d] ↔ e ∈ [d, c, d]) ∧ SameReports {} runAuto [c, d] [d, c, d] ∧
      SameReports {} (run · · 1) [c, d] [d, c, d] ∧
        ∃ w, (runAuto {} [d, c, d]).1.value = .ok (.refuted w) ∧
          (Certificate.ofWitness w).multipliers.toList = [(1, 2), (2, 1)] := by
  have same (c d : Comparison) : ∀ e, e ∈ [c, d] ↔ e ∈ [d, c, d] := by
    intro e
    simp only [List.mem_cons, List.not_mem_nil, or_false]
    tauto
  exact ⟨same _ _, (sameReports_of_mem_iff {} _ _ (same _ _)).1,
    (sameReports_of_mem_iff {} _ _ (same _ _)).2 1 (unbound?_eq_none_iff.mp rfl), _, rfl, rfl⟩

end Refuter

end LinearRefutation
