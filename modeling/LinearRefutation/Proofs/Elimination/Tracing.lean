import LinearRefutation.Proofs.Elimination.Search

/-!
# What a fact knows of its past

A fact is `Traced` when its records say what they are meant to say: it is derived from the
hypotheses, its history holds exactly those that its derivation uses, and a variable of these is one
that the fact mentions, or one of those that were eliminated or cancelled on the way. Facts that are
hypotheses are traced and combining keeps facts traced, so all facts that a search comes by are.
-/

namespace LinearRefutation

/-! ## Sets of indices -/

namespace IndexSet

variable {s t : IndexSet} {i : Nat}

theorem mem_foldl_insert {l : List Nat} : i ∈ l.foldl Ascending.insert s ↔ i ∈ s ∨ i ∈ l := by
  constructor
  · exact Ascending.mem_of_mem_foldl_insert
  · intro h
    obtain ⟨j, hj, heq⟩ := Ascending.exists_mem_foldl_insert h
    obtain rfl : j = i := Std.LawfulEqOrd.eq_of_compare heq
    exact hj

theorem mem_union : i ∈ s ∪ t ↔ i ∈ s ∨ i ∈ t := mem_foldl_insert

theorem mem_insert {j : Nat} : i ∈ s.insert j ↔ i = j ∨ i ∈ s := by
  rw [Ascending.mem_insert]
  constructor
  · exact Or.imp_right And.left
  · intro h
    by_cases heq : i = j
    · exact .inl heq
    · refine .inr ⟨h.resolve_left heq, fun hkey => heq ?_⟩
      exact Std.LawfulEqOrd.eq_of_compare hkey

theorem contains_iff : s.contains i ↔ i ∈ s := by
  rw [Ascending.contains_iff]
  constructor
  · rintro ⟨j, hj, heq⟩
    obtain rfl : j = i := Std.LawfulEqOrd.eq_of_compare heq
    exact hj
  · exact fun h => ⟨i, h, Std.ReflCmp.compare_self⟩

/-- The set as a finite set. -/
def toFinset (s : IndexSet) : Finset Nat := s.toList.toFinset

@[simp]
theorem mem_toFinset : i ∈ s.toFinset ↔ i ∈ s := List.mem_toFinset

theorem card_toFinset (s : IndexSet) : s.toFinset.card = s.size := by
  refine List.toFinset_card_of_nodup (s.ascending.imp fun {a b} hlt heq => ?_)
  rw [Nat.compare_eq_lt] at hlt
  exact absurd heq (Nat.ne_of_lt hlt)

end IndexSet

/-! ## Traced facts -/

namespace Fact

/-- The records of a fact are right: its derivation derives it from the hypotheses, `history` lists
what the derivation uses, `vars` the variables of the comparison, and the variables of the
hypotheses used are those and the eliminated ones. -/
structure Traced (hypotheses : List Comparison) (p : Fact) : Prop where
  derived : p.Derived hypotheses
  history : ∀ i, i ∈ p.history ↔ p.derivation.multiplicity i ≠ 0
  vars : p.vars = p.comparison.vars
  mentions : ∀ v, (∃ i ∈ p.history, (hypotheses.getD i 0).coeff v ≠ 0) ↔
    v ∈ p.vars ∨ v ∈ p.effective ∨ v ∈ p.implicit

variable {hypotheses : List Comparison} {p q f : Fact} {var v : Nat}

theorem Traced.mem_vars (h : p.Traced hypotheses) : v ∈ p.vars ↔ p.comparison.coeff v ≠ 0 := by
  rw [h.vars]
  exact LinearForm.mem_vars

/-- Each index of the history names a hypothesis. -/
theorem Traced.lt_length (h : p.Traced hypotheses) {i : Nat} (hi : i ∈ p.history) :
    i < hypotheses.length :=
  h.derived.1.lt_length ((h.history i).mp hi)

theorem traced_ofHypothesis {index : Nat} (hlt : index < hypotheses.length) :
    (ofHypothesis index hypotheses[index]).Traced hypotheses where
  derived := derived_ofHypothesis hlt
  history i := by
    show i ∈ Ascending.singleton index ↔ (Derivation.hypothesis index).multiplicity i ≠ 0
    rw [Derivation.multiplicity_hypothesis, Ascending.mem_singleton]
    by_cases heq : index = i
    · simp [heq]
    · simp [heq, Ne.symm heq]
  vars := rfl
  mentions v := by
    show (∃ i ∈ Ascending.singleton index, (hypotheses.getD i 0).coeff v ≠ 0) ↔
      v ∈ hypotheses[index].form.vars ∨ v ∈ Ascending.empty ∨ v ∈ Ascending.empty
    simp only [Ascending.mem_singleton, exists_eq_left, Ascending.not_mem_empty, or_false,
      LinearForm.mem_vars, List.getD_eq_getElem _ _ hlt]
    rfl

/-- A variable is recorded with a sum if it is recorded with a summand, or is the one eliminated. -/
theorem mem_add_iff (p q : Fact) (var v : Nat) :
    v ∈ (p.add q var).vars ∨ v ∈ (p.add q var).effective ∨ v ∈ (p.add q var).implicit ↔
      v ∈ (p.comparison + q.comparison).vars ∨ v = var ∨
        (v ∈ p.vars ∨ v ∈ p.effective ∨ v ∈ p.implicit) ∨
          v ∈ q.vars ∨ v ∈ q.effective ∨ v ∈ q.implicit := by
  simp only [add, IndexSet.mem_union, IndexSet.mem_insert, Ascending.mem_filter,
    Bool.not_eq_true', ← Bool.not_eq_true, IndexSet.contains_iff]
  -- what vanishes is implicit unless it is eliminated on purpose
  tauto

/-- Only a variable that occurs can be made to cancel. -/
theorem coeff_ne_zero_of_cancel? {c d : Comparison} {factors : Nat × Nat}
    (h : c.cancel? d var = some factors) : c.coeff var ≠ 0 := by
  intro hzero
  simp only [Comparison.cancel?, hzero, zero_mul, lt_irrefl, if_false] at h
  exact nomatch h

/-- A variable of a sum of multiples occurs in one of them. -/
theorem Traced.mem_vars_of_add (hp : p.Traced hypotheses) (hq : q.Traced hypotheses) {m n : Nat}
    (h : v ∈ (m • p.comparison + n • q.comparison).vars) : v ∈ p.vars ∨ v ∈ q.vars := by
  rw [hp.mem_vars, hq.mem_vars, ← not_and_or]
  rintro ⟨hpz, hqz⟩
  refine LinearForm.mem_vars.mp h ?_
  show (m • p.comparison.form + n • q.comparison.form).coeff v = 0
  rw [LinearForm.coeff_add, LinearForm.coeff_nsmul, LinearForm.coeff_nsmul]
  show (m : Int) * p.comparison.coeff v + n * q.comparison.coeff v = 0
  rw [hpz, hqz, mul_zero, mul_zero, add_zero]

/-- A combination of traced facts is traced. -/
theorem Traced.combined (hp : p.Traced hypotheses) (hq : q.Traced hypotheses)
    (h : p.combined? q var = some f) : f.Traced hypotheses := by
  have hderived : f.Derived hypotheses := hp.derived.combined hq.derived h
  obtain ⟨⟨m, n⟩, hcancel, rfl⟩ := Option.map_eq_some_iff.mp h
  obtain ⟨hm, hn, -⟩ := Comparison.cancel?_eq_some hcancel
  have hhistory (i : Nat) : i ∈ ((p.times m).add (q.times n) var).history ↔
      i ∈ p.history ∨ i ∈ q.history := IndexSet.mem_union
  refine ⟨hderived, fun i => ?_, rfl, fun v => ?_⟩
  · show _ ↔ (Derivation.sum (.multiple m p.derivation) (.multiple n q.derivation)).multiplicity i ≠ 0
    rw [hhistory, hp.history, hq.history, Derivation.multiplicity_sum,
      Derivation.multiplicity_multiple, Derivation.multiplicity_multiple]
    simp only [ne_eq, Nat.add_eq_zero_iff, Nat.mul_eq_zero, hm.ne', hn.ne', or_false, not_and_or]
  · have hused : (∃ i ∈ ((p.times m).add (q.times n) var).history,
          (hypotheses.getD i 0).coeff v ≠ 0) ↔
        (∃ i ∈ p.history, (hypotheses.getD i 0).coeff v ≠ 0) ∨
          ∃ i ∈ q.history, (hypotheses.getD i 0).coeff v ≠ 0 := by
      simp only [hhistory, or_and_right, exists_or]
    rw [hused, hp.mentions, hq.mentions]
    refine Iff.trans ⟨fun hv => .inr (.inr hv), ?_⟩ (mem_add_iff (p.times m) (q.times n) var v).symm
    -- neither the sum nor the variable eliminated adds to what the summands mention
    rintro (hv | rfl | hv)
    · rcases hp.mem_vars_of_add hq hv with hleft | hright
      · exact .inl (.inl hleft)
      · exact .inr (.inl hright)
    · exact .inl (.inl (hp.mem_vars.mpr (coeff_ne_zero_of_cancel? hcancel)))
    · exact hv

end Fact

/-- The facts of a list of hypotheses are traced. -/
theorem FactSet.traced_of_mem_ofHypotheses {hypotheses : List Comparison} {p : Fact}
    (h : p ∈ FactSet.ofHypotheses hypotheses) : p.Traced hypotheses := by
  obtain ⟨i, hi, rfl⟩ := exists_of_mem_ofHypotheses h
  exact Fact.traced_ofHypothesis hi

end LinearRefutation
