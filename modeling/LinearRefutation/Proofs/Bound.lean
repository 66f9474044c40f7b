import LinearRefutation.Proofs.Refuter

/-!
# The declared bound on the variables

The bound that a run is given decides whether the hypotheses are refused, and nothing else. They are
refused if one of them mentions a variable above the bound, in which case the first such hypothesis
is named (`Refuter.unbound?_eq_some_iff`). If they are not, every variable from the largest one that
occurs up to the bound costs a round that finds all facts without the variable, tries no pair and
leaves the facts as they are (`Eliminator.eliminate_of_absent`), so that the verdict is the one
found without a declared bound (`Refuter.run_eq_runAuto_of_bounded`).
-/

namespace LinearRefutation

/-! ## Rounds for variables that do not occur -/

theorem FactSet.absent_eq_self {facts : FactSet} {var : Nat}
    (h : ∀ p ∈ facts, p.comparison.coeff var = 0) : FactSet.absent facts var = facts :=
  Ascending.ext_mem fun p => mem_absent.trans (and_iff_left_of_imp (h p))

theorem FactSet.opposed_eq_nil {facts : FactSet} {var : Nat}
    (h : ∀ p ∈ facts, p.comparison.coeff var = 0) : FactSet.opposed facts var = [] := by
  rw [List.eq_nil_iff_forall_not_mem]
  intro pair hpair
  obtain ⟨⟨hmem, hpos⟩, -⟩ := mem_opposed.mp hpair
  rw [h _ hmem] at hpos
  exact lt_irrefl 0 hpos

/-- Eliminating a variable that does not occur changes nothing and costs nothing. -/
theorem Eliminator.eliminate_of_absent {e : Eliminator} {var : Nat} {facts : FactSet}
    (room : Config.Within e.config.maxWorkingSet facts.size)
    (h : ∀ p ∈ facts, p.comparison.coeff var = 0) :
    e.eliminate var facts = (.ok ⟨var, facts, { facts }⟩, e) := by
  refine eliminate_eq_ok_iff.mpr ⟨{ facts }, ?_, rfl, rfl⟩
  unfold gather
  rw [FactSet.absent_eq_self h, FactSet.opposed_eq_nil h]
  exact bind_eq_ok_iff.mpr
    ⟨(), Gathering.guard_eq_ok_iff.mpr (Config.check_eq_ok_iff.mpr room), rfl⟩

section Bounded

variable {facts : FactSet} {bound top : Nat}

/-- A pass that starts above all variables of its facts comes down to them unchanged. -/
theorem Pass.verdict_descend_of_below {e : Eliminator} (below : FactSet.Below facts bound)
    (hcontr : FactSet.contradiction? facts = none)
    (room : Config.Within e.config.maxWorkingSet facts.size) (hle : bound ≤ top) :
    (descend e facts top).verdict = (descend e facts bound).verdict := by
  induction top, hle using Nat.le_induction with
  | base => rfl
  | succ var hle ih =>
    have hround : e.eliminate var facts = (.ok ⟨var, facts, { facts }⟩, e) :=
      Eliminator.eliminate_of_absent room fun p hp => below p hp var hle
    rw [descend_of_next hround hcontr]
    exact ih

theorem Pass.verdict_start_of_below (config : Config) (below : FactSet.Below facts bound)
    (hle : bound ≤ top) : (start config facts top).verdict = (start config facts bound).verdict := by
  cases hfind : FactSet.contradiction? facts with
  | some w => rw [start_of_refuted hfind, start_of_refuted hfind]
  | none =>
    cases hsize : config.checkWorkingSet facts.size with
    | error fault => rw [start_of_overfull hfind hsize, start_of_overfull hfind hsize]
    | ok _ =>
      have room : Config.Within config.maxWorkingSet facts.size := Config.check_eq_ok_iff.mp hsize
      rw [start_of_fits hfind hsize, start_of_fits hfind hsize]
      exact verdict_descend_of_below (e := { config }) below hfind room hle

/-- The verdict of a search does not depend on the bound, as long as it is above all variables. -/
theorem Run.verdict_search_of_below (config : Config) (below : FactSet.Below facts bound)
    (hle : bound ≤ top) : (search config facts top).verdict = (search config facts bound).verdict := by
  have hfirst := Pass.verdict_start_of_below config below hle
  by_cases hrepeat : config.prune = true ∧ (Pass.start config facts bound).verdict = .ok .exhausted
  · rw [search_of_repeated hrepeat, search_of_repeated (hfirst.symm ▸ hrepeat)]
    exact Pass.verdict_start_of_below (config.withPruning false) below hle
  · rw [search_of_single hrepeat, search_of_single (hfirst.symm ▸ hrepeat)]
    exact hfirst

end Bounded

/-! ## Refusals -/

namespace Refuter

/-- Some hypothesis mentions a variable above the bound; `index` is the number of the first one, and
`var` its largest variable. -/
structure FirstAbove (hypotheses : List Comparison) (maxVar index var : Nat) : Prop where
  largest : ∃ c, hypotheses[index]? = some c ∧ c.coeff var ≠ 0 ∧ ∀ v, c.coeff v ≠ 0 → v ≤ var
  above : maxVar < var
  first : ∀ i < index, ∀ c, hypotheses[i]? = some c → ∀ v, c.coeff v ≠ 0 → v ≤ maxVar

variable {hypotheses : List Comparison} {maxVar index var : Nat}

theorem FirstAbove.unique {index' var' : Nat} (h : FirstAbove hypotheses maxVar index var)
    (h' : FirstAbove hypotheses maxVar index' var') : index = index' ∧ var = var' := by
  have not_lt {i j u v : Nat} (hi : FirstAbove hypotheses maxVar i u)
      (hj : FirstAbove hypotheses maxVar j v) : ¬ i < j := by
    intro hlt
    obtain ⟨c, hget, hu, -⟩ := hi.largest
    exact absurd hi.above (Nat.not_lt.mpr (hj.first i hlt c hget u hu))
  obtain rfl : index = index' :=
    Nat.le_antisymm (Nat.le_of_not_lt (not_lt h' h)) (Nat.le_of_not_lt (not_lt h h'))
  obtain ⟨c, hget, hvar, hmax⟩ := h.largest
  obtain ⟨c', hget', hvar', hmax'⟩ := h'.largest
  obtain rfl : c = c' := Option.some.inj (hget.symm.trans hget')
  exact ⟨rfl, Nat.le_antisymm (hmax' var hvar) (hmax var' hvar')⟩

/-- The hypothesis that is refused is the first one that mentions a variable above the bound. -/
theorem firstAbove_of_unbound? (h : unbound? hypotheses maxVar = some (index, var)) :
    FirstAbove hypotheses maxVar index var := by
  obtain ⟨front, ⟨c, i⟩, back, hsplit, hfound, hfront⟩ := List.findSome?_eq_some_iff.mp h
  obtain ⟨before, after, rfl, rfl, hback⟩ := List.zipIdx_eq_append_iff.mp hsplit
  obtain ⟨d, rest, rfl⟩ := List.exists_cons_of_ne_nil
    (show after ≠ [] by rintro rfl; exact nomatch hback)
  rw [List.zipIdx_cons, List.cons.injEq, Prod.mk.injEq, Nat.zero_add] at hback
  obtain ⟨⟨rfl, rfl⟩, -⟩ := hback
  obtain ⟨k, hmax, habove⟩ := Option.bind_eq_some_iff.mp hfound
  obtain ⟨hlt, heq⟩ : maxVar < k ∧ (before.length, k) = (index, var) := by
    by_cases hlt : maxVar < k
    · rw [if_pos hlt] at habove
      exact ⟨hlt, Option.some.inj habove⟩
    · rw [if_neg hlt] at habove
      exact nomatch habove
  obtain ⟨rfl, rfl⟩ := Prod.mk.inj heq
  -- the hypotheses in front of it would not be refused on their own
  have hnone : unbound? before maxVar = none := List.findSome?_eq_none_iff.mpr hfront
  refine ⟨⟨c, ?_, Comparison.maxVar?_eq_some hmax⟩, hlt, fun i hi d hd v hv => ?_⟩
  · rw [List.getElem?_append_right le_rfl, Nat.sub_self, List.getElem?_cons_zero]
  · rw [List.getElem?_append_left hi] at hd
    exact unbound?_eq_none_iff.mp hnone d (List.mem_of_getElem? hd) v hv

/-- Hypotheses are refused exactly if one of them mentions a variable above the bound. -/
theorem exists_firstAbove_iff : (∃ index var, FirstAbove hypotheses maxVar index var) ↔
    ∃ c ∈ hypotheses, ∃ v, c.coeff v ≠ 0 ∧ maxVar < v := by
  constructor
  · rintro ⟨index, var, h⟩
    obtain ⟨c, hget, hvar, -⟩ := h.largest
    exact ⟨c, List.mem_of_getElem? hget, var, hvar, h.above⟩
  · rintro ⟨c, hc, v, hv, hlt⟩
    cases hunbound : unbound? hypotheses maxVar with
    | none => exact absurd (unbound?_eq_none_iff.mp hunbound c hc v hv) (Nat.not_le.mpr hlt)
    | some found => exact ⟨found.1, found.2, firstAbove_of_unbound? hunbound⟩

theorem unbound?_eq_some_iff :
    unbound? hypotheses maxVar = some (index, var) ↔ FirstAbove hypotheses maxVar index var := by
  constructor
  · exact firstAbove_of_unbound?
  · intro h
    cases hunbound : unbound? hypotheses maxVar with
    | none =>
      obtain ⟨c, hc, v, hv, hlt⟩ := exists_firstAbove_iff.mp ⟨index, var, h⟩
      exact absurd (unbound?_eq_none_iff.mp hunbound c hc v hv) (Nat.not_le.mpr hlt)
    | some found =>
      obtain ⟨hindex, hvar⟩ := (firstAbove_of_unbound? hunbound).unique h
      rw [← hindex, ← hvar]

variable {r : Refuter}

/-- Hypotheses that are refused leave the refuter as it was. -/
theorem run_of_firstAbove (h : FirstAbove hypotheses maxVar index var) :
    r.run hypotheses maxVar = ({ value := .error (.unboundVariable index var maxVar) }, r) := by
  unfold run
  rw [unbound?_eq_some_iff.mpr h]

/-- A run with a bound on all variables arrives at what is found without a declared bound. -/
theorem run_eq_runAuto_of_bounded (h : ∀ c ∈ hypotheses, ∀ v, c.coeff v ≠ 0 → v ≤ maxVar) :
    (r.run hypotheses maxVar).1.value = (r.runAuto hypotheses).1.value := by
  have hle : bound hypotheses ≤ maxVar + 1 :=
    bound_le_iff.mpr fun c hc v hv => Nat.lt_succ_of_le (h c hc v hv)
  rw [(run_eq_search (unbound?_eq_none_iff.mpr h)).2]
  exact Run.verdict_search_of_below r.config (below_bound hypotheses) hle

/-- The declared bound matters for the refusal of hypotheses only. A run is refused exactly if some
hypothesis mentions a variable above the bound; the refusal names the first such hypothesis and its
largest variable, and leaves the refuter with its statistics as it was. Any other run returns what
is returned without a declared bound: the same fault, or the same verdict with the same witness. -/
theorem run_bound_irrelevant (r : Refuter) (hypotheses : List Comparison) (maxVar : Nat) :
    (∀ index var limit, (r.run hypotheses maxVar).1.value = .error (.unboundVariable index var limit) ↔
        FirstAbove hypotheses maxVar index var ∧ limit = maxVar) ∧
      ((∃ c ∈ hypotheses, ∃ v, c.coeff v ≠ 0 ∧ maxVar < v) →
        ∃ index var, FirstAbove hypotheses maxVar index var ∧
          r.run hypotheses maxVar = ({ value := .error (.unboundVariable index var maxVar) }, r)) ∧
        ((¬ ∃ c ∈ hypotheses, ∃ v, c.coeff v ≠ 0 ∧ maxVar < v) →
          (r.run hypotheses maxVar).1.value = (r.runAuto hypotheses).1.value) := by
  refine ⟨fun index var limit => ⟨fun h => ?_, ?_⟩, fun h => ?_, fun h => ?_⟩
  · by_cases habove : ∃ c ∈ hypotheses, ∃ v, c.coeff v ≠ 0 ∧ maxVar < v
    · obtain ⟨i, v, hfirst⟩ := exists_firstAbove_iff.mpr habove
      rw [run_of_firstAbove hfirst, Except.error.injEq, Fault.unboundVariable.injEq] at h
      obtain ⟨rfl, rfl, rfl⟩ := h
      exact ⟨hfirst, rfl⟩
    · -- a search fails on a limit only
      push Not at habove
      obtain ⟨resource, l, hfault⟩ := (exceeds_of_run habove h).eq_exhausted
      exact nomatch hfault
  · rintro ⟨hfirst, rfl⟩
    rw [run_of_firstAbove hfirst]
  · obtain ⟨index, var, hfirst⟩ := exists_firstAbove_iff.mpr h
    exact ⟨index, var, hfirst, run_of_firstAbove hfirst⟩
  · push Not at h
    exact run_eq_runAuto_of_bounded h

/-- With `2` as the bound, `x₀ < 0` and `x₃ - x₅ ≤ 0` are refused for variable `5` of the second;
with `7`, `x₀ - 2·x₁ < 0` and `-2·x₀ + 4·x₁ ≤ 0` are refuted as they are without one. -/
theorem run_bound_irrelevant_cycle :
    let refused : List Comparison := [⟨.lt, .ofTerms [(0, 1)]⟩, ⟨.le, .ofTerms [(3, 1), (5, -1)]⟩]
    let cycle : List Comparison :=
      [⟨.lt, .ofTerms [(0, 1), (1, -2)]⟩, ⟨.le, .ofTerms [(0, -2), (1, 4)]⟩]
    (∃ index var, FirstAbove refused 2 index var ∧
        ({} : Refuter).run refused 2 = ({ value := .error (.unboundVariable index var 2) }, {})) ∧
      (({} : Refuter).run cycle 7).1.value = (({} : Refuter).runAuto cycle).1.value := by
  intro refused cycle
  refine ⟨(run_bound_irrelevant {} refused 2).2.1 ?_, (run_bound_irrelevant {} cycle 7).2.2 ?_⟩
  · exact ⟨_, List.mem_cons_of_mem _ List.mem_cons_self, 5, by decide, by decide⟩
  · push Not
    exact unbound?_eq_none_iff.mp rfl

end Refuter

end LinearRefutation
