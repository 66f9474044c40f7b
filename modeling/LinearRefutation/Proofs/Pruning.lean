import LinearRefutation.Proofs.Completeness
import LinearRefutation.Proofs.Elimination.Filter

/-!
# The filter and the verdict

The same hypotheses are searched with the filter and without it, under the same limits. A verdict of
exhaustion does not depend on the filter (`Refuter.run_exhausted_iff_withPruning`): the filtered
pass hits no limit that the pass without the filter keeps.

A contradiction does. The filter may discard a fact `0 < 0`, if variables that are still to come
have cancelled in it by chance, and the rounds in which the contradiction is found again are charged
to the same limits. So a search with the filter may hit a limit where the search without it refutes
(`Refuter.filter_costs_refutation`), but only after all the rounds that the other needed, and it
never reports exhaustion instead (`Refuter.refuted_or_exceeds_withPruning`).
-/

namespace LinearRefutation

namespace Run

variable {config : Config} {seed : FactSet} {bound : Nat}

/-- Without the filter a search is one pass. -/
theorem search_withPruning_false (config : Config) (seed : FactSet) (bound : Nat) :
    search (config.withPruning false) seed bound =
      ⟨seed, Pass.start (config.withPruning false) seed bound, none⟩ := rfl

/-- A filtered pass that exhausts its facts is repeated without the filter. -/
theorem search_withPruning_true_of_exhausted
    (h : (Pass.start (config.withPruning true) seed bound).verdict = .ok .exhausted) :
    search (config.withPruning true) seed bound =
      ⟨seed, Pass.start (config.withPruning true) seed bound,
        some (Pass.start (config.withPruning false) seed bound)⟩ := by
  rw [search_of_repeated ⟨rfl, h⟩]
  rfl

/-- Any other filtered pass is the whole search. -/
theorem search_withPruning_true_of_ne
    (h : (Pass.start (config.withPruning true) seed bound).verdict ≠ .ok .exhausted) :
    search (config.withPruning true) seed bound =
      ⟨seed, Pass.start (config.withPruning true) seed bound, none⟩ :=
  search_of_single fun hboth => h hboth.2

/-- The rounds of a search of one pass are those of the pass. -/
theorem rounds_single (seed : FactSet) (first : Pass) : rounds ⟨seed, first, none⟩ = first.rounds :=
  List.append_nil _

end Run

namespace Refuter

/-- The refuter with the filter switched on or off. -/
def withPruning (r : Refuter) (enabled : Bool) : Refuter :=
  { r with config := r.config.withPruning enabled }

variable {r : Refuter} {hypotheses : List Comparison} {maxVar : Nat}

/-- With or without the filter a run is refused, or it is a search. -/
theorem run_withPruning_cases (r : Refuter) (hypotheses : List Comparison) (maxVar : Nat) :
    (∃ fault, ∀ enabled, ((r.withPruning enabled).run hypotheses maxVar).1.value = .error fault) ∨
      ∀ enabled, ((r.withPruning enabled).run hypotheses maxVar).1.value =
        (Run.search (r.config.withPruning enabled) (FactSet.ofHypotheses hypotheses)
          (maxVar + 1)).verdict := by
  unfold run
  cases unbound? hypotheses maxVar with
  | some found => exact .inl ⟨_, fun _ => rfl⟩
  | none => exact .inr fun _ => rfl

/-- A run without the filter and one with it do not arrive at opposite verdicts. -/
theorem isRefuted_eq_withPruning {verdict verdict' : Verdict}
    (h : ((r.withPruning false).run hypotheses maxVar).1.value = .ok verdict)
    (h' : ((r.withPruning true).run hypotheses maxVar).1.value = .ok verdict') :
    verdict.isRefuted = verdict'.isRefuted := by
  rw [Bool.eq_iff_iff, Reports.isRefuted_iff (.inl ⟨maxVar, h⟩),
    Reports.isRefuted_iff (.inl ⟨maxVar, h'⟩)]

/-- Hypotheses are exhausted with the filter exactly if they are exhausted without it under the same
limits, and then the filtered pass hits no limit either. -/
theorem run_exhausted_iff_withPruning (r : Refuter) (hypotheses : List Comparison) (maxVar : Nat) :
    (((r.withPruning true).run hypotheses maxVar).1.value = .ok .exhausted ↔
        ((r.withPruning false).run hypotheses maxVar).1.value = .ok .exhausted) ∧
      (((r.withPruning false).run hypotheses maxVar).1.value = .ok .exhausted →
        (Run.search (r.config.withPruning true) (FactSet.ofHypotheses hypotheses)
          (maxVar + 1)).first.verdict = .ok .exhausted) := by
  rcases run_withPruning_cases r hypotheses maxVar with ⟨fault, hrefused⟩ | hsearch
  · rw [hrefused, hrefused]
    exact ⟨Iff.rfl, fun h => nomatch h⟩
  set filtered := Pass.start (r.config.withPruning true) (FactSet.ofHypotheses hypotheses) (maxVar + 1)
    with hfiltered
  have hfirst (h : ((r.withPruning false).run hypotheses maxVar).1.value = .ok .exhausted) :
      filtered.verdict = .ok .exhausted := by
    rcases Pass.exhausted_or_refuted (hsearch false ▸ h) with hexhausted | ⟨w, hrefuted⟩
    · exact hexhausted
    · -- a contradiction of the filtered pass would be the verdict of its search
      have hrun : ((r.withPruning true).run hypotheses maxVar).1.value = .ok (.refuted w) := by
        rw [hsearch, Run.search_withPruning_true_of_ne (by simp [hrefuted])]
        exact hrefuted
      exact absurd (isRefuted_eq_withPruning h hrun) Bool.false_ne_true
  have hsame (h : filtered.verdict = .ok .exhausted) :
      ((r.withPruning true).run hypotheses maxVar).1.value =
        ((r.withPruning false).run hypotheses maxVar).1.value := by
    rw [hsearch, hsearch, Run.search_withPruning_true_of_exhausted h]
    rfl
  refine ⟨⟨fun h => ?_, fun h => (hsame (hfirst h)).trans h⟩, fun h => hfirst h⟩
  by_cases hexhausted : filtered.verdict = .ok .exhausted
  · exact hsame hexhausted ▸ h
  · rw [hsearch, Run.search_withPruning_true_of_ne hexhausted] at h
    exact absurd h hexhausted

/-- Four facts in two variables are exhausted with the filter, within the six pairs and four facts
that the search without it needs. -/
theorem run_exhausted_iff_withPruning_square :
    let r : Refuter := { config := { maxPairs := some 6, maxWorkingSet := some 4 } }
    let hypotheses : List Comparison :=
      [⟨.lt, .ofTerms [(0, -1), (1, 1)]⟩, ⟨.le, .ofTerms [(0, -2), (1, 1)]⟩,
        ⟨.le, .ofTerms [(0, -1), (1, -1)]⟩, ⟨.lt, .ofTerms [(0, -3), (1, -1)]⟩]
    ((r.withPruning true).run hypotheses 1).1.value = .ok .exhausted ∧
      (Run.search (r.config.withPruning true) (FactSet.ofHypotheses hypotheses) 2).first.verdict =
        .ok .exhausted :=
  ⟨(run_exhausted_iff_withPruning _ _ _).1.mpr rfl, (run_exhausted_iff_withPruning _ _ _).2 rfl⟩

/-- Where a run without the filter refutes, the run with the filter refutes as well or hits a limit,
and it hits one only after completing as many rounds as the other run needed. It never reports
exhaustion. -/
theorem refuted_or_exceeds_withPruning (r : Refuter) (hypotheses : List Comparison) (maxVar : Nat)
    {w : Fact} (h : ((r.withPruning false).run hypotheses maxVar).1.value = .ok (.refuted w)) :
    (∃ w', ((r.withPruning true).run hypotheses maxVar).1.value = .ok (.refuted w')) ∨
      ∃ fault, ((r.withPruning true).run hypotheses maxVar).1.value = .error fault ∧
        r.config.Exceeds fault ∧
          (Run.search (r.config.withPruning false) (FactSet.ofHypotheses hypotheses)
              (maxVar + 1)).rounds.length ≤
            (Run.search (r.config.withPruning true) (FactSet.ofHypotheses hypotheses)
              (maxVar + 1)).rounds.length := by
  rcases run_withPruning_cases r hypotheses maxVar with ⟨fault, hrefused⟩ | hsearch
  · rw [hrefused] at h
    exact nomatch h
  rcases hvalue : ((r.withPruning true).run hypotheses maxVar).1.value with fault | w' | _
  · have hlimit : (r.config.withPruning true).Exceeds fault :=
      Run.exceeds_of_error (hsearch true ▸ hvalue)
    refine .inr ⟨fault, rfl, hlimit, ?_⟩
    -- a repetition would be the pass that refutes
    have hfirst : (Pass.start (r.config.withPruning true) (FactSet.ofHypotheses hypotheses)
        (maxVar + 1)).verdict ≠ .ok .exhausted := by
      intro hexhausted
      rw [hsearch, Run.search_withPruning_true_of_exhausted hexhausted] at hvalue
      rw [hsearch, Run.search_withPruning_false] at h
      exact nomatch h.symm.trans hvalue
    rw [hsearch, Run.search_withPruning_true_of_ne hfirst] at hvalue
    rw [Run.search_withPruning_true_of_ne hfirst, Run.search_withPruning_false, Run.rounds_single,
      Run.rounds_single]
    refine (Pass.refuted_or_rounds_le r.config _ _).resolve_left ?_
    rintro ⟨w', hrefuted⟩
    exact nomatch hrefuted.symm.trans hvalue
  · exact .inl ⟨w', rfl⟩
  · exact absurd (isRefuted_eq_withPruning h hvalue) Bool.false_ne_true.symm

/-- Four comparisons with the sum `0 < 0`, no three of which contradict each other. When `x₁` is
eliminated after `x₂`, `x₀` cancels along with it, so that only two variables of the sum of all four
are counted as eliminated and the filter takes the sum for redundant. -/
def cancelling : List Comparison :=
  [⟨.lt, .ofTerms [(0, 1), (1, 1), (2, 1)]⟩, ⟨.le, .ofTerms [(2, -1)]⟩,
    ⟨.le, .ofTerms [(1, -2), (2, 1)]⟩, ⟨.le, .ofTerms [(0, -1), (1, 1), (2, -1)]⟩]

/-- Eight pairs suffice to refute `cancelling` without the filter. With it they run out, although
each of the four comparisons is needed: any three of them are exhausted. -/
theorem filter_costs_refutation :
    let r : Refuter := { config := { maxPairs := some 8 } }
    (∀ c ∈ cancelling, ∀ v, c.coeff v ≠ 0 → v ≤ 2) ∧
      (∃ w, ((r.withPruning false).run cancelling 2).1.value = .ok (.refuted w)) ∧
        ((r.withPruning true).run cancelling 2).1.value = .error (.exhausted .pairs 8) ∧
          ∀ i < 4, (({} : Refuter).run (cancelling.eraseIdx i) 2).1.value = .ok .exhausted :=
  ⟨unbound?_eq_none_iff.mp rfl, ⟨_, rfl⟩, rfl, by decide⟩

/-- With eight pairs `cancelling` exceeds a limit when it is filtered, after two rounds: as many as
it takes to refute it without the filter. -/
theorem refuted_or_exceeds_withPruning_cancelling :
    let r : Refuter := { config := { maxPairs := some 8 } }
    ∃ fault, ((r.withPruning true).run cancelling 2).1.value = .error fault ∧
      r.config.Exceeds fault ∧
        (Run.search (r.config.withPruning false) (FactSet.ofHypotheses cancelling) 3).rounds.length ≤
          (Run.search (r.config.withPruning true) (FactSet.ofHypotheses cancelling) 3).rounds.length := by
  have hfiltered : ((withPruning { config := { maxPairs := some 8 } } true).run cancelling 2).1.value =
      .error (.exhausted .pairs 8) := rfl
  refine (refuted_or_exceeds_withPruning { config := { maxPairs := some 8 } } cancelling 2
    rfl).resolve_left ?_
  rintro ⟨w', hrefuted⟩
  exact nomatch hfiltered.symm.trans hrefuted

end Refuter

end LinearRefutation
