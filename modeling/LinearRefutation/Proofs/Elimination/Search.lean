import Mathlib.Data.List.Pairwise
import LinearRefutation.Proofs.Elimination.Projection
import LinearRefutation.Proofs.Replay

/-!
# What a search finds out

The verdict of a search, followed through its rounds and its two passes. A contradiction that is
found inherits from the facts searched whatever combining two facts preserves
(`Run.invariant_of_refuted`). Exhaustion is always the verdict of a pass without the filter, whose
rounds are projections, so that the facts searched have a relaxed solution
(`Run.exists_holdsRelaxed_of_exhausted`). A search that fails has hit a limit of its config
(`Run.exceeds_of_error`).

The facts searched are those of the hypotheses: each states the hypothesis that is its derivation,
and each hypothesis is stated by one of them.
-/

namespace LinearRefutation

/-! ## The facts of a list of hypotheses -/

/-- A fact is derived from hypotheses when its derivation is proper and derives its comparison. -/
def Fact.Derived (hypotheses : List Comparison) (p : Fact) : Prop :=
  p.derivation.Proper hypotheses ∧ p.comparison = p.derivation.value hypotheses

/-- A hypothesis is derived from the hypotheses. -/
theorem Fact.derived_ofHypothesis {hypotheses : List Comparison} {i : Nat}
    (hi : i < hypotheses.length) : (Fact.ofHypothesis i hypotheses[i]).Derived hypotheses := by
  refine ⟨hi, ?_⟩
  show hypotheses[i] = hypotheses.getD i 0
  rw [List.getD_eq_getElem _ _ hi]

namespace FactSet

variable {hypotheses : List Comparison}

/-- Each fact of a list of hypotheses is one of them. -/
theorem exists_of_mem_ofHypotheses {p : Fact} (h : p ∈ ofHypotheses hypotheses) :
    ∃ i, ∃ hi : i < hypotheses.length, Fact.ofHypothesis i hypotheses[i] = p := by
  rcases Ascending.mem_of_mem_foldl_insert h with hempty | hmem
  · exact absurd hempty (Ascending.not_mem_empty p)
  · exact List.mem_mapIdx.mp hmem

theorem derived_of_mem_ofHypotheses {p : Fact} (h : p ∈ ofHypotheses hypotheses) :
    p.Derived hypotheses := by
  obtain ⟨i, hi, rfl⟩ := exists_of_mem_ofHypotheses h
  exact Fact.derived_ofHypothesis hi

theorem states_ofHypotheses {c : Comparison} (h : c ∈ hypotheses) :
    (ofHypotheses hypotheses).States c := by
  obtain ⟨i, hi, rfl⟩ := List.getElem_of_mem h
  exact states_ofList.mpr ⟨Fact.ofHypothesis i hypotheses[i], List.mem_mapIdx.mpr ⟨i, hi, rfl⟩, rfl⟩

theorem mem_of_mem_ofHypotheses {p : Fact} (h : p ∈ ofHypotheses hypotheses) :
    p.comparison ∈ hypotheses := by
  obtain ⟨i, hi, rfl⟩ := exists_of_mem_ofHypotheses h
  exact List.getElem_mem hi

end FactSet

/-- A combination of derived facts is derived. -/
theorem Fact.Derived.combined {hypotheses : List Comparison} {p q f : Fact} {var : Nat}
    (hp : p.Derived hypotheses) (hq : q.Derived hypotheses) (h : p.combined? q var = some f) :
    f.Derived hypotheses := by
  obtain ⟨m, n, hm, hn, hsum, hderivation, -⟩ := Fact.combined?_eq_some h
  unfold Derived
  rw [hsum, hderivation, hp.2, hq.2]
  exact ⟨⟨⟨hm.ne', hp.1⟩, hn.ne', hq.1⟩, rfl⟩

/-- A combination of facts without variables above the one eliminated is left with those below
it. -/
theorem Fact.coeff_eq_zero_of_combined? {p q f : Fact} {var v : Nat}
    (hp : ∀ v, var < v → p.comparison.coeff v = 0) (hq : ∀ v, var < v → q.comparison.coeff v = 0)
    (h : p.combined? q var = some f) (hv : var ≤ v) : f.comparison.coeff v = 0 := by
  obtain ⟨m, n, -, -, hsum, -, hcancel⟩ := Fact.combined?_eq_some h
  rw [Fact.coeff_of_eq_add hsum]
  rcases Nat.eq_or_lt_of_le hv with rfl | hlt
  · exact hcancel
  · rw [hp v hlt, hq v hlt, mul_zero, mul_zero, add_zero]

/-! ## Passes -/

/-- Whether all variables that occur in a set of facts are below a bound. -/
def FactSet.Below (facts : FactSet) (bound : Nat) : Prop :=
  ∀ p ∈ facts, ∀ v, bound ≤ v → p.comparison.coeff v = 0

theorem FactSet.contradiction?_eq_some {facts : FactSet} {w : Fact}
    (h : FactSet.contradiction? facts = some w) : w ∈ facts ∧ w.isContradiction :=
  ⟨List.mem_of_find?_eq_some h, List.find?_some h⟩

theorem FactSet.not_isContradiction {facts : FactSet} (h : FactSet.contradiction? facts = none)
    {p : Fact} (hp : p ∈ facts) : ¬ p.comparison.isContradiction :=
  List.find?_eq_none.mp h p hp

namespace Eliminator

variable {e e' : Eliminator} {var : Nat} {facts : FactSet} {round : Round}

/-- A round lowers the bound on the variables. -/
theorem below_of_eliminate (h : e.eliminate var facts = (.ok round, e'))
    (below : FactSet.Below facts (var + 1)) : FactSet.Below round.facts var := by
  intro p hp v hv
  cases outcome_of_eliminate h hp with
  | untouched hmem habsent =>
    rcases Nat.eq_or_lt_of_le hv with rfl | hlt
    · exact habsent
    · exact below p hmem v hlt
  | combined hl hr _ _ hsome _ =>
    exact Fact.coeff_eq_zero_of_combined? (below _ hl) (below _ hr) hsome hv

/-- What all facts have before a round and combining preserves, all facts have after it. -/
theorem invariant_of_eliminate {P : Fact → Prop}
    (combine : ∀ {p q f var}, P p → P q → p.combined? q var = some f → P f)
    (h : e.eliminate var facts = (.ok round, e')) (holds : ∀ p ∈ facts, P p) :
    ∀ p ∈ round.facts, P p := by
  intro p hp
  cases outcome_of_eliminate h hp with
  | untouched hmem _ => exact holds p hmem
  | combined hl hr _ _ hsome _ => exact combine (holds _ hl) (holds _ hr) hsome

end Eliminator

/-- How a pass arrives at its verdict: no variable is left, a round is given up, a round brings up a
contradiction, or the pass goes on with the facts of a round that does not. -/
inductive Descent : Eliminator → FactSet → Nat → Except Fault Verdict → Prop
  | done {e facts} : Descent e facts 0 (.ok .exhausted)
  | aborted {e e' facts var abort} (round : e.eliminate var facts = (.error abort, e')) :
    Descent e facts (var + 1) (.error abort.fault)
  | refuted {e e' facts var round w} (eq : e.eliminate var facts = (.ok round, e'))
    (found : FactSet.contradiction? round.facts = some w) :
    Descent e facts (var + 1) (.ok (.refuted w))
  | next {e e' facts var round verdict} (eq : e.eliminate var facts = (.ok round, e'))
    (none : FactSet.contradiction? round.facts = none) (rest : Descent e' round.facts var verdict) :
    Descent e facts (var + 1) verdict

namespace Descent

variable {e : Eliminator} {facts : FactSet} {bound : Nat} {verdict : Except Fault Verdict}

/-- What all facts have in common and combining preserves, the contradiction found has as well. -/
theorem invariant {P : Fact → Prop}
    (combine : ∀ {p q f var}, P p → P q → p.combined? q var = some f → P f)
    (h : Descent e facts bound verdict) (holds : ∀ p ∈ facts, P p) {w : Fact}
    (hw : verdict = .ok (.refuted w)) : P w ∧ w.isContradiction := by
  induction h with
  | done => exact nomatch hw
  | aborted => exact nomatch hw
  | refuted eq found =>
    obtain rfl := Verdict.refuted.inj (Except.ok.inj hw)
    obtain ⟨hmem, hcontr⟩ := FactSet.contradiction?_eq_some found
    exact ⟨Eliminator.invariant_of_eliminate combine eq holds _ hmem, hcontr⟩
  | next eq _ _ ih => exact ih (Eliminator.invariant_of_eliminate combine eq holds) hw

/-- Facts from which all variables are eliminated without the filter have a relaxed solution. -/
theorem exists_holdsRelaxed (h : Descent e facts bound verdict) (hprune : e.config.prune = false)
    (below : FactSet.Below facts bound) (hcontr : FactSet.contradiction? facts = none)
    (hv : verdict = .ok .exhausted) : ∃ x, FactSet.HoldsRelaxed facts x := by
  -- backwards through the rounds: each gives a value to the variable it eliminated
  induction h with
  | done =>
    -- no variable is left, and no fact is `0 < 0`
    refine ⟨0, fun p hp => ?_⟩
    have hcoeff : ∀ v, p.comparison.coeff v = 0 := fun v => below p hp v v.zero_le
    have hvalue : p.comparison.form.eval 0 = 0 := by
      rw [LinearForm.ext_coeff (b := 0) hcoeff, LinearForm.eval_zero]
    rw [Comparison.holdsRelaxed_iff, hvalue]
    refine ⟨le_rfl, fun hstrict => absurd ?_ (FactSet.not_isContradiction hcontr hp)⟩
    exact Comparison.isContradiction_iff.mpr ⟨hstrict, hcoeff⟩
  | aborted => cases hv
  | refuted => cases hv
  | next eq hnone _ ih =>
    have hconfig := (Eliminator.eliminate_eq_ok eq).1
    obtain ⟨x, hx⟩ := ih (hconfig ▸ hprune) (Eliminator.below_of_eliminate eq below) hnone hv
    obtain ⟨t, ht⟩ := Eliminator.exists_update_of_holdsRelaxed hprune eq hx
    exact ⟨_, ht⟩

/-- A pass that is given up has hit a limit. -/
theorem exceeds (h : Descent e facts bound verdict) {fault : Fault} (hv : verdict = .error fault) :
    e.config.Exceeds fault := by
  induction h with
  | done => cases hv
  | aborted round =>
    cases hv
    exact Eliminator.exceeds_of_eliminate round
  | refuted => cases hv
  | next eq _ _ ih => exact (Eliminator.eliminate_eq_ok eq).1 ▸ ih hv

end Descent

namespace Pass

section Descend

variable {e e' : Eliminator} {facts : FactSet} {var : Nat} {round : Round}

theorem descend_of_aborted {abort : Abort} (h : e.eliminate var facts = (.error abort, e')) :
    descend e facts (var + 1) = ⟨[], facts, .aborted var abort⟩ := by
  rw [descend, h]

theorem descend_of_refuted {w : Fact} (h : e.eliminate var facts = (.ok round, e'))
    (found : FactSet.contradiction? round.facts = some w) :
    descend e facts (var + 1) = ⟨[round], round.facts, .finished (.refuted w)⟩ := by
  rw [descend, h]
  simp only [found]

theorem descend_of_next (h : e.eliminate var facts = (.ok round, e'))
    (none : FactSet.contradiction? round.facts = none) :
    descend e facts (var + 1) =
      { descend e' round.facts var with rounds := round :: (descend e' round.facts var).rounds } := by
  rw [descend, h]
  simp only [none]

end Descend

theorem descent_descend (e : Eliminator) (facts : FactSet) (bound : Nat) :
    Descent e facts bound (descend e facts bound).verdict := by
  induction bound generalizing e facts with
  | zero => exact .done
  | succ var ih =>
    rcases hround : e.eliminate var facts with ⟨abort | round, e'⟩
    · rw [descend_of_aborted hround]
      exact .aborted hround
    · cases hfind : FactSet.contradiction? round.facts with
      | some w =>
        rw [descend_of_refuted hround hfind]
        exact .refuted hround hfind
      | none =>
        rw [descend_of_next hround hfind]
        exact .next hround hfind (ih e' round.facts)

section Start

variable {config : Config} {facts : FactSet} {bound : Nat}

theorem start_of_refuted {w : Fact} (found : FactSet.contradiction? facts = some w) :
    start config facts bound = ⟨[], facts, .finished (.refuted w)⟩ := by
  unfold start
  rw [found]

theorem start_of_overfull {fault : Fault} (none : FactSet.contradiction? facts = none)
    (limit : config.checkWorkingSet facts.size = .error fault) :
    start config facts bound = ⟨[], facts, .overfull fault⟩ := by
  unfold start
  rw [none, limit]

theorem start_of_fits (none : FactSet.contradiction? facts = none)
    (fits : config.checkWorkingSet facts.size = .ok ()) :
    start config facts bound = descend { config } facts bound := by
  unfold start
  rw [none, fits]

end Start

/-- How a pass begins: the facts hold a contradiction, there are too many of them, or the pass
descends from facts without a contradiction. -/
inductive Outcome (config : Config) (facts : FactSet) (bound : Nat) : Except Fault Verdict → Prop
  | refuted {w} (found : FactSet.contradiction? facts = some w) :
    Outcome config facts bound (.ok (.refuted w))
  | overfull {fault} (limit : config.Exceeds fault) : Outcome config facts bound (.error fault)
  | descended {verdict} (none : FactSet.contradiction? facts = none)
    (descent : Descent { config } facts bound verdict) : Outcome config facts bound verdict

theorem outcome_start (config : Config) (facts : FactSet) (bound : Nat) :
    Outcome config facts bound (start config facts bound).verdict := by
  cases hfind : FactSet.contradiction? facts with
  | some w =>
    rw [start_of_refuted hfind]
    exact .refuted hfind
  | none =>
    cases hsize : config.checkWorkingSet facts.size with
    | error fault =>
      rw [start_of_overfull hfind hsize]
      exact .overfull (Config.exceeds_of_checkWorkingSet hsize)
    | ok _ =>
      rw [start_of_fits hfind hsize]
      exact .descended hfind (descent_descend _ facts bound)

namespace Outcome

variable {config : Config} {facts : FactSet} {bound : Nat}

/-- The contradiction that a pass finds has every property that all facts have and combining
preserves. -/
theorem invariant {P : Fact → Prop}
    (combine : ∀ {p q f var}, P p → P q → p.combined? q var = some f → P f)
    (holds : ∀ p ∈ facts, P p) {w : Fact} (h : Outcome config facts bound (.ok (.refuted w))) :
    P w ∧ w.isContradiction := by
  cases h with
  | refuted found =>
    obtain ⟨hmem, hcontr⟩ := FactSet.contradiction?_eq_some found
    exact ⟨holds _ hmem, hcontr⟩
  | descended _ descent => exact descent.invariant combine holds rfl

/-- Facts that a pass without the filter exhausts have a relaxed solution. -/
theorem exists_holdsRelaxed (hprune : config.prune = false) (below : FactSet.Below facts bound)
    (h : Outcome config facts bound (.ok .exhausted)) : ∃ x, FactSet.HoldsRelaxed facts x := by
  cases h with
  | descended hnone descent => exact descent.exists_holdsRelaxed hprune below hnone rfl

/-- A pass that fails has hit a limit. -/
theorem exceeds {fault : Fault} (h : Outcome config facts bound (.error fault)) :
    config.Exceeds fault := by
  cases h with
  | overfull limit => exact limit
  | descended _ descent => exact descent.exceeds rfl

end Outcome

theorem isExhausted_iff {pass : Pass} : pass.isExhausted ↔ pass.verdict = .ok .exhausted := by
  obtain ⟨rounds, facts, ending⟩ := pass
  rcases ending with ⟨witness | _⟩ | fault | ⟨var, abort⟩ <;> simp [isExhausted, verdict]

end Pass

/-! ## Runs -/

namespace Run

variable {config : Config} {seed : FactSet} {bound : Nat}

/-- A filtered pass that exhausts its facts is repeated without the filter. -/
theorem search_of_repeated
    (h : config.prune = true ∧ (Pass.start config seed bound).verdict = .ok .exhausted) :
    search config seed bound =
      ⟨seed, Pass.start config seed bound,
        some (Pass.start (config.withPruning false) seed bound)⟩ := by
  have hrepeat : (config.prune && (Pass.start config seed bound).isExhausted) = true :=
    Bool.and_eq_true_iff.mpr ⟨h.1, Pass.isExhausted_iff.mpr h.2⟩
  unfold search
  simp only [hrepeat, if_true]

/-- Any other pass is the whole search. -/
theorem search_of_single
    (h : ¬ (config.prune = true ∧ (Pass.start config seed bound).verdict = .ok .exhausted)) :
    search config seed bound = ⟨seed, Pass.start config seed bound, none⟩ := by
  have hsingle : ¬ (config.prune && (Pass.start config seed bound).isExhausted) = true := by
    rw [Bool.and_eq_true_iff, Pass.isExhausted_iff]
    exact h
  unfold search
  simp only [hsingle]
  rfl

/-- The verdict of a search is the outcome of a pass under its config, with the filter as set or
off. Exhaustion is the outcome of a pass without the filter. -/
theorem exists_outcome (config : Config) (seed : FactSet) (bound : Nat) :
    ∃ config' : Config, (config' = config ∨ config' = config.withPruning false) ∧
      Pass.Outcome config' seed bound (search config seed bound).verdict ∧
      ((search config seed bound).verdict = .ok .exhausted → config'.prune = false) := by
  by_cases hrepeat : config.prune = true ∧ (Pass.start config seed bound).verdict = .ok .exhausted
  · rw [search_of_repeated hrepeat]
    exact ⟨config.withPruning false, .inr rfl, Pass.outcome_start .., fun _ => rfl⟩
  · rw [search_of_single hrepeat]
    refine ⟨config, .inl rfl, Pass.outcome_start .., fun hverdict => ?_⟩
    by_contra hprune
    rw [Bool.not_eq_false] at hprune
    exact hrepeat ⟨hprune, hverdict⟩

/-- The contradiction a search finds has every property that all facts searched have and combining
preserves. -/
theorem invariant_of_refuted {P : Fact → Prop}
    (combine : ∀ {p q f var}, P p → P q → p.combined? q var = some f → P f)
    (holds : ∀ p ∈ seed, P p) {w : Fact} (h : (search config seed bound).verdict = .ok (.refuted w)) :
    P w ∧ w.isContradiction := by
  obtain ⟨config', -, houtcome, -⟩ := exists_outcome config seed bound
  rw [h] at houtcome
  exact houtcome.invariant combine holds

/-- Facts that a search exhausts have a relaxed solution. -/
theorem exists_holdsRelaxed_of_exhausted (below : FactSet.Below seed bound)
    (h : (search config seed bound).verdict = .ok .exhausted) : ∃ x, FactSet.HoldsRelaxed seed x := by
  obtain ⟨config', -, houtcome, hprune⟩ := exists_outcome config seed bound
  rw [h] at houtcome
  exact houtcome.exists_holdsRelaxed (hprune h) below

/-- A search that fails has hit a limit. -/
theorem exceeds_of_error {fault : Fault} (h : (search config seed bound).verdict = .error fault) :
    config.Exceeds fault := by
  obtain ⟨config', hconfig, houtcome, -⟩ := exists_outcome config seed bound
  rw [h] at houtcome
  have hexceeds : config'.Exceeds fault := houtcome.exceeds
  -- switching the filter changes no limit
  rcases hconfig with rfl | rfl
  · exact hexceeds
  · exact hexceeds

end Run

end LinearRefutation
