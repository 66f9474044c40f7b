import LinearRefutation.Proofs.Elimination.Stage
import LinearRefutation.Proofs.Refuter

/-!
# The books of a search

Each fact of a search carries its past: its derivation and four sets of indices, which the
minimality filter relies on. They are right at every point of both passes (`Refuter.books_right`):
the derivation can be replayed to the comparison, the history lists what it uses, and the variables
of these hypotheses are those that the fact mentions, those eliminated on purpose and those that
cancelled.

A fact is `Booked` when it is traced and its sets of variables keep to their places: it mentions
variables that are still to be eliminated, and those eliminated on purpose are eliminated and do not
count as cancelled. Variables that cancelled have no place: one may come back, or be eliminated
later.
-/

namespace LinearRefutation

namespace Fact

variable {hypotheses : List Comparison} {left top var v : Nat} {p q f : Fact}

/-! ## Facts with their books -/

/-- The records of a fact, when the variables below `left` of those below `top` are to be eliminated
yet, agree with its derivation and with each other. -/
structure Accounts (hypotheses : List Comparison) (left top : Nat) (p : Fact) : Prop where
  replay : (Certificate.mk p.derivation.multipliers).replay hypotheses = .ok p.comparison
  history : p.history = IndexMap.keys p.derivation.multipliers
  positive : ∀ entry ∈ p.derivation.multipliers, 0 < entry.2
  vars : ∀ v, v ∈ p.vars ↔ p.comparison.coeff v ≠ 0
  remaining : ∀ v ∈ p.vars, v < left
  eliminated : ∀ v ∈ p.effective, left ≤ v ∧ v < top
  disjoint : ∀ v ∈ p.effective, v ∉ p.vars ∧ v ∉ p.implicit
  mentions : ∀ v, (∃ i ∈ p.history, ∃ c, hypotheses[i]? = some c ∧ c.coeff v ≠ 0) ↔
    v ∈ p.vars ∨ v ∈ p.effective ∨ v ∈ p.implicit

/-- A traced fact whose sets of variables keep to their places. -/
structure Booked (hypotheses : List Comparison) (left top : Nat) (p : Fact) : Prop
    extends p.Traced hypotheses where
  remaining : ∀ v ∈ p.vars, v < left
  eliminated : ∀ v ∈ p.effective, left ≤ v ∧ v < top
  not_implicit : ∀ v ∈ p.effective, v ∉ p.implicit

/-- The history of a traced fact lists what its derivation counts. -/
theorem Traced.history_eq_keys (h : p.Traced hypotheses) :
    p.history = IndexMap.keys p.derivation.multipliers := by
  refine Ascending.ext_mem fun i => ?_
  rw [h.history, IndexMap.mem_keys]
  constructor
  · exact fun hne => ⟨_, IndexMap.mem_of_getD_ne hne⟩
  · rintro ⟨count, hcount⟩
    have hvalue : p.derivation.multiplicity i = count := IndexMap.getD_eq_of_mem hcount 0
    rw [hvalue]
    exact h.derived.1.multiplier_ne_zero _ hcount

/-- The derivation of a derived fact is replayed to its comparison. -/
theorem Derived.replay (h : p.Derived hypotheses) :
    (Certificate.mk p.derivation.multipliers).replay hypotheses = .ok p.comparison := by
  rw [← h.1.certificate_eq, h.1.replay, ← h.2]

theorem Booked.accounts (h : p.Booked hypotheses left top) : p.Accounts hypotheses left top where
  replay := h.derived.replay
  history := h.history_eq_keys
  positive entry hentry := Nat.pos_of_ne_zero (h.derived.1.multiplier_ne_zero entry hentry)
  vars _ := h.mem_vars
  remaining := h.remaining
  eliminated := h.eliminated
  disjoint v hv := by
    have hle := (h.eliminated v hv).1
    refine ⟨fun hmem => ?_, h.not_implicit v hv⟩
    have hlt := h.remaining v hmem
    omega
  mentions v := by
    rw [← h.mentions v]
    refine exists_congr fun i => and_congr_right fun hi => ?_
    have hlt := h.lt_length hi
    simp [hlt]

/-! ## Steps -/

/-- While nothing is eliminated, the facts of the hypotheses are booked. -/
theorem booked_ofHypothesis {index : Nat} (hlt : index < hypotheses.length)
    (below : ∀ v, hypotheses[index].coeff v ≠ 0 → v < top) :
    (ofHypothesis index hypotheses[index]).Booked hypotheses top top where
  toTraced := traced_ofHypothesis hlt
  remaining v hv := below v (LinearForm.mem_vars.mp hv)
  eliminated v hv := absurd hv (Ascending.not_mem_empty v)
  not_implicit v hv := absurd hv (Ascending.not_mem_empty v)

/-- A fact that does not mention a variable stays booked while the variable is eliminated. -/
theorem Booked.untouched (h : p.Booked hypotheses (var + 1) top)
    (absent : p.comparison.coeff var = 0) : p.Booked hypotheses var top where
  toTraced := h.toTraced
  remaining v hv := by
    have hlt := h.remaining v hv
    have hne : v ≠ var := by
      rintro rfl
      exact h.mem_vars.mp hv absent
    omega
  eliminated v hv := by
    have hrange := h.eliminated v hv
    omega
  not_implicit := h.not_implicit

/-- A sum counts the eliminated variable and those of the summands as eliminated on purpose. -/
theorem mem_effective_add :
    v ∈ (p.add q var).effective ↔ v = var ∨ v ∈ p.effective ∨ v ∈ q.effective := by
  show v ∈ (p.effective ∪ q.effective).insert var ↔ _
  rw [IndexSet.mem_insert, IndexSet.mem_union]

/-- What a sum counts as eliminated on purpose it does not count as cancelled. -/
theorem not_mem_implicit_add (h : v ∈ (p.add q var).effective) : v ∉ (p.add q var).implicit := by
  intro himplicit
  have hkept := (Ascending.mem_filter.mp himplicit).2
  rw [Bool.not_eq_true', ← Bool.not_eq_true, IndexSet.contains_iff] at hkept
  exact hkept h

/-- A combination of booked facts is booked, one variable further down. -/
theorem Booked.combined (hp : p.Booked hypotheses (var + 1) top)
    (hq : q.Booked hypotheses (var + 1) top) (hvar : var < top) (h : p.combined? q var = some f) :
    f.Booked hypotheses var top := by
  have htraced : f.Traced hypotheses := hp.toTraced.combined hq.toTraced h
  have gone {p : Fact} (hp : p.Booked hypotheses (var + 1) top) (v : Nat) (hv : var < v) :
      p.comparison.coeff v = 0 := by
    by_contra hne
    have hlt := hp.remaining v (hp.mem_vars.mpr hne)
    omega
  -- the variables above `var` were gone before, and `var` cancels
  have hremaining : ∀ v ∈ f.vars, v < var := by
    intro v hv
    by_contra hle
    refine htraced.mem_vars.mp hv ?_
    exact coeff_eq_zero_of_combined? (gone hp) (gone hq) h (not_lt.mp hle)
  obtain ⟨⟨m, n⟩, -, rfl⟩ := Option.map_eq_some_iff.mp h
  refine ⟨htraced, hremaining, fun v hv => ?_, fun v hv => not_mem_implicit_add hv⟩
  rcases mem_effective_add.mp hv with rfl | hleft | hright
  · exact ⟨le_rfl, hvar⟩
  · have hrange := hp.eliminated v hleft
    omega
  · have hrange := hq.eliminated v hright
    omega

end Fact

/-! ## Rounds and searches -/

section Search

variable {hypotheses : List Comparison} {seed facts : FactSet} {left top var : Nat} {p : Fact}

/-- What a round may leave of booked facts is booked. -/
theorem FactSet.Outcome.booked {prune : Bool} (h : FactSet.Outcome facts prune var p)
    (hvar : var < top) (booked : ∀ q ∈ facts, q.Booked hypotheses (var + 1) top) :
    p.Booked hypotheses var top := by
  cases h with
  | untouched hmem habsent => exact (booked p hmem).untouched habsent
  | combined hl hr _ _ hsome _ => exact (booked _ hl).combined (booked _ hr) hvar hsome

/-- The facts of every stage are booked. -/
theorem Stage.booked (h : Stage seed top left facts)
    (booked : ∀ p ∈ seed, p.Booked hypotheses top top) :
    left ≤ top ∧ ∀ p ∈ facts, p.Booked hypotheses left top := by
  induction h with
  | seed => exact ⟨le_rfl, booked⟩
  | next _ eq ih =>
    obtain ⟨hle, hbooked⟩ := ih
    refine ⟨by omega, fun p hp => ?_⟩
    exact (Eliminator.outcome_of_eliminate eq hp).booked hle hbooked

/-- The facts held at the end of a round, whether it is completed or given up. -/
def Eliminator.held : Except Abort Round → FactSet
  | .ok round => round.facts
  | .error abort => abort.gathered.facts

theorem Eliminator.outcome_of_mem_held {e e' : Eliminator} {result : Except Abort Round}
    (h : e.eliminate var facts = (result, e')) (hp : p ∈ Eliminator.held result) :
    FactSet.Outcome facts e.config.prune var p := by
  cases result with
  | ok round => exact outcome_of_eliminate h hp
  | error abort => exact outcome_of_abort h hp

/-- The sets of facts that a search works on, each with the bound on the variables that are still to
be eliminated: those it starts from, and those held at the ends of the rounds of its passes. -/
inductive Run.WorksOn (run : Run) (top : Nat) : Nat → FactSet → Prop
  | seed : WorksOn run top top run.seed
  | tried {pass : Pass} {var : Nat} {result : Except Abort Round} (mem : pass ∈ run.passes)
    (tries : pass.Tries var result) : WorksOn run top var (Eliminator.held result)

/-- All facts that a search works on are booked. -/
theorem Run.WorksOn.booked {config : Config} (h : (Run.search config seed top).WorksOn top left facts)
    (booked : ∀ p ∈ seed, p.Booked hypotheses top top) :
    ∀ p ∈ facts, p.Booked hypotheses left top := by
  cases h with
  | seed => exact booked
  | tried hpass htries =>
    obtain ⟨config', -, rfl⟩ := Run.eq_start_of_mem_passes hpass
    obtain ⟨e, e', before, -, stage, hround⟩ := Pass.exists_stage_of_start htries
    obtain ⟨hlt, hbefore⟩ := stage.booked booked
    exact fun p hp => (Eliminator.outcome_of_mem_held hround hp).booked hlt hbefore

/-- The facts of hypotheses below a bound are booked before anything is eliminated. -/
theorem FactSet.booked_of_mem_ofHypotheses
    (below : FactSet.Below (FactSet.ofHypotheses hypotheses) top)
    (h : p ∈ FactSet.ofHypotheses hypotheses) : p.Booked hypotheses top top := by
  obtain ⟨i, hi, rfl⟩ := exists_of_mem_ofHypotheses h
  refine Fact.booked_ofHypothesis hi fun v hv => ?_
  by_contra hle
  exact hv (below _ h v (not_lt.mp hle))

end Search

/-! ## Uses of a refuter -/

namespace Refuter

/-- Whether all facts that a search with this bound works on have right records. -/
def KeepsBooks (r : Refuter) (hypotheses : List Comparison) (top : Nat) : Prop :=
  ∀ left facts, (Run.search r.config (FactSet.ofHypotheses hypotheses) top).WorksOn top left facts →
    ∀ p ∈ facts, p.Accounts hypotheses left top

theorem keepsBooks (r : Refuter) {hypotheses : List Comparison} {top : Nat}
    (below : FactSet.Below (FactSet.ofHypotheses hypotheses) top) : r.KeepsBooks hypotheses top := by
  intro left facts h p hp
  have hseed := fun p hp => FactSet.booked_of_mem_ofHypotheses (p := p) below hp
  exact (h.booked hseed p hp).accounts

/-- The books are right in every search that a use of a refuter makes, in both of its passes. -/
theorem books_right (r : Refuter) (hypotheses : List Comparison) :
    (∀ maxVar, unbound? hypotheses maxVar = none →
        r.run hypotheses maxVar = r.search hypotheses (maxVar + 1) ∧
          r.KeepsBooks hypotheses (maxVar + 1)) ∧
      r.runAuto hypotheses = r.search hypotheses (bound hypotheses) ∧
        r.KeepsBooks hypotheses (bound hypotheses) := by
  refine ⟨fun maxVar h => ?_, rfl, keepsBooks r (below_bound hypotheses)⟩
  obtain ⟨hbelow, hsearch⟩ := run_eq_search (r := r) h
  exact ⟨hsearch, keepsBooks r hbelow⟩

/-- The sum of the second and the third of four facts, in the pass without the filter: `x₂` is
eliminated and `x₁` cancels, although other facts of the round still mention it. -/
theorem books_right_diagonals :
    let hypotheses : List Comparison := [⟨.le, .ofTerms [(1, 1), (2, 1)]⟩,
      ⟨.le, .ofTerms [(1, 1), (2, -1)]⟩, ⟨.le, .ofTerms [(1, -1), (2, 1)]⟩,
      ⟨.le, .ofTerms [(1, -1), (2, -1)]⟩]
    let run := Run.search {} (FactSet.ofHypotheses hypotheses) 3
    ∃ pass ∈ run.second, ∃ round ∈ pass.rounds, ∃ p ∈ round.facts,
      p.history = .ofList [1, 2] ∧ p.effective = .singleton 2 ∧ p.implicit = .singleton 1 ∧
        p.Accounts hypotheses 2 3 := by
  intro hypotheses run
  have hkeeps := (((books_right {} hypotheses).1 2) rfl).2
  have hfound : ∃ pass ∈ run.second, ∃ round ∈ pass.rounds, round.var = 2 ∧
      ∃ p ∈ round.facts.toList, p.history = .ofList [1, 2] ∧ p.effective = .singleton 2 ∧
        p.implicit = .singleton 1 := by
    decide +kernel
  obtain ⟨pass, hpass, round, hround, hvar, p, hp, hhistory, heffective, himplicit⟩ := hfound
  have hworks : run.WorksOn 3 2 round.facts := by
    rw [← hvar]
    exact .tried (List.mem_cons_of_mem _ (Option.mem_toList.mpr hpass)) (.completed hround)
  refine ⟨pass, hpass, round, hround, p, hp, hhistory, heffective, himplicit, ?_⟩
  exact hkeeps 2 round.facts hworks p hp

end Refuter

end LinearRefutation
