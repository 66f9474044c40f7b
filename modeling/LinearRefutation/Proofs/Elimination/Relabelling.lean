import LinearRefutation.Proofs.Elimination.Search
import LinearRefutation.Statistics

/-!
# What elimination does not look at

Elimination looks at the comparisons of facts, at the lengths of their histories and at what the
filter says of them, but not at the names of the hypotheses they were built from. A `Relabelling`
changes facts in a way that none of this shows, and is compatible with combining them. Then a search
on relabelled facts runs as the search on the facts themselves does, down to which of two facts with
the same comparison is kept: its record is the relabelled record (`Run.search_relabel`). The numbers
in it are the same (`Run.statistics_relabel`).
-/

namespace LinearRefutation

/-- A change to the records of facts that elimination does not notice. -/
structure Relabelling where
  apply : Fact → Fact
  comparison : ∀ p, (apply p).comparison = p.comparison
  size_history : ∀ p, (apply p).history.size = p.history.size
  mayBeMinimal : ∀ p var, (apply p).mayBeMinimal var = p.mayBeMinimal var
  combined? : ∀ p q var, (apply p).combined? (apply q) var = (p.combined? q var).map apply

instance : CoeFun Relabelling fun _ => Fact → Fact := ⟨Relabelling.apply⟩

variable (ρ : Relabelling)

/-! ## Relabelled records -/

/-- The set with every fact relabelled. -/
def FactSet.relabel (facts : FactSet) : FactSet := Ascending.map ρ ρ.comparison facts

/-- What is gathered from relabelled facts. -/
def Gathering.relabel (g : Gathering) : Gathering :=
  { g with facts := FactSet.relabel ρ g.facts, discarded := g.discarded.map ρ }

def Abort.relabel (abort : Abort) : Abort := ⟨abort.fault, abort.gathered.relabel ρ⟩

def Round.relabel (round : Round) : Round :=
  ⟨round.var, FactSet.relabel ρ round.before, round.gathered.relabel ρ⟩

def Verdict.relabel : Verdict → Verdict
  | .refuted witness => .refuted (ρ witness)
  | .exhausted => .exhausted

def Ending.relabel : Ending → Ending
  | .finished verdict => .finished (verdict.relabel ρ)
  | .overfull fault => .overfull fault
  | .aborted var abort => .aborted var (abort.relabel ρ)

def Pass.relabel (pass : Pass) : Pass :=
  ⟨pass.rounds.map (Round.relabel ρ), FactSet.relabel ρ pass.facts, pass.ending.relabel ρ⟩

/-- The record of a search on relabelled facts. -/
def Run.relabel (run : Run) : Run :=
  ⟨FactSet.relabel ρ run.seed, run.first.relabel ρ, run.second.map (Pass.relabel ρ)⟩

/-! ## Sets of facts -/

namespace FactSet

variable (facts : FactSet) (var : Nat)

theorem size_relabel : (relabel ρ facts).size = facts.size := Ascending.size_map facts

theorem mem_relabel {facts : FactSet} {p : Fact} : p ∈ relabel ρ facts ↔ ∃ q ∈ facts, ρ q = p :=
  Ascending.mem_map

/-- Picking facts by their comparisons commutes with relabelling. -/
theorem filter_relabel (pick : Comparison → Bool) :
    Ascending.filter (fun p => pick p.comparison) (relabel ρ facts) =
      relabel ρ (Ascending.filter (fun p => pick p.comparison) facts) := by
  unfold relabel
  rw [Ascending.filter_map]
  simp only [ρ.comparison]

theorem absent_relabel : absent (relabel ρ facts) var = relabel ρ (absent facts var) :=
  filter_relabel ρ facts fun c => decide (c.coeff var = 0)

/-- Relabelling keeps the order in which pairs are worked off. -/
theorem opposed_relabel :
    opposed (relabel ρ facts) var = (opposed facts var).map (Prod.map ρ ρ) := by
  have hpos : positive (relabel ρ facts) var = relabel ρ (positive facts var) :=
    filter_relabel ρ facts fun c => decide (0 < c.coeff var)
  have hneg : negative (relabel ρ facts) var = relabel ρ (negative facts var) :=
    filter_relabel ρ facts fun c => decide (c.coeff var < 0)
  unfold opposed
  rw [hpos, hneg]
  simp [relabel, Ascending.map, List.flatMap_map, List.map_flatMap, Function.comp_def]

/-- Look-up finds the relabelled fact. -/
theorem find?_relabel (c : Comparison) : (relabel ρ facts).find? c = (facts.find? c).map ρ :=
  Ascending.find?_map facts c

theorem insert_relabel (f : Fact) : (relabel ρ facts).insert (ρ f) = relabel ρ (facts.insert f) :=
  Ascending.insert_map facts f

theorem contradiction?_relabel :
    contradiction? (relabel ρ facts) = (contradiction? facts).map ρ := by
  unfold contradiction? relabel Ascending.map Fact.isContradiction
  simp only [List.find?_map, Function.comp_def, ρ.comparison]

end FactSet

/-! ## Rounds -/

/-- A relabelled combination is taken in as the combination is. -/
theorem Gathering.take_relabel (g : Gathering) (prune : Bool) (var : Nat) (f : Fact) :
    (g.relabel ρ).take prune var (ρ f) = (g.take prune var f).relabel ρ := by
  unfold take
  rw [ρ.mayBeMinimal]
  by_cases hfilter : (prune && !f.mayBeMinimal var) = true
  · rw [if_pos hfilter, if_pos hfilter]
    rfl
  rw [if_neg hfilter, if_neg hfilter]
  have hfind : (g.relabel ρ).facts.find? (ρ f).comparison = (g.facts.find? f.comparison).map ρ := by
    rw [ρ.comparison]
    exact FactSet.find?_relabel ρ g.facts f.comparison
  have hinsert : (g.relabel ρ).facts.insert (ρ f) = FactSet.relabel ρ (g.facts.insert f) :=
    FactSet.insert_relabel ρ g.facts f
  rw [hfind, hinsert]
  cases g.facts.find? f.comparison with
  | none => rfl
  | some known =>
    -- which of two derivations is kept is decided by the lengths of the histories
    simp only [Option.map_some, ρ.size_history]
    by_cases hbetter : f.history.size < known.history.size
    · simp only [hbetter, if_true]
      rfl
    · simp only [hbetter, if_false]
      rfl

namespace Eliminator

variable (e : Eliminator) (var : Nat) (facts : FactSet)

/-- A relabelled pair is worked off as the pair is. -/
theorem combine_relabel (g : Gathering) {pair : Fact × Fact}
    (hpair : pair ∈ FactSet.opposed facts var) :
    e.combine var (g.relabel ρ) (pair.map ρ ρ) =
      mapOutcome (Abort.relabel ρ) (Gathering.relabel ρ) (e.combine var g pair) := by
  obtain ⟨f, hsome⟩ := FactSet.exists_combined?_of_mem_opposed hpair
  have hsome' : (pair.map ρ ρ).1.combined? (pair.map ρ ρ).2 var = some (ρ f) := by
    rw [Prod.map_fst, Prod.map_snd, ρ.combined?, hsome, Option.map_some]
  have htake : (g.relabel ρ).tick.take e.config.prune var (ρ f) =
      (g.tick.take e.config.prune var f).relabel ρ :=
    Gathering.take_relabel ρ g.tick e.config.prune var f
  have hsize : ((g.tick.take e.config.prune var f).relabel ρ).facts.size =
      (g.tick.take e.config.prune var f).facts.size := FactSet.size_relabel ρ _
  have htried : (g.relabel ρ).tried = g.tried := rfl
  rw [combine_of_some hsome, combine_of_some hsome', htake, htried]
  simp only [hsize]
  cases e.config.checkPairs (e.spent + (g.tried + 1)) with
  | error fault => rfl
  | ok _ =>
    cases e.config.checkWorkingSet (g.tick.take e.config.prune var f).facts.size with
    | error fault => rfl
    | ok _ => rfl

/-- What is gathered from relabelled facts is what is gathered from the facts, relabelled. -/
theorem gather_relabel :
    e.gather var (FactSet.relabel ρ facts) =
      mapOutcome (Abort.relabel ρ) (Gathering.relabel ρ) (e.gather var facts) := by
  unfold gather
  rw [FactSet.absent_relabel, FactSet.opposed_relabel]
  simp only [FactSet.size_relabel]
  cases e.config.checkWorkingSet (FactSet.absent facts var).size with
  | error fault => rfl
  | ok _ =>
    exact foldlM_map_eq (fun pair hpair g => combine_relabel ρ e var facts g hpair)
      { facts := FactSet.absent facts var }

/-- A round on relabelled facts costs what it costs on the facts. -/
theorem eliminate_relabel :
    e.eliminate var (FactSet.relabel ρ facts) =
      (mapOutcome (Abort.relabel ρ) (Round.relabel ρ) (e.eliminate var facts).1,
        (e.eliminate var facts).2) := by
  unfold eliminate
  rw [gather_relabel]
  cases e.gather var facts with
  | error abort => rfl
  | ok g => rfl

end Eliminator

/-! ## Passes and searches -/

namespace Pass

theorem descend_relabel (e : Eliminator) (facts : FactSet) (bound : Nat) :
    descend e (FactSet.relabel ρ facts) bound = (descend e facts bound).relabel ρ := by
  induction bound generalizing e facts with
  | zero => rfl
  | succ var ih =>
    have hround := Eliminator.eliminate_relabel ρ e var facts
    rcases helim : e.eliminate var facts with ⟨abort | round, e'⟩
    · rw [helim] at hround
      rw [descend_of_aborted helim, descend_of_aborted hround]
      rfl
    rw [helim] at hround
    have hfind := FactSet.contradiction?_relabel ρ round.facts
    cases hnone : FactSet.contradiction? round.facts with
    | some w =>
      rw [hnone] at hfind
      rw [descend_of_refuted helim hnone, descend_of_refuted hround hfind]
      rfl
    | none =>
      rw [hnone] at hfind
      rw [descend_of_next helim hnone, descend_of_next hround hfind]
      show Pass.mk _ _ _ = _
      have hrest : descend e' (Round.relabel ρ round).facts var = _ := ih e' round.facts
      rw [hrest]
      rfl

theorem start_relabel (config : Config) (facts : FactSet) (bound : Nat) :
    start config (FactSet.relabel ρ facts) bound = (start config facts bound).relabel ρ := by
  have hfind' := FactSet.contradiction?_relabel ρ facts
  have hsize' := FactSet.size_relabel ρ facts
  cases hfind : FactSet.contradiction? facts with
  | some w =>
    rw [hfind] at hfind'
    rw [start_of_refuted hfind, start_of_refuted hfind']
    rfl
  | none =>
    rw [hfind] at hfind'
    cases hsize : config.checkWorkingSet facts.size with
    | error fault =>
      rw [start_of_overfull hfind hsize, start_of_overfull hfind' (hsize'.symm ▸ hsize)]
      rfl
    | ok _ =>
      rw [start_of_fits hfind hsize, start_of_fits hfind' (hsize'.symm ▸ hsize)]
      exact descend_relabel ρ { config } facts bound

theorem verdict_relabel (pass : Pass) :
    (pass.relabel ρ).verdict = pass.verdict.map (Verdict.relabel ρ) := by
  obtain ⟨rounds, facts, verdict | fault | ⟨var, abort⟩⟩ := pass <;> rfl

end Pass

/-- The numbers of a completed round do not change. -/
theorem Round.statistics_relabel (round : Round) : (round.relabel ρ).statistics = round.statistics := by
  have hsize : (round.relabel ρ).facts.size = round.facts.size := FactSet.size_relabel ρ round.facts
  have hpruned : (round.relabel ρ).pruned = round.pruned := List.length_map ρ
  unfold statistics
  rw [hsize, hpruned]
  rfl

namespace Run

/-- A search on relabelled facts runs as the search on the facts does. -/
theorem search_relabel (config : Config) (seed : FactSet) (bound : Nat) :
    search config (FactSet.relabel ρ seed) bound = (search config seed bound).relabel ρ := by
  have hstart (config : Config) := Pass.start_relabel ρ config seed bound
  have hexhausted :
      (Pass.start config (FactSet.relabel ρ seed) bound).verdict = .ok .exhausted ↔
        (Pass.start config seed bound).verdict = .ok .exhausted := by
    rw [hstart, Pass.verdict_relabel, map_eq_ok_iff]
    constructor
    · rintro ⟨witness | _, hverdict, heq⟩
      · exact nomatch heq
      · exact hverdict
    · exact fun hverdict => ⟨.exhausted, hverdict, rfl⟩
  by_cases hrepeat : config.prune = true ∧ (Pass.start config seed bound).verdict = .ok .exhausted
  · rw [search_of_repeated hrepeat, search_of_repeated (hrepeat.imp_right hexhausted.mpr), hstart,
      hstart]
    rfl
  · rw [search_of_single hrepeat, search_of_single fun h => hrepeat (h.imp_right hexhausted.mp),
      hstart]
    rfl

theorem verdict_relabel (run : Run) : (run.relabel ρ).verdict = run.verdict.map (Verdict.relabel ρ) := by
  obtain ⟨seed, first, _ | second⟩ := run
  · exact Pass.verdict_relabel ρ first
  · exact Pass.verdict_relabel ρ second

theorem rounds_relabel (run : Run) : (run.relabel ρ).rounds = run.rounds.map (Round.relabel ρ) := by
  obtain ⟨seed, first, _ | second⟩ := run <;> simp [rounds, passes, relabel, Pass.relabel]

/-- The statistics of a search do not show which facts were searched. -/
theorem statistics_relabel (run : Run) : (run.relabel ρ).statistics = run.statistics := by
  have hseed : (run.relabel ρ).seed.size = run.seed.size := FactSet.size_relabel ρ run.seed
  have hsecond : (run.relabel ρ).second.toList.length = run.second.toList.length := by
    obtain ⟨seed, first, _ | second⟩ := run <;> rfl
  unfold statistics
  rw [hseed, hsecond, rounds_relabel, verdict_relabel, List.foldl_map]
  simp only [Round.statistics_relabel]
  rcases run.verdict with fault | witness | _ <;> rfl

end Run

end LinearRefutation
