import LinearRefutation.Proofs.Elimination.Counts
import LinearRefutation.Proofs.Refuter

/-!
# Statistics account for all work

A refuter is called in three ways, in any order and with any outcome, and keeps one set of counts.
What a call adds to them depends on the call and the config only (`Refuter.exists_contribution`):
nothing if the call is refused, and otherwise the statistics of one search, be it completed or given
up. Rounds that are given up do not count, so that the equations of completed rounds carry over to
sums of their counts. From this, call by call, they hold of the counts after any sequence of calls
(`Refuter.consistent_answers`).
-/

namespace LinearRefutation

/-! ## Sums of statistics -/

namespace Statistics

variable {s t : Statistics} {prune : Bool}

/-- The equations between the counts of completed rounds and passes, with the filter as set. -/
structure Consistent (prune : Bool) (s : Statistics) : Prop where
  pairs : s.pairsTried = s.generated + s.pruned + s.duplicates
  reruns : s.unprunedReruns ≤ s.runs
  unfiltered : prune = false → s.pruned = 0 ∧ s.unprunedReruns = 0

theorem consistent_zero (prune : Bool) : Consistent prune {} := ⟨rfl, le_rfl, fun _ => ⟨rfl, rfl⟩⟩

theorem Consistent.add (hs : s.Consistent prune) (ht : t.Consistent prune) :
    (s + t).Consistent prune where
  pairs := by
    have hpairs := hs.pairs
    have hpairs' := ht.pairs
    show s.pairsTried + t.pairsTried =
      s.generated + t.generated + (s.pruned + t.pruned) + (s.duplicates + t.duplicates)
    omega
  reruns := Nat.add_le_add hs.reruns ht.reruns
  unfiltered hoff := by
    obtain ⟨hpruned, hreruns⟩ := hs.unfiltered hoff
    obtain ⟨hpruned', hreruns'⟩ := ht.unfiltered hoff
    exact ⟨congrArg₂ (· + ·) hpruned hpruned', congrArg₂ (· + ·) hreruns hreruns'⟩

/-- Counts of nothing add nothing. -/
theorem add_zero (s : Statistics) : s + {} = s := by
  show Statistics.mk _ _ _ _ _ _ _ (max s.maxWorkingSet 0) _ = s
  rw [Nat.max_zero]
  rfl

/-- The sum of the statistics of rounds, on top of others. -/
def addRounds (s : Statistics) (rounds : List Round) : Statistics :=
  rounds.foldl (fun sum round => sum + round.statistics) s

theorem Consistent.addRounds {rounds : List Round} (hs : s.Consistent prune)
    (h : ∀ round ∈ rounds, round.statistics.Consistent prune) : (s.addRounds rounds).Consistent prune := by
  induction rounds generalizing s with
  | nil => exact hs
  | cons round rest ih =>
    obtain ⟨hround, hrest⟩ := List.forall_mem_cons.mp h
    exact ih (hs.add hround) hrest

/-- Rounds count as rounds, and not as refutations. -/
theorem addRounds_counts (s : Statistics) (rounds : List Round) :
    (s.addRounds rounds).rounds = s.rounds + rounds.length ∧
      (s.addRounds rounds).refutations = s.refutations := by
  induction rounds generalizing s with
  | nil => exact ⟨rfl, rfl⟩
  | cons round rest ih =>
    obtain ⟨hrounds, hrefutations⟩ := ih (s + round.statistics)
    refine ⟨hrounds.trans ?_, hrefutations⟩
    show s.rounds + 1 + rest.length = s.rounds + (rest.length + 1)
    omega

end Statistics

/-! ## Searches -/

namespace Run

variable {config : Config} {seed : FactSet} {bound : Nat} {round : Round}

theorem consistent_of_mem_rounds (h : round ∈ (search config seed bound).rounds) :
    round.statistics.Consistent config.prune := by
  obtain ⟨e, e', before, hconfig, hround⟩ := exists_eliminate_of_mem_rounds h
  have hbalanced := Eliminator.balanced_of_eliminate hround
  refine ⟨hbalanced.tried, le_rfl, fun hoff => ⟨?_, rfl⟩⟩
  have hunfiltered : e.config.prune = false := by
    rcases hconfig with heq | heq
    · rw [heq, hoff]
    · rw [heq]
      rfl
  exact congrArg List.length (hbalanced.discarded hunfiltered)

theorem consistent_statistics (config : Config) (seed : FactSet) (bound : Nat) :
    (search config seed bound).statistics.Consistent config.prune := by
  refine Statistics.Consistent.addRounds ⟨rfl, ?_, fun hoff => ⟨rfl, ?_⟩⟩
    fun _ => consistent_of_mem_rounds
  · -- at most one pass is a repetition
    show (search config seed bound).second.toList.length ≤ 1
    exact Option.length_toList_le
  · have hsingle : search config seed bound = ⟨seed, Pass.start config seed bound, none⟩ :=
      search_of_single fun hboth => Bool.false_ne_true (hoff.symm.trans hboth.1)
    show (search config seed bound).second.toList.length = 0
    rw [hsingle]
    rfl

theorem statistics_rounds (run : Run) : run.statistics.rounds = run.rounds.length :=
  (Statistics.addRounds_counts _ run.rounds).1.trans (Nat.zero_add _)

theorem statistics_refutations (run : Run) :
    run.statistics.refutations = if run.verdict matches .ok (.refuted _) then 1 else 0 :=
  (Statistics.addRounds_counts _ run.rounds).2

end Run

/-! ## Calls -/

namespace Refuter

/-- The ways to call a refuter: for a verdict with a bound on the variables or without one, or for a
certificate. -/
inductive Call where
  | run (hypotheses : List Comparison) (maxVar : Nat)
  | runAuto (hypotheses : List Comparison)
  | produce (hypotheses : List Comparison) (maxVar : Nat)

/-- What a call returns: a verdict, or a certificate or none, or the fault that prevented it. -/
inductive Reply where
  | verdict (value : Except Fault Verdict)
  | certificate (value : Except Fault (Option Certificate))
deriving DecidableEq

/-- Whether a contradiction is returned. -/
def Reply.isContradiction : Reply → Bool
  | .verdict (.ok (.refuted _)) => true
  | .certificate (.ok (some _)) => true
  | _ => false

/-- Whether exhaustion is returned. -/
def Reply.isExhausted : Reply → Bool
  | .verdict (.ok .exhausted) => true
  | .certificate (.ok none) => true
  | _ => false

namespace Call

/-- The hypotheses that are to be refuted. -/
def hypotheses : Call → List Comparison
  | .run hypotheses _ => hypotheses
  | .runAuto hypotheses => hypotheses
  | .produce hypotheses _ => hypotheses

/-- The bound on the variables that are to be eliminated. -/
def bound : Call → Nat
  | .run _ maxVar => maxVar + 1
  | .runAuto hypotheses => Refuter.bound hypotheses
  | .produce _ maxVar => maxVar + 1

/-- The search that a call makes unless it is refused. -/
def search (config : Config) (call : Call) : Run :=
  Run.search config (FactSet.ofHypotheses call.hypotheses) call.bound

end Call

/-- What a call returns, and the refuter after it. -/
def answer (r : Refuter) : Call → Reply × Refuter
  | .run hypotheses maxVar =>
    (.verdict (r.run hypotheses maxVar).1.value, (r.run hypotheses maxVar).2)
  | .runAuto hypotheses => (.verdict (r.runAuto hypotheses).1.value, (r.runAuto hypotheses).2)
  | .produce hypotheses maxVar =>
    (.certificate (r.produce hypotheses maxVar).1.value, (r.produce hypotheses maxVar).2)

/-- What a sequence of calls returns, and the refuter after it. A call that fails does not end the
sequence. -/
def answers (r : Refuter) : List Call → List Reply × Refuter
  | [] => ([], r)
  | call :: calls =>
    let (reply, next) := r.answer call
    let (replies, last) := next.answers calls
    (reply :: replies, last)

variable {r : Refuter} {call : Call}

/-- A call is refused, or it searches and its reply tells the verdict of the search. -/
theorem answer_cases (r : Refuter) (call : Call) :
    ((r.answer call).2 = r ∧ (r.answer call).1.isContradiction = false ∧
        (r.answer call).1.isExhausted = false) ∨
      (r.answer call).2 = { r with statistics := r.statistics + (call.search r.config).statistics } ∧
        (r.answer call).1.isContradiction =
          ((call.search r.config).verdict matches .ok (.refuted _)) ∧
        (r.answer call).1.isExhausted = ((call.search r.config).verdict matches .ok .exhausted) := by
  have hverdict (value : Except Fault Verdict) :
      (Reply.verdict value).isContradiction = (value matches .ok (.refuted _)) ∧
        (Reply.verdict value).isExhausted = (value matches .ok .exhausted) := by
    rcases value with fault | w | _ <;> exact ⟨rfl, rfl⟩
  have hcertificate (value : Except Fault Verdict) :
      (Reply.certificate (value.map Verdict.certificate?)).isContradiction =
          (value matches .ok (.refuted _)) ∧
        (Reply.certificate (value.map Verdict.certificate?)).isExhausted =
          (value matches .ok .exhausted) := by
    rcases value with fault | w | _ <;> exact ⟨rfl, rfl⟩
  cases call with
  | run hypotheses maxVar =>
    have hanswer : r.answer (.run hypotheses maxVar) =
        (.verdict (r.run hypotheses maxVar).1.value, (r.run hypotheses maxVar).2) := rfl
    rw [hanswer]
    rcases run_cases r hypotheses maxVar with ⟨index, var, -, hrun⟩ | ⟨-, hrun⟩
    · rw [hrun]
      exact .inl ⟨rfl, rfl, rfl⟩
    · rw [hrun]
      exact .inr ⟨rfl, hverdict _⟩
  | runAuto hypotheses => exact .inr ⟨rfl, hverdict _⟩
  | produce hypotheses maxVar =>
    have hanswer : r.answer (.produce hypotheses maxVar) =
        (.certificate ((r.run hypotheses maxVar).1.value.map Verdict.certificate?),
          (r.run hypotheses maxVar).2) := rfl
    rw [hanswer]
    rcases run_cases r hypotheses maxVar with ⟨index, var, -, hrun⟩ | ⟨-, hrun⟩
    · rw [hrun]
      exact .inl ⟨rfl, rfl, rfl⟩
    · rw [hrun]
      exact .inr ⟨rfl, hcertificate _⟩

/-- What a call adds to the counts of a refuter, next to what it returns. -/
structure Contribution (config : Config) (call : Call) (reply : Reply) (added : Statistics) : Prop where
  consistent : added.Consistent config.prune
  refutations : added.refutations = if reply.isContradiction then 1 else 0
  rounds_le : added.rounds ≤ Run.maxPasses config * call.bound
  rounds_eq : reply.isExhausted → added.rounds = Run.maxPasses config * call.bound
  passes : reply.isExhausted → (call.search config).passes.length = Run.maxPasses config ∧
    ∀ pass ∈ (call.search config).passes, pass.rounds.length = call.bound

theorem exists_contribution (r : Refuter) (call : Call) :
    ∃ added, (r.answer call).2 = { r with statistics := r.statistics + added } ∧
      Contribution r.config call (r.answer call).1 added := by
  rcases answer_cases r call with ⟨hrefused, hcontradiction, hexhausted⟩ |
    ⟨hsearched, hcontradiction, hexhausted⟩
  · refine ⟨{}, hrefused.trans (by rw [Statistics.add_zero]), ?_⟩
    exact {
      consistent := Statistics.consistent_zero _
      refutations := by
        rw [hcontradiction]
        rfl
      rounds_le := Nat.zero_le _
      rounds_eq := fun h => absurd (hexhausted.symm.trans h) Bool.false_ne_true
      passes := fun h => absurd (hexhausted.symm.trans h) Bool.false_ne_true }
  · have hverdict (h : (r.answer call).1.isExhausted) :
        (call.search r.config).verdict = .ok .exhausted := by
      rw [hexhausted] at h
      split at h
      next heq => exact heq
      next => exact nomatch h
    refine ⟨(call.search r.config).statistics, hsearched, ?_⟩
    exact {
      consistent := Run.consistent_statistics ..
      refutations := by
        rw [Run.statistics_refutations, hcontradiction]
      rounds_le := by
        rw [Run.statistics_rounds]
        exact Run.length_rounds_le ..
      rounds_eq := fun h => by
        rw [Run.statistics_rounds]
        exact Run.length_rounds_of_exhausted (hverdict h)
      passes := fun h => Run.passes_of_exhausted (hverdict h) }

/-- Sequences of calls keep the counts consistent and count the contradictions that are returned. -/
theorem consistent_answers (calls : List Call) (h : r.statistics.Consistent r.config.prune) :
    (r.answers calls).2.statistics.Consistent r.config.prune ∧
      (r.answers calls).2.statistics.refutations =
        r.statistics.refutations + (r.answers calls).1.countP Reply.isContradiction := by
  induction calls generalizing r with
  | nil => exact ⟨h, rfl⟩
  | cons call calls ih =>
    obtain ⟨added, hnext, hadded⟩ := exists_contribution r call
    have hconsistent : (r.answer call).2.statistics.Consistent (r.answer call).2.config.prune := by
      rw [hnext]
      exact h.add hadded.consistent
    have hconfig : (r.answer call).2.config = r.config := by rw [hnext]
    obtain ⟨hafter, hrefutations⟩ := ih hconsistent
    refine ⟨hconfig ▸ hafter, ?_⟩
    have hfirst : (r.answer call).2.statistics.refutations =
        r.statistics.refutations + if (r.answer call).1.isContradiction then 1 else 0 := by
      rw [hnext, ← hadded.refutations]
      rfl
    show ((r.answer call).2.answers calls).2.statistics.refutations = r.statistics.refutations +
      ((r.answer call).1 :: ((r.answer call).2.answers calls).1).countP Reply.isContradiction
    rw [hrefutations, hfirst, List.countP_cons]
    omega

/-- Statistics account for all work. A completed round tries each fact with a positive coefficient
with each one with a negative coefficient; the combinations are new, taken out by the filter or
repetitions, and the facts after it are those that were left alone and the new ones. After any
sequence of calls since a reset, whatever they return, the pairs tried are the combinations that are
new, taken out or repetitions, there are as many refutations as contradictions were returned and no
more repetitions of passes than searches, and without the filter nothing was taken out or repeated.
A call that returns exhaustion makes two passes if the filter is on and one if it is off, with a
round for every variable below its bound in each, and no call adds more rounds than that. -/
theorem statistics_account :
    (∀ (e e' : Eliminator) (var : Nat) (facts : FactSet) (round : Round),
      e.eliminate var facts = (.ok round, e') →
        (round.var = var ∧ round.before = facts) ∧
          round.pairs = round.positive * round.negative ∧
          round.pairs = round.generated + round.pruned + round.duplicates ∧
          round.facts.size = round.untouched + round.generated) ∧
      (∀ (r : Refuter) (calls : List Call),
        let replies := (r.resetStatistics.answers calls).1
        let s := (r.resetStatistics.answers calls).2.statistics
        s.pairsTried = s.generated + s.pruned + s.duplicates ∧
          s.refutations = replies.countP Reply.isContradiction ∧
          s.unprunedReruns ≤ s.runs ∧
          (r.config.prune = false → s.pruned = 0 ∧ s.unprunedReruns = 0)) ∧
      ∀ (r : Refuter) (call : Call),
        let passes := if r.config.prune then 2 else 1
        (r.answer call).2.statistics.rounds ≤ r.statistics.rounds + passes * call.bound ∧
          ((r.answer call).1.isExhausted →
            (r.answer call).2.statistics.rounds = r.statistics.rounds + passes * call.bound ∧
              (call.search r.config).passes.length = passes ∧
              ∀ pass ∈ (call.search r.config).passes, pass.rounds.length = call.bound) := by
  refine ⟨fun e e' var facts round h => ?_, fun r calls => ?_, fun r call => ?_⟩
  · have hbalanced := Eliminator.balanced_of_eliminate h
    obtain ⟨g, -, rfl, -⟩ := Eliminator.eliminate_eq_ok_iff.mp h
    exact ⟨⟨rfl, rfl⟩, Eliminator.pairs_of_eliminate h, hbalanced.tried, hbalanced.size⟩
  · obtain ⟨hconsistent, hrefutations⟩ :=
      consistent_answers (r := r.resetStatistics) calls (Statistics.consistent_zero _)
    exact ⟨hconsistent.pairs, hrefutations.trans (Nat.zero_add _), hconsistent.reruns,
      hconsistent.unfiltered⟩
  · obtain ⟨added, hnext, hadded⟩ := exists_contribution r call
    rw [hnext]
    refine ⟨Nat.add_le_add_left hadded.rounds_le _, fun h => ⟨?_, hadded.passes h⟩⟩
    exact congrArg (r.statistics.rounds + ·) (hadded.rounds_eq h)

/-- Four calls with a limit of three pairs: one that is exhausted, in two passes of two rounds, one
that is refused, one that is given up in its first round, and one with a contradiction. Without a
limit the round that is given up tries four pairs, half of them repetitions. -/
theorem statistics_account_mixed :
    let r : Refuter := { config := { maxPairs := some 3 } }
    let bounded : List Comparison := [⟨.le, .ofTerms [(0, 1), (1, 1)]⟩, ⟨.le, .ofTerms [(1, -1)]⟩]
    let crossing : List Comparison := [⟨.le, .ofTerms [(0, 1)]⟩, ⟨.lt, .ofTerms [(0, 2)]⟩,
      ⟨.le, .ofTerms [(0, -1)]⟩, ⟨.lt, .ofTerms [(0, -1)]⟩]
    let opposed : List Comparison := [⟨.le, .ofTerms [(0, 1)]⟩, ⟨.lt, .ofTerms [(0, -1)]⟩]
    let calls : List Call :=
      [.run bounded 1, .run bounded 0, .runAuto crossing, .produce opposed 0]
    let s := (r.resetStatistics.answers calls).2.statistics
    (s.runs = 3 ∧ s.rounds = 5 ∧ s.pairsTried = 3 ∧ s.unprunedReruns = 1 ∧ s.refutations = 1) ∧
      s.pairsTried = s.generated + s.pruned + s.duplicates ∧
      s.refutations = (r.resetStatistics.answers calls).1.countP Reply.isContradiction ∧
      (r.answer (.run bounded 1)).2.statistics.rounds = 0 + 2 * 2 ∧
      ∃ round e', Eliminator.eliminate { config := .unlimited } 0 (FactSet.ofHypotheses crossing) =
          (.ok round, e') ∧
        (round.pairs = 4 ∧ round.generated = 2 ∧ round.duplicates = 2) ∧
        round.pairs = round.positive * round.negative ∧
        round.pairs = round.generated + round.pruned + round.duplicates := by
  intro r bounded crossing opposed calls s
  obtain ⟨hround, hcalls, hcall⟩ := statistics_account
  obtain ⟨hpairs, hrefutations, -, -⟩ := hcalls r calls
  have hexhausted : (r.answer (.run bounded 1)).1.isExhausted := by decide +kernel
  refine ⟨by decide +kernel, hpairs, hrefutations, ((hcall r (.run bounded 1)).2 hexhausted).1, ?_⟩
  have hcounts : (Eliminator.eliminate { config := .unlimited } 0
      (FactSet.ofHypotheses crossing)).1.toOption.map (fun round =>
        decide (round.pairs = 4 ∧ round.generated = 2 ∧ round.duplicates = 2)) = some true := by
    decide +kernel
  rcases heliminate : Eliminator.eliminate { config := .unlimited } 0
    (FactSet.ofHypotheses crossing) with ⟨abort | round, e'⟩
  · rw [heliminate] at hcounts
    exact nomatch hcounts
  · rw [heliminate] at hcounts
    obtain ⟨-, hproduct, hsum, -⟩ := hround _ _ _ _ _ heliminate
    exact ⟨round, e', rfl, of_decide_eq_true (Option.some.inj hcounts), hproduct, hsum⟩

end Refuter

end LinearRefutation
