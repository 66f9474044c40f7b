import LinearRefutation.Proofs.Elimination.Tracing

/-!
# The stages of a search

A `Stage` is a set of facts that a pass comes by when the variables below a bound are still to be
eliminated. What all facts searched have and combining preserves, the facts of every stage have
(`Stage.invariant`), and the variables eliminated no longer occur in them (`Stage.bounded`).

The rounds that a pass tries, completed or given up, start from the stages of their variables
(`Pass.exists_stage_of_start`). Whatever the filter takes out of one of them combines two facts of
its stage and fails the test (`Run.exists_stage_of_discarded`).
-/

namespace LinearRefutation

/-- The sets of facts that a pass comes by, with the variables below a bound still to be
eliminated. -/
inductive Stage (seed : FactSet) (top : Nat) : Nat → FactSet → Prop
  | seed : Stage seed top top seed
  | next {e e' : Eliminator} {var : Nat} {facts : FactSet} {round : Round}
    (stage : Stage seed top (var + 1) facts) (eq : e.eliminate var facts = (.ok round, e')) :
    Stage seed top var round.facts

namespace Stage

variable {seed facts : FactSet} {top bound : Nat}

/-- What all facts searched have and combining preserves, the facts of every stage have. -/
theorem invariant {P : Fact → Prop}
    (combine : ∀ {p q f var}, P p → P q → p.combined? q var = some f → P f)
    (h : Stage seed top bound facts) (holds : ∀ p ∈ seed, P p) : ∀ p ∈ facts, P p := by
  induction h with
  | seed => exact holds
  | next _ eq ih => exact Eliminator.invariant_of_eliminate combine eq ih

theorem bounded (h : Stage seed top bound facts) (below : FactSet.Below seed top) :
    FactSet.Below facts bound := by
  induction h with
  | seed => exact below
  | next _ eq ih => exact Eliminator.below_of_eliminate eq ih

end Stage

/-! ## Discarded combinations -/

/-- A combination of two facts of a set that the filter rejects. -/
def FactSet.Rejects (facts : FactSet) (var : Nat) (d : Fact) : Prop :=
  ∃ p ∈ facts, ∃ q ∈ facts, p.combined? q var = some d ∧ ¬ d.mayBeMinimal var

namespace Gathering

variable {g : Gathering} {prune : Bool} {var : Nat} {f d : Fact}

/-- Taking in a combination discards at most that one, and only if it fails the test. -/
theorem mem_discarded_take (h : d ∈ (g.take prune var f).discarded) :
    d ∈ g.discarded ∨ d = f ∧ ¬ f.mayBeMinimal var := by
  rcases g.take_cases prune var f with ⟨hfails, htake⟩ | ⟨-, ⟨-, htake⟩ | ⟨known, -, htake⟩⟩
  · rw [htake] at h
    refine (List.mem_cons.mp h).symm.imp_right fun heq => ⟨heq, fun hminimal => ?_⟩
    exact hfails fun _ => hminimal
  · rw [htake] at h
    exact .inl h
  · rw [htake] at h
    exact .inl h

/-- The filter logs what it discards. -/
theorem discarded_mem_events {a : Nat} :
    Event.discarded a d ∈ g.events var ↔ a = var ∧ d ∈ g.discarded := by
  unfold events
  rw [List.mem_map]
  constructor
  · rintro ⟨d', hd', heq⟩
    obtain ⟨rfl, rfl⟩ := Event.discarded.inj heq
    exact ⟨rfl, List.mem_reverse.mp hd'⟩
  · rintro ⟨rfl, hd⟩
    exact ⟨d, List.mem_reverse.mpr hd, rfl⟩

end Gathering

namespace Eliminator

variable {e e' : Eliminator} {var : Nat} {facts : FactSet} {d : Fact}

/-- With the combination of an opposed pair taken in, only rejected combinations are discarded. -/
theorem rejects_take {prune : Bool} {pair : Fact × Fact} {g : Gathering} {f : Fact}
    (hpair : pair ∈ FactSet.opposed facts var) (hsome : pair.1.combined? pair.2 var = some f)
    (h : ∀ d ∈ g.discarded, facts.Rejects var d) :
    ∀ d ∈ (g.tick.take prune var f).discarded, facts.Rejects var d := by
  intro d hd
  rcases Gathering.mem_discarded_take hd with hold | ⟨rfl, hfails⟩
  · exact h d hold
  · obtain ⟨⟨hl, -⟩, hr, -⟩ := FactSet.mem_opposed.mp hpair
    exact ⟨pair.1, hl, pair.2, hr, hsome, hfails⟩

/-- A round discards rejected combinations only, whether or not it is completed. -/
theorem rejects_of_mem_events {a : Nat} {result : Except Abort Round}
    (h : e.eliminate var facts = (result, e'))
    (hd : Event.discarded a d ∈ Eliminator.events var result) : a = var ∧ facts.Rejects var d := by
  have start : ∀ d ∈ ({ facts := FactSet.absent facts var } : Gathering).discarded,
      facts.Rejects var d := fun _ hmem => nomatch hmem
  cases result with
  | ok round =>
    obtain ⟨g, hgather, rfl, -⟩ := eliminate_eq_ok_iff.mp h
    obtain ⟨rfl, hmem⟩ := Gathering.discarded_mem_events.mp hd
    exact ⟨rfl, gather_induction (I := fun _ g => ∀ d ∈ g.discarded, facts.Rejects a d) start
      (fun _ _ _ _ hpair hsome _ _ => rejects_take hpair hsome) hgather d hmem⟩
  | error abort =>
    obtain ⟨rfl, hmem⟩ := Gathering.discarded_mem_events.mp hd
    exact ⟨rfl, (abort_induction (P := fun g => ∀ d ∈ g.discarded, facts.Rejects a d) start
      (fun _ hg => hg) (fun _ _ _ => rejects_take) (eliminate_eq_error h)).2 d hmem⟩

end Eliminator

namespace Pass

/-- The rounds that a pass tries, with what comes of each: the completed ones and the one given
up. -/
inductive Tries (pass : Pass) : Nat → Except Abort Round → Prop
  | completed {round : Round} (mem : round ∈ pass.rounds) : Tries pass round.var (.ok round)
  | aborted {var : Nat} {abort : Abort} (eq : pass.ending = .aborted var abort) :
    Tries pass var (.error abort)

variable {seed facts : FactSet} {config : Config} {top bound var : Nat}
  {result : Except Abort Round}

/-- A pass that neither completes nor gives up a round tries none. -/
theorem not_tries {pass : Pass} (hrounds : pass.rounds = [])
    (hending : ∀ var abort, pass.ending ≠ .aborted var abort) : ¬ pass.Tries var result := by
  intro h
  cases h with
  | completed hmem =>
    rw [hrounds] at hmem
    exact List.not_mem_nil hmem
  | aborted heq => exact hending _ _ heq

/-- A pass that descends eliminates one variable and goes on, if it does, with what is left. -/
theorem tries_descend {e : Eliminator} {a : Nat} (h : (descend e facts (var + 1)).Tries a result) :
    (a = var ∧ (e.eliminate var facts).1 = result) ∨
      ∃ round e', e.eliminate var facts = (.ok round, e') ∧
        (descend e' round.facts var).Tries a result := by
  -- the round is given up, or it ends the pass, or the pass goes on
  rcases hround : e.eliminate var facts with ⟨abort | round, e'⟩
  · rw [descend_of_aborted hround] at h
    cases h with
    | completed hmem => exact nomatch hmem
    | aborted heq =>
      obtain ⟨rfl, rfl⟩ := Ending.aborted.inj heq
      exact .inl ⟨rfl, rfl⟩
  · obtain ⟨g, -, rfl, -⟩ := Eliminator.eliminate_eq_ok_iff.mp hround
    cases hfind : FactSet.contradiction? (Round.facts ⟨var, facts, g⟩) with
    | some w =>
      rw [descend_of_refuted hround hfind] at h
      cases h with
      | completed hmem =>
        obtain rfl := List.mem_singleton.mp hmem
        exact .inl ⟨rfl, rfl⟩
      | aborted heq => exact nomatch heq
    | none =>
      rw [descend_of_next hround hfind] at h
      cases h with
      | completed hmem =>
        rcases List.mem_cons.mp hmem with rfl | hlater
        · exact .inl ⟨rfl, rfl⟩
        · exact .inr ⟨_, e', rfl, .completed hlater⟩
      | aborted heq => exact .inr ⟨_, e', rfl, .aborted heq⟩

theorem exists_stage_of_descend {e : Eliminator} (stage : Stage seed top bound facts)
    (h : (descend e facts bound).Tries var result) :
    ∃ (e₀ e' : Eliminator) (before : FactSet), e₀.config = e.config ∧
      Stage seed top (var + 1) before ∧ e₀.eliminate var before = (result, e') := by
  induction bound generalizing e facts with
  | zero => exact absurd h (not_tries rfl fun _ _ heq => nomatch heq)
  | succ next ih =>
    rcases tries_descend h with ⟨rfl, hresult⟩ | ⟨round, e', hround, hlater⟩
    · exact ⟨e, (e.eliminate var facts).2, facts, rfl, stage, Prod.ext hresult rfl⟩
    · rw [← (Eliminator.eliminate_eq_ok hround).1]
      exact ih (stage.next hround) hlater

/-- A round that a pass tries starts from the stage at which its variable is eliminated, under the
config of the pass. -/
theorem exists_stage_of_start (h : (start config seed bound).Tries var result) :
    ∃ (e e' : Eliminator) (before : FactSet), e.config = config ∧
      Stage seed bound (var + 1) before ∧ e.eliminate var before = (result, e') := by
  cases hfind : FactSet.contradiction? seed with
  | some w =>
    rw [start_of_refuted hfind] at h
    exact absurd h (not_tries rfl fun _ _ heq => nomatch heq)
  | none =>
    cases hsize : config.checkWorkingSet seed.size with
    | error fault =>
      rw [start_of_overfull hfind hsize] at h
      exact absurd h (not_tries rfl fun _ _ heq => nomatch heq)
    | ok _ =>
      rw [start_of_fits hfind hsize] at h
      exact exists_stage_of_descend .seed h

/-- What a pass discards it discards in one of its rounds. -/
theorem exists_tries_of_discarded {pass : Pass} {a : Nat} {d : Fact}
    (h : Event.discarded a d ∈ pass.events) :
    ∃ var result, pass.Tries var result ∧ Event.discarded a d ∈ Eliminator.events var result := by
  rcases List.mem_append.mp h with hrounds | hending
  · obtain ⟨round, hround, hd⟩ := List.mem_flatMap.mp hrounds
    refine ⟨round.var, .ok round, .completed hround, ?_⟩
    simpa [Round.events, Eliminator.events] using hd
  · cases heq : pass.ending with
    | finished verdict => simp [heq, Ending.events] at hending
    | overfull fault => simp [heq, Ending.events] at hending
    | aborted var abort =>
      refine ⟨var, .error abort, .aborted heq, ?_⟩
      simpa [heq, Ending.events, Eliminator.events] using hending

end Pass

namespace Run

/-- A search is made of passes from the facts searched, with the filter as set or off. -/
theorem eq_start_of_mem_passes {config : Config} {seed : FactSet} {bound : Nat} {pass : Pass}
    (h : pass ∈ (search config seed bound).passes) :
    ∃ config', (config' = config ∨ config' = config.withPruning false) ∧
      pass = Pass.start config' seed bound := by
  rcases List.mem_cons.mp h with rfl | hsecond
  · exact ⟨config, .inl rfl, rfl⟩
  · refine ⟨config.withPruning false, .inr rfl, ?_⟩
    by_cases hrepeat : config.prune = true ∧ (Pass.start config seed bound).verdict = .ok .exhausted
    · rw [search_of_repeated hrepeat] at hsecond
      exact List.mem_singleton.mp hsecond
    · rw [search_of_single hrepeat] at hsecond
      exact nomatch hsecond

/-- Only passes discard. -/
theorem exists_pass_of_discarded {run : Run} {a : Nat} {d : Fact}
    (h : Event.discarded a d ∈ run.events) : ∃ pass ∈ run.passes, Event.discarded a d ∈ pass.events := by
  obtain ⟨seed, first, second⟩ := run
  rcases List.mem_append.mp h with hpasses | hclosing
  · rcases List.mem_append.mp hpasses with hfirst | hsecond
    · exact ⟨first, List.mem_cons_self, hfirst⟩
    · cases second with
      | none => exact nomatch hsecond
      | some pass =>
        refine ⟨pass, List.mem_cons_of_mem _ List.mem_cons_self, ?_⟩
        simpa using hsecond
  · -- the closing event tells the verdict
    split at hclosing <;> simp at hclosing

/-- Whatever a search discards is rejected at the stage at which its variable is eliminated. -/
theorem exists_stage_of_discarded {config : Config} {seed : FactSet} {bound a : Nat} {d : Fact}
    (h : Event.discarded a d ∈ (search config seed bound).events) :
    ∃ facts, Stage seed bound (a + 1) facts ∧ facts.Rejects a d := by
  obtain ⟨pass, hpass, hpassed⟩ := exists_pass_of_discarded h
  obtain ⟨config', -, rfl⟩ := eq_start_of_mem_passes hpass
  obtain ⟨var, result, htries, hd⟩ := Pass.exists_tries_of_discarded hpassed
  obtain ⟨e, e', facts, -, stage, hround⟩ := Pass.exists_stage_of_start htries
  obtain ⟨rfl, hrejects⟩ := Eliminator.rejects_of_mem_events hround hd
  exact ⟨facts, stage, hrejects⟩

end Run

end LinearRefutation
