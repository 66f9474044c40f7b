import LinearRefutation.Proofs.Elimination.Cost
import LinearRefutation.Proofs.Elimination.Search

/-!
# What the filter changes

A pass with the filter runs beside one without it. The facts of the two differ in their derivations
and histories, and the first may hold fewer of them, but whatever it states is stated by the second
as well; so its rounds try no more pairs and hold no more facts, and no limit is hit that the second
keeps (`Eliminator.Covers.eliminate`). Hence a pass with the filter completes at least as many
rounds as the pass without it, unless it comes upon a contradiction first
(`Pass.refuted_or_rounds_le`).

It may complete more: a contradiction that the filter discards is only found again in a later round,
and that round is charged to the same limits.
-/

namespace LinearRefutation

/-! ## Rounds side by side -/

/-- What a combination states depends only on what the combined facts state. -/
theorem Fact.exists_combined?_of_comparison_eq {p q p' q' f : Fact} {var : Nat}
    (hp : p'.comparison = p.comparison) (hq : q'.comparison = q.comparison)
    (h : p.combined? q var = some f) :
    ∃ f', p'.combined? q' var = some f' ∧ f'.comparison = f.comparison := by
  obtain ⟨factors, hcancel, rfl⟩ := Option.map_eq_some_iff.mp h
  refine ⟨_, Option.map_eq_some_iff.mpr ⟨factors, ?_, rfl⟩, ?_⟩
  · rw [hp, hq, hcancel]
  · show factors.1 • p'.comparison + factors.2 • q'.comparison = _
    rw [hp, hq]
    rfl

/-- Without the filter, facts that state at least as much have outcomes that state at least as
much. -/
theorem FactSet.Outcome.exists_unfiltered {facts facts' : FactSet} {prune : Bool} {var : Nat} {p : Fact}
    (states : ∀ c, facts.States c → facts'.States c) (h : FactSet.Outcome facts prune var p) :
    ∃ p', FactSet.Outcome facts' false var p' ∧ p'.comparison = p.comparison := by
  cases h with
  | untouched mem absent =>
    obtain ⟨p', hp', heq⟩ := states _ ⟨p, mem, rfl⟩
    exact ⟨p', .untouched hp' (heq ▸ absent), heq⟩
  | @combined l r _ left right pos neg eq _ =>
    obtain ⟨l', hl', hleq⟩ := states _ ⟨l, left, rfl⟩
    obtain ⟨r', hr', hreq⟩ := states _ ⟨r, right, rfl⟩
    obtain ⟨p', hsome, hpeq⟩ := Fact.exists_combined?_of_comparison_eq hleq hreq eq
    have hpass : p'.Passes false var := fun hon => nomatch hon
    exact ⟨p', .combined hl' hr' (hleq ▸ pos) (hreq ▸ neg) hsome hpass, hpeq⟩

namespace Eliminator

/-- An elimination without the filter covers another one with the same limits: it is within its
limit, has spent at least as many pairs, and states whatever the other one states. -/
structure Covers (wide : Eliminator) (wideFacts : FactSet) (e : Eliminator) (facts : FactSet) :
    Prop where
  unfiltered : wide.config.prune = false
  maxPairs : e.config.maxPairs = wide.config.maxPairs
  maxWorkingSet : e.config.maxWorkingSet = wide.config.maxWorkingSet
  affordable : Config.Within wide.config.maxPairs wide.spent
  spent : e.spent ≤ wide.spent
  states : ∀ c, facts.States c → wideFacts.States c

variable {wide wide' e : Eliminator} {wideFacts facts : FactSet} {var : Nat} {wideRound : Round}

/-- A round that is covered by a completed one is completed, and stays covered. -/
theorem Covers.eliminate (h : wide.Covers wideFacts e facts)
    (hwide : wide.eliminate var wideFacts = (.ok wideRound, wide')) :
    ∃ round e', e.eliminate var facts = (.ok round, e') ∧
      wide'.Covers wideRound.facts e' round.facts := by
  obtain ⟨w, hgather, rfl, rfl⟩ := eliminate_eq_ok_iff.mp hwide
  obtain ⟨htried, hpairs, hroom⟩ := gather_cost h.affordable hgather
  have hopposed : (FactSet.opposed facts var).length ≤ w.tried :=
    htried ▸ FactSet.length_opposed_le_of_states h.states
  -- whatever the narrow round may hold is stated by what the wide one holds
  have hstated {p : Fact} (hp : FactSet.Outcome facts e.config.prune var p) :
      w.facts.States p.comparison := by
    obtain ⟨p', hp', heq⟩ := hp.exists_unfiltered h.states
    exact heq ▸ (gather_eq_ok hgather).2 p' (h.unfiltered ▸ hp')
  obtain ⟨g, hg⟩ : ∃ g, e.gather var facts = .ok g := by
    apply exists_gather
    · rw [h.maxPairs]
      exact hpairs.mono (Nat.add_le_add h.spent hopposed)
    · intro s hs
      rw [h.maxWorkingSet]
      refine hroom.mono (FactSet.size_le_of_states fun c hc => ?_)
      obtain ⟨p, hp, rfl⟩ := hc
      exact hstated (hs p hp)
  have hcharged : g.tried = (FactSet.opposed facts var).length :=
    (gather_cost (h.maxPairs ▸ h.affordable.mono h.spent) hg).1
  refine ⟨_, _, eliminate_eq_ok_iff.mpr ⟨g, hg, rfl, rfl⟩, ?_⟩
  exact {
    unfiltered := h.unfiltered
    maxPairs := h.maxPairs
    maxWorkingSet := h.maxWorkingSet
    affordable := hpairs
    spent := Nat.add_le_add h.spent (hcharged ▸ hopposed)
    states := by
      rintro c ⟨p, hp, rfl⟩
      exact hstated ((gather_eq_ok hg).1 p hp) }

end Eliminator

/-! ## Passes side by side -/

namespace Pass

variable {e : Eliminator} {facts : FactSet} {bound : Nat}

/-- A pass completes at most one round for every variable below the bound. One that exhausts its
facts completes them all, and one that is given up does not. -/
theorem length_rounds_descend (e : Eliminator) (facts : FactSet) (bound : Nat) :
    (descend e facts bound).rounds.length ≤ bound ∧
      ((descend e facts bound).verdict = .ok .exhausted →
        (descend e facts bound).rounds.length = bound) ∧
      ∀ fault, (descend e facts bound).verdict = .error fault →
        (descend e facts bound).rounds.length < bound := by
  induction bound generalizing e facts with
  | zero => exact ⟨le_rfl, fun _ => rfl, fun _ h => nomatch h⟩
  | succ var ih =>
    rcases hround : e.eliminate var facts with ⟨abort | round, e'⟩
    · rw [descend_of_aborted hround]
      exact ⟨Nat.zero_le _, fun h => (nomatch h), fun _ _ => Nat.succ_pos var⟩
    · cases hfind : FactSet.contradiction? round.facts with
      | some w =>
        rw [descend_of_refuted hround hfind]
        exact ⟨Nat.succ_le_succ (Nat.zero_le _), fun h => (nomatch h), fun _ h => nomatch h⟩
      | none =>
        rw [descend_of_next hround hfind]
        obtain ⟨hle, hexhausted, herror⟩ := ih e' round.facts
        exact ⟨Nat.succ_le_succ hle, fun h => congrArg (· + 1) (hexhausted h),
          fun fault h => Nat.succ_lt_succ (herror fault h)⟩

/-- A pass that is covered finds a contradiction or completes at least as many rounds. -/
theorem refuted_or_rounds_le_of_covers {wide : Eliminator} {wideFacts : FactSet}
    (h : wide.Covers wideFacts e facts) (bound : Nat) :
    (∃ w, (descend e facts bound).verdict = .ok (.refuted w)) ∨
      (descend wide wideFacts bound).rounds.length ≤ (descend e facts bound).rounds.length := by
  -- round by round, as long as the wide pass completes its rounds
  induction bound generalizing wide wideFacts e facts with
  | zero => exact .inr le_rfl
  | succ var ih =>
    rcases hwide : wide.eliminate var wideFacts with ⟨abort | wideRound, wide'⟩
    · rw [descend_of_aborted hwide]
      exact .inr (Nat.zero_le _)
    obtain ⟨round, e', hround, hcovers⟩ := h.eliminate hwide
    cases hfind : FactSet.contradiction? round.facts with
    | some w =>
      rw [descend_of_refuted hround hfind]
      exact .inl ⟨w, rfl⟩
    | none =>
      rw [descend_of_next hround hfind]
      cases hwideFind : FactSet.contradiction? wideRound.facts with
      | some w =>
        rw [descend_of_refuted hwide hwideFind]
        exact .inr (Nat.succ_le_succ (Nat.zero_le _))
      | none =>
        rw [descend_of_next hwide hwideFind]
        exact (ih hcovers).imp_right Nat.succ_le_succ

variable {config : Config}

/-- The pass without the filter covers the pass with it from the start. -/
theorem covers_start (config : Config) (facts : FactSet) :
    Eliminator.Covers { config := config.withPruning false } facts
      { config := config.withPruning true } facts where
  unfiltered := rfl
  maxPairs := rfl
  maxWorkingSet := rfl
  affordable := Config.within_zero _
  spent := le_rfl
  states _ hc := hc

/-- The filter plays no part in how a pass begins: on a contradiction, on too many facts, or with
the first round. -/
theorem start_cases (config : Config) (facts : FactSet) (bound : Nat) :
    (∃ w, ∀ prune, start (config.withPruning prune) facts bound =
        ⟨[], facts, .finished (.refuted w)⟩) ∨
      (∃ fault, ∀ prune, start (config.withPruning prune) facts bound = ⟨[], facts, .overfull fault⟩) ∨
        ∀ prune, start (config.withPruning prune) facts bound =
          descend { config := config.withPruning prune } facts bound := by
  have hsize (prune : Bool) : (config.withPruning prune).checkWorkingSet facts.size =
      config.checkWorkingSet facts.size := rfl
  cases hfind : FactSet.contradiction? facts with
  | some w => exact .inl ⟨w, fun _ => start_of_refuted hfind⟩
  | none =>
    cases hcheck : config.checkWorkingSet facts.size with
    | error fault =>
      exact .inr (.inl ⟨fault, fun prune => start_of_overfull hfind ((hsize prune).trans hcheck)⟩)
    | ok _ => exact .inr (.inr fun prune => start_of_fits hfind ((hsize prune).trans hcheck))

/-- The filter never makes a pass end early, except with a contradiction. -/
theorem refuted_or_rounds_le (config : Config) (facts : FactSet) (bound : Nat) :
    (∃ w, (start (config.withPruning true) facts bound).verdict = .ok (.refuted w)) ∨
      (start (config.withPruning false) facts bound).rounds.length ≤
        (start (config.withPruning true) facts bound).rounds.length := by
  rcases start_cases config facts bound with ⟨w, heq⟩ | ⟨fault, heq⟩ | heq
  · exact .inl ⟨w, heq true ▸ rfl⟩
  · rw [heq, heq]
    exact .inr le_rfl
  · rw [heq, heq]
    exact refuted_or_rounds_le_of_covers (covers_start config facts) bound

/-- Facts that the pass without the filter exhausts are exhausted or refuted by the pass with it. -/
theorem exhausted_or_refuted
    (h : (start (config.withPruning false) facts bound).verdict = .ok .exhausted) :
    (start (config.withPruning true) facts bound).verdict = .ok .exhausted ∨
      ∃ w, (start (config.withPruning true) facts bound).verdict = .ok (.refuted w) := by
  rcases start_cases config facts bound with ⟨w, heq⟩ | ⟨fault, heq⟩ | heq
  · exact .inr ⟨w, heq true ▸ rfl⟩
  · rw [heq] at h
    exact nomatch h
  · rw [heq] at h ⊢
    rcases refuted_or_rounds_le_of_covers (covers_start config facts) bound with hrefuted | hle
    · exact .inr hrefuted
    · rw [(length_rounds_descend ..).2.1 h] at hle
      cases hverdict : (descend { config := config.withPruning true } facts bound).verdict with
      | error fault =>
        -- a pass with a completed round for every variable is not given up
        exact absurd ((length_rounds_descend ..).2.2 fault hverdict) (Nat.not_lt.mpr hle)
      | ok verdict =>
        cases verdict with
        | exhausted => exact .inl rfl
        | refuted w => exact .inr ⟨w, rfl⟩

end Pass

end LinearRefutation
