import Mathlib.Data.List.Perm.Subperm
import LinearRefutation.Proofs.Elimination.Step

/-!
# What a round costs

A round tries every opposed pair once and holds, at any time, only outcomes of the round. What it
gathers is a fold over the combinations of these pairs that knows of no limits (`FactSet.gathered`),
and it is completed exactly if the limits afford the result (`Eliminator.gather_eq_ok_iff`):
whenever the limit on pairs covers all opposed pairs and the limit on facts covers every set of
outcomes (`Eliminator.exists_gather`). What a completed round has spent and holds is within the
limits (`Eliminator.gather_cost`).

The size of a set of facts is the number of comparisons that it states, so a set that states no more
than another is not larger and opposes no more pairs (`FactSet.length_opposed_le_of_states`).
-/

namespace LinearRefutation

/-! ## Sizes -/

namespace FactSet

variable {facts facts' : FactSet} {var : Nat}

/-- No two facts of a set have the same comparison. -/
theorem nodup_comparisons (facts : FactSet) : (facts.toList.map Fact.comparison).Nodup := by
  refine List.pairwise_map.mpr (facts.ascending.imp fun {p q} hlt heq => ?_)
  rw [Std.compare_eq_iff_eq.mpr heq] at hlt
  exact nomatch hlt

/-- A set of facts that states no more than another is not larger. -/
theorem size_le_of_states (h : ∀ c, facts.States c → facts'.States c) : facts.size ≤ facts'.size := by
  have subset : facts.toList.map Fact.comparison ⊆ facts'.toList.map Fact.comparison := by
    intro c hc
    obtain ⟨p, hp, hpc⟩ := List.mem_map.mp hc
    obtain ⟨q, hq, hqc⟩ := h c ⟨p, hp, hpc⟩
    exact List.mem_map.mpr ⟨q, hq, hqc⟩
  have hle := (List.subperm_of_subset facts.nodup_comparisons subset).length_le
  rwa [List.length_map, List.length_map] at hle

/-- Picking facts by their comparisons picks comparisons that are stated. -/
theorem states_filter {pick : Comparison → Bool} {c : Comparison} :
    FactSet.States (facts.filter fun p => pick p.comparison) c ↔ facts.States c ∧ pick c := by
  unfold States
  simp only [Ascending.mem_filter]
  constructor
  · rintro ⟨p, ⟨hp, hpick⟩, rfl⟩
    exact ⟨⟨p, hp, rfl⟩, hpick⟩
  · rintro ⟨⟨p, hp, rfl⟩, hpick⟩
    exact ⟨p, ⟨hp, hpick⟩, rfl⟩

theorem size_filter_le_of_states (pick : Comparison → Bool)
    (h : ∀ c, facts.States c → facts'.States c) :
    Ascending.size (facts.filter fun p => pick p.comparison) ≤
      Ascending.size (facts'.filter fun p => pick p.comparison) := by
  apply size_le_of_states
  intro c hc
  obtain ⟨hstates, hpick⟩ := states_filter.mp hc
  exact states_filter.mpr ⟨h c hstates, hpick⟩

/-- Every fact with a positive coefficient is opposed to every fact with a negative one. -/
theorem length_opposed (facts : FactSet) (var : Nat) :
    (FactSet.opposed facts var).length =
      (FactSet.positive facts var).size * (FactSet.negative facts var).size := by
  unfold opposed Ascending.size
  simp [List.length_flatMap]

theorem length_opposed_le_of_states (h : ∀ c, facts.States c → facts'.States c) :
    (FactSet.opposed facts var).length ≤ (FactSet.opposed facts' var).length := by
  rw [length_opposed, length_opposed]
  exact Nat.mul_le_mul
    (size_filter_le_of_states (fun c => decide (0 < c.coeff var)) h)
    (size_filter_le_of_states (fun c => decide (c.coeff var < 0)) h)

end FactSet

/-! ## What a round gathers -/

namespace Gathering

variable {g : Gathering} {prune : Bool} {var : Nat} {f : Fact}

@[simp]
theorem tried_take (g : Gathering) (prune : Bool) (var : Nat) (f : Fact) :
    (g.take prune var f).tried = g.tried := by
  rcases g.take_cases prune var f with ⟨-, htake⟩ | ⟨-, ⟨-, htake⟩ | ⟨known, -, htake⟩⟩
  all_goals rw [htake]

/-- Taking in a combination may put it in the place of a fact, but never leaves fewer facts. -/
theorem size_le_take : g.facts.size ≤ (g.take prune var f).facts.size :=
  FactSet.size_le_of_states fun _ hc => states_take.mpr (.inl hc)

/-- What has been gathered after a further pair, when no limit stops the round. -/
def next (g : Gathering) (prune : Bool) (var : Nat) (pair : Fact × Fact) : Gathering :=
  (pair.1.combined? pair.2 var).elim g (g.tick.take prune var)

theorem next_of_some {pair : Fact × Fact} (h : pair.1.combined? pair.2 var = some f) :
    g.next prune var pair = g.tick.take prune var f := by
  unfold next
  rw [h]
  rfl

end Gathering

namespace FactSet

/-- The combinations of opposed facts, in the order in which a round forms them. -/
def combinations (facts : FactSet) (var : Nat) : List Fact :=
  (opposed facts var).filterMap fun pair => pair.1.combined? pair.2 var

/-- What a round gathers when no limit stops it. -/
def gathered (facts : FactSet) (prune : Bool) (var : Nat) : Gathering :=
  (combinations facts var).foldl (fun g f => g.tick.take prune var f) { facts := absent facts var }

/-- The round takes in pair after pair. -/
theorem gathered_eq_foldl (facts : FactSet) (prune : Bool) (var : Nat) :
    facts.gathered prune var =
      (opposed facts var).foldl (·.next prune var ·) { facts := absent facts var } := by
  unfold gathered combinations
  rw [List.foldl_filterMap]
  congr 1
  funext g pair
  unfold Gathering.next
  cases pair.1.combined? pair.2 var <;> rfl

/-- Every opposed pair has a combination. -/
theorem length_combinations (facts : FactSet) (var : Nat) :
    (combinations facts var).length = (opposed facts var).length := by
  have hsome : ∀ pair ∈ opposed facts var, (pair.1.combined? pair.2 var).isSome := fun _ hpair =>
    Option.isSome_iff_exists.mpr (exists_combined?_of_mem_opposed hpair)
  unfold combinations
  rw [List.length_filterMap_eq_countP, List.countP_eq_length.mpr hsome]

/-- Every opposed pair is tried once. -/
theorem tried_gathered (facts : FactSet) (prune : Bool) (var : Nat) :
    (facts.gathered prune var).tried = (opposed facts var).length := by
  have hfold (l : List Fact) (g : Gathering) :
      (l.foldl (fun g f => g.tick.take prune var f) g).tried = g.tried + l.length := by
    induction l generalizing g with
    | nil => rfl
    | cons f rest ih =>
      rw [List.foldl_cons, ih, Gathering.tried_take, List.length_cons]
      show g.tried + 1 + rest.length = _
      omega
  unfold gathered
  rw [hfold, length_combinations]
  exact Nat.zero_add _

end FactSet

namespace Eliminator

variable {e : Eliminator} {var : Nat} {facts : FactSet} {g : Gathering}

/-- Whether the limits of an eliminator cover a round that tries some pairs, on top of those spent
before, and holds some facts. As long as no pair is tried, the limit on pairs is not looked at. -/
def Affords (e : Eliminator) (pairs held : Nat) : Prop :=
  (pairs = 0 ∨ Config.Within e.config.maxPairs (e.spent + pairs)) ∧
    Config.Within e.config.maxWorkingSet held

/-- Whether the limits cover what has been gathered. -/
def Admits (e : Eliminator) (g : Gathering) : Prop := e.Affords g.tried g.facts.size

/-- What the limits do not cover they do not cover after a further combination either. -/
theorem Admits.of_take {prune : Bool} {f : Fact} (h : e.Admits (g.tick.take prune var f)) :
    e.Admits g := by
  obtain ⟨hpairs, hroom⟩ := h
  rw [Gathering.tried_take] at hpairs
  have hcharged : Config.Within e.config.maxPairs (e.spent + (g.tried + 1)) :=
    hpairs.resolve_left (Nat.succ_ne_zero _)
  exact ⟨.inr (hcharged.mono (by omega)), hroom.mono (Gathering.size_le_take (g := g.tick))⟩

theorem Admits.of_next {prune : Bool} {pair : Fact × Fact} (h : e.Admits (g.next prune var pair)) :
    e.Admits g := by
  cases hsome : pair.1.combined? pair.2 var with
  | none =>
    unfold Gathering.next at h
    rwa [hsome] at h
  | some f =>
    rw [Gathering.next_of_some hsome] at h
    exact h.of_take

/-- Working off an opposed pair succeeds exactly if the limits cover what has been gathered then. -/
theorem combine_eq_ok_iff_admits {pair : Fact × Fact} {g' : Gathering}
    (hpair : pair ∈ FactSet.opposed facts var) :
    e.combine var g pair = .ok g' ↔
      e.Admits (g.next e.config.prune var pair) ∧ g' = g.next e.config.prune var pair := by
  obtain ⟨f, hsome⟩ := FactSet.exists_combined?_of_mem_opposed hpair
  rw [combine_eq_ok_iff hsome, Gathering.next_of_some hsome, ← and_assoc]
  refine and_congr_left fun _ => and_congr_left fun _ => ?_
  rw [Gathering.tried_take]
  exact (or_iff_right (Nat.succ_ne_zero _)).symm

/-- A round gathers what it would gather without limits, exactly if the limits afford that. The
limits are looked at after every pair, but pairs and facts only grow, so that the end decides. -/
theorem gather_eq_ok_iff :
    e.gather var facts = .ok g ↔
      e.Affords (FactSet.opposed facts var).length
          (facts.gathered e.config.prune var).facts.size ∧
        g = facts.gathered e.config.prune var := by
  have hstart : e.Admits { facts := FactSet.absent facts var } ↔
      e.config.checkWorkingSet (FactSet.absent facts var).size = .ok () :=
    (and_iff_right (.inl rfl)).trans Config.check_eq_ok_iff.symm
  have hloop : e.Admits { facts := FactSet.absent facts var } ∧
      (FactSet.opposed facts var).foldlM (e.combine var) { facts := FactSet.absent facts var } = .ok g ↔
        e.Admits (facts.gathered e.config.prune var) ∧ g = facts.gathered e.config.prune var := by
    rw [FactSet.gathered_eq_foldl]
    exact foldlM_eq_ok_iff_foldl (fun _ hpair _ _ => combine_eq_ok_iff_admits hpair)
      fun _ _ => Admits.of_next
  rw [← FactSet.tried_gathered facts e.config.prune var]
  refine Iff.trans ?_ hloop
  rw [hstart]
  unfold gather
  rw [bind_eq_ok_iff]
  simp only [Gathering.guard_eq_ok_iff]
  constructor
  · rintro ⟨⟨⟩, hroom, hrest⟩
    exact ⟨hroom, hrest⟩
  · rintro ⟨hroom, hrest⟩
    exact ⟨(), hroom, hrest⟩

/-- The eliminator with both limits lifted. -/
def withoutLimits (e : Eliminator) : Eliminator :=
  { e with config := Config.unlimited.withPruning e.config.prune }

/-- Without limits a round is always completed. -/
theorem gather_withoutLimits (e : Eliminator) (var : Nat) (facts : FactSet) :
    e.withoutLimits.gather var facts = .ok (facts.gathered e.config.prune var) := by
  have hnone (amount : Nat) : Config.Within none amount := fun _ hl => nomatch hl
  exact gather_eq_ok_iff.mpr ⟨⟨.inr (hnone _), hnone _⟩, rfl⟩

/-! ## Completed rounds -/

/-- A round is completed if the limits cover its opposed pairs and every set of its outcomes. -/
theorem exists_gather
    (pairs : Config.Within e.config.maxPairs (e.spent + (FactSet.opposed facts var).length))
    (room : ∀ s : FactSet, (∀ p ∈ s, FactSet.Outcome facts e.config.prune var p) →
      Config.Within e.config.maxWorkingSet s.size) :
    ∃ g, e.gather var facts = .ok g := by
  have hroom := room _ (gather_eq_ok (gather_withoutLimits e var facts)).1
  exact ⟨_, gather_eq_ok_iff.mpr ⟨⟨.inr pairs, hroom⟩, rfl⟩⟩

/-- A completed round has tried all opposed pairs, and what it has spent and holds is within the
limits. -/
theorem gather_cost (affordable : Config.Within e.config.maxPairs e.spent)
    (h : e.gather var facts = .ok g) :
    g.tried = (FactSet.opposed facts var).length ∧
      Config.Within e.config.maxPairs (e.spent + g.tried) ∧
        Config.Within e.config.maxWorkingSet g.facts.size := by
  obtain ⟨⟨hpairs, hroom⟩, rfl⟩ := gather_eq_ok_iff.mp h
  rw [FactSet.tried_gathered]
  refine ⟨rfl, ?_, hroom⟩
  rcases hpairs with hzero | hpairs
  · rw [hzero]
    exact affordable
  · exact hpairs

end Eliminator

end LinearRefutation
