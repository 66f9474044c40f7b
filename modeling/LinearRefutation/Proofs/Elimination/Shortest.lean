import Mathlib.Data.List.MinMax
import LinearRefutation.Proofs.Elimination.Cost

/-!
# Which of several derivations is kept

The candidates of a round are the facts that do not mention the variable and, after them, the
combinations that pass the filter, in the order in which they are formed. Several candidates may
state the same comparison. A completed round keeps one for each comparison: a shortest one, and of
several shortest ones the first (`Eliminator.eliminate_keeps_shortest`).

A set of facts is searched by comparison only, so what it keeps of a list is described by look-up:
`FactSet.Keeps` says that it finds the first shortest fact of the list. Taking in a combination that
passes the filter extends the list by one fact (`FactSet.Keeps.take_of_passes`); what is kept
changes in the same way as what `List.argmin` picks.
-/

namespace LinearRefutation

namespace FactSet

/-- The facts that compete for a place after a round: first those that do not mention the variable,
then the combinations that pass the filter, if it is on. -/
def candidates (facts : FactSet) (prune : Bool) (var : Nat) : List Fact :=
  (absent facts var).toList ++ (combinations facts var).filter fun f => f.Passes prune var

/-- The first shortest fact of a list among those with a given comparison. -/
def shortest? (l : List Fact) (c : Comparison) : Option Fact :=
  (l.filter fun f => f.comparison = c).argmin fun f => f.history.size

/-- A set of facts keeps, of a list of facts, the first shortest one for each comparison. -/
def Keeps (facts : FactSet) (l : List Fact) : Prop := ∀ c, facts.find? c = shortest? l c

section Choice

variable {l : List Fact} {f : Fact} {c : Comparison}

theorem shortest?_eq_none_iff : shortest? l c = none ↔ ∀ f ∈ l, f.comparison ≠ c := by
  unfold shortest?
  rw [List.argmin_eq_none, List.filter_eq_nil_iff]
  simp only [decide_eq_true_eq, ne_eq]

theorem mem_of_shortest? (h : shortest? l c = some f) : f ∈ l ∧ f.comparison = c := by
  obtain ⟨hf, hc⟩ := List.mem_filter.mp (List.argmin_mem h)
  exact ⟨hf, of_decide_eq_true hc⟩

theorem shortest?_concat_of_ne (h : f.comparison ≠ c) : shortest? (l ++ [f]) c = shortest? l c := by
  unfold shortest?
  rw [List.filter_append, List.filter_cons_of_neg (by simpa using h), List.filter_nil, List.append_nil]

/-- A further fact with the comparison is chosen only if it is shorter than the one chosen
before. -/
theorem shortest?_concat_self (l : List Fact) (f : Fact) :
    shortest? (l ++ [f]) f.comparison = match shortest? l f.comparison with
      | none => some f
      | some known => if f.history.size < known.history.size then some f else some known := by
  unfold shortest?
  rw [List.filter_append, List.filter_cons_of_pos (by simp), List.filter_nil, List.argmin_concat]
  cases List.argmin (fun f : Fact => f.history.size)
    (l.filter fun g => g.comparison = f.comparison) <;> rfl

end Choice

variable {facts : FactSet}

/-- Look-up by comparison. -/
theorem find?_eq_some_iff {c : Comparison} {f : Fact} :
    facts.find? c = some f ↔ f ∈ facts ∧ f.comparison = c := by
  rw [Ascending.find?_eq_some_iff, Std.compare_eq_iff_eq]

theorem find?_eq_none_iff {c : Comparison} :
    facts.find? c = none ↔ ∀ f ∈ facts, f.comparison ≠ c := by
  simp only [Ascending.find?_eq_none_iff, ne_eq, Std.compare_eq_iff_eq]

/-- A set of facts has one fact for each comparison, which is the shortest. -/
theorem keeps_toList (facts : FactSet) : facts.Keeps facts.toList := by
  intro c
  cases hfind : facts.find? c with
  | none => exact (shortest?_eq_none_iff.mpr (find?_eq_none_iff.mp hfind)).symm
  | some known =>
    have hknown := find?_eq_some_iff.mp hfind
    cases hshortest : shortest? facts.toList c with
    | none => exact absurd hknown.2 (shortest?_eq_none_iff.mp hshortest known hknown.1)
    | some f => rw [← hfind, find?_eq_some_iff.mpr (mem_of_shortest? hshortest)]

/-- What is kept of a list states exactly the comparisons in the list. -/
theorem Keeps.states_iff {l : List Fact} (h : facts.Keeps l) {c : Comparison} :
    facts.States c ↔ ∃ f ∈ l, f.comparison = c := by
  constructor
  · rintro ⟨f, hf, rfl⟩
    have hfind := find?_eq_some_iff.mpr ⟨hf, rfl⟩
    rw [h] at hfind
    exact ⟨f, mem_of_shortest? hfind⟩
  · rintro ⟨f, hf, hc⟩
    cases hfind : facts.find? c with
    | none =>
      rw [h] at hfind
      exact absurd hc (shortest?_eq_none_iff.mp hfind f hf)
    | some known => exact ⟨known, find?_eq_some_iff.mp hfind⟩

/-! ## Taking in combinations -/

/-- Insertion changes what is found for one comparison. -/
theorem find?_insert (facts : FactSet) (f : Fact) (c : Comparison) :
    Ascending.find? (facts.insert f) c = if f.comparison = c then some f else facts.find? c := by
  rw [Ascending.find?_insert]
  simp only [Std.compare_eq_iff_eq]

section Take

variable {g : Gathering} {prune : Bool} {var : Nat} {f : Fact} {l : List Fact}

/-- A combination that passes the filter is inserted if it is the first shortest one by then, and
otherwise nothing changes. -/
theorem Keeps.take_of_passes (h : g.facts.Keeps l) (hpass : f.Passes prune var) :
    (g.take prune var f).facts.Keeps (l ++ [f]) := by
  -- which fact is chosen for the comparison of `f`
  have hself := shortest?_concat_self l f
  rw [← h f.comparison] at hself
  have htake : (g.take prune var f).facts = g.facts.insert f ∧
        shortest? (l ++ [f]) f.comparison = some f ∨
      (g.take prune var f).facts = g.facts ∧
        shortest? (l ++ [f]) f.comparison = g.facts.find? f.comparison := by
    rcases g.take_cases prune var f with ⟨hfails, -⟩ | ⟨-, ⟨hfind, htake⟩ | ⟨known, hfind, htake⟩⟩
    · exact absurd hpass hfails
    · rw [hfind] at hself
      exact .inl ⟨by rw [htake], hself⟩
    · rw [hfind] at hself ⊢
      rw [htake]
      by_cases hshorter : f.history.size < known.history.size
      · exact .inl ⟨if_pos hshorter, hself.trans (if_pos hshorter)⟩
      · exact .inr ⟨if_neg hshorter, hself.trans (if_neg hshorter)⟩
  intro c
  by_cases hc : f.comparison = c
  · subst hc
    rcases htake with ⟨hfacts, hchosen⟩ | ⟨hfacts, hchosen⟩
    · rw [hfacts, hchosen, find?_insert, if_pos rfl]
    · rw [hfacts, hchosen]
  · rw [shortest?_concat_of_ne hc, ← h c]
    rcases htake with ⟨hfacts, -⟩ | ⟨hfacts, -⟩
    · rw [hfacts, find?_insert, if_neg hc]
    · rw [hfacts]

/-- A combination that does not pass the filter changes nothing. -/
theorem Keeps.take_of_not_passes (h : g.facts.Keeps l) (hpass : ¬ f.Passes prune var) :
    (g.take prune var f).facts.Keeps l := by
  rcases g.facts_take prune var f with ⟨hfacts, -⟩ | ⟨hpasses, -⟩
  · exact hfacts ▸ h
  · exact absurd hpasses hpass

/-- Taking in combinations one after the other extends the list by those that pass the filter. -/
theorem Keeps.foldl_take (h : g.facts.Keeps l) (formed : List Fact) :
    (formed.foldl (fun g f => g.tick.take prune var f) g).facts.Keeps
      (l ++ formed.filter fun f => f.Passes prune var) := by
  induction formed generalizing l g with
  | nil => simpa using h
  | cons f rest ih =>
    rw [List.foldl_cons]
    by_cases hpass : f.Passes prune var
    · rw [List.filter_cons_of_pos (by simpa using hpass), List.append_cons]
      exact ih (Keeps.take_of_passes (g := g.tick) h hpass)
    · rw [List.filter_cons_of_neg (by simpa using hpass)]
      exact ih (Keeps.take_of_not_passes (g := g.tick) h hpass)

end Take

/-- A round keeps the first shortest of its candidates for each comparison. -/
theorem keeps_gathered (facts : FactSet) (prune : Bool) (var : Nat) :
    (facts.gathered prune var).facts.Keeps (facts.candidates prune var) :=
  Keeps.foldl_take (keeps_toList (absent facts var)) (combinations facts var)

end FactSet

namespace Eliminator

/-- A completed round holds one fact for each comparison that a candidate states: of the candidates
that state it a shortest one, of several shortest ones the first, and unchanged. The candidates are
the facts that do not mention the variable, then the combinations of opposed facts that pass the
filter. -/
theorem eliminate_keeps_shortest {e e' : Eliminator} {var : Nat} {facts : FactSet} {round : Round}
    (h : e.eliminate var facts = (.ok round, e')) :
    (round.facts.toList.map Fact.comparison).Nodup ∧
      (∀ c, round.facts.States c ↔ ∃ f ∈ facts.candidates e.config.prune var, f.comparison = c) ∧
        ∀ c, round.facts.find? c =
          ((facts.candidates e.config.prune var).filter fun f => f.comparison = c).argmin
            fun f => f.history.size := by
  have hkeeps : round.facts.Keeps (facts.candidates e.config.prune var) := by
    have hgathered := (gather_eq_ok_iff.mp (eliminate_eq_ok h).2).2
    show FactSet.Keeps round.gathered.facts _
    rw [hgathered]
    exact FactSet.keeps_gathered facts e.config.prune var
  exact ⟨FactSet.nodup_comparisons round.facts, fun _ => hkeeps.states_iff, hkeeps⟩

/-- Three candidates state `-x₁ ≤ 0`: a fact that does not mention `x₀`, from three hypotheses, and
two combinations from two hypotheses each. The combination that is formed first is kept. -/
theorem eliminate_keeps_shortest_tie :
    let known : Fact := { Fact.ofHypothesis 0 ⟨.le, .ofTerms [(1, -1)]⟩ with
      history := .ofList [0, 5, 6] }
    let facts : FactSet := .ofList [known, .ofHypothesis 1 ⟨.le, .ofTerms [(0, 1), (1, -1)]⟩,
      .ofHypothesis 2 ⟨.le, .ofTerms [(0, 1), (1, -2)]⟩, .ofHypothesis 3 ⟨.le, .ofTerms [(0, -1)]⟩,
      .ofHypothesis 4 ⟨.le, .ofTerms [(0, -1), (1, 1)]⟩]
    let e : Eliminator := { config := {} }
    let stating (c : Comparison) :=
      (facts.candidates e.config.prune 0).filter fun f => f.comparison = c
    ∃ round e', e.eliminate 0 facts = (.ok round, e') ∧
      ((stating known.comparison).map fun f => f.history.toList) = [[0, 5, 6], [2, 4], [1, 3]] ∧
        (round.facts.find? known.comparison).map (fun f => f.history.toList) = some [2, 4] ∧
          ∀ c, round.facts.find? c = (stating c).argmin fun f => f.history.size := by
  intro known facts e stating
  have hstating : ((stating known.comparison).map fun f => f.history.toList) =
      [[0, 5, 6], [2, 4], [1, 3]] := by decide +kernel
  have hkept : (e.eliminate 0 facts).1.toOption.map (fun round =>
      (round.facts.find? known.comparison).map fun f => f.history.toList) = some (some [2, 4]) := by
    decide +kernel
  rcases hround : e.eliminate 0 facts with ⟨abort | round, e'⟩
  · rw [hround] at hkept
    exact nomatch hkept
  · rw [hround] at hkept
    exact ⟨round, e', rfl, hstating, Option.some.inj hkept, (eliminate_keeps_shortest hround).2.2⟩

end Eliminator

end LinearRefutation
