import Mathlib.Data.List.Lex
import LinearRefutation.Proofs.Elimination.Cost

/-!
# The order of comparisons and the sets it makes

Comparisons are ordered by their comparators and then, lexicographically, by the ascending sequences
of their terms. `Comparison.Precedes` says so without computing anything, and `compare` decides it
(`Comparison.compare_eq_lt_iff`). The order is total and tells different comparisons apart.

Sets of facts are searched by this order only. A `Building` is a sequence of collections,
insertions, replacements and eliminations. The set that it builds has one fact for each comparison
that was put in on the way and none for others (`Building.states_iff`), so that at most one of its
facts is contradictory (`Comparison.totally_ordered`).
-/

namespace LinearRefutation

/-! ## The order -/

/-- Lists are compared at the first place where they differ; a proper initial part comes first. -/
theorem compare_list_eq_lt_iff {α : Type*} [Ord α] [Std.LawfulEqOrd α] {l m : List α} :
    compare l m = .lt ↔ List.Lex (fun a b => compare a b = .lt) l m := by
  induction l generalizing m with
  | nil =>
    cases m with
    | nil => simp
    | cons b m => exact iff_of_true List.compare_nil_cons .nil
  | cons a l ih =>
    cases m with
    | nil => simp
    | cons b m =>
      rw [List.compare_cons_cons, Ordering.then_eq_lt, Std.compare_eq_iff_eq, ih,
        List.cons_lex_cons_iff]

namespace LinearForm

/-- Terms are compared by their variables, then by their coefficients. -/
theorem compare_term_eq_lt_iff {s t : Nat × Int} :
    compare s t = .lt ↔ Prod.Lex (· < ·) (· < ·) s t := by
  rw [lexOrd_def, compareLex, Ordering.then_eq_lt, compareOn, compareOn, Nat.compare_eq_lt,
    Std.compare_eq_iff_eq, Int.compare_eq_lt, Prod.lex_def]

theorem compare_eq_lt_iff {e f : LinearForm} :
    compare e f = .lt ↔ List.Lex (Prod.Lex (· < ·) (· < ·)) e.terms.toList f.terms.toList := by
  show compare e.terms.toList f.terms.toList = .lt ↔ _
  rw [compare_list_eq_lt_iff]
  simp only [compare_term_eq_lt_iff]

/-- The terms of a form ascend by variable. -/
theorem pairwise_terms (e : LinearForm) : e.terms.toList.Pairwise fun s t => s.1 < t.1 :=
  e.terms.ascending.imp Nat.compare_eq_lt.mp

end LinearForm

namespace Comparison

variable {c d : Comparison}

/-- The weaker comparator comes first; with the same comparator the sequences of terms decide, term
by term, and a proper initial part comes first. -/
def Precedes (c d : Comparison) : Prop :=
  c.rel.rank < d.rel.rank ∨
    c.rel = d.rel ∧ List.Lex (Prod.Lex (· < ·) (· < ·)) c.form.terms.toList d.form.terms.toList

theorem compare_eq_lt_iff : compare c d = .lt ↔ c.Precedes d := by
  show (compare c.rel d.rel).then (compare c.form d.form) = .lt ↔ _
  rw [Ordering.then_eq_lt, Std.compare_eq_iff_eq, LinearForm.compare_eq_lt_iff]
  exact or_congr_left Nat.compare_eq_lt

/-- With the same comparator, a proper initial part of a sequence of terms comes first. -/
theorem precedes_of_isPrefix (hrel : c.rel = d.rel)
    (hinitial : c.form.terms.toList <+: d.form.terms.toList) (hne : c ≠ d) : c.Precedes d := by
  refine .inr ⟨hrel, ?_⟩
  obtain ⟨more, hmore⟩ := hinitial
  cases more with
  | nil =>
    rw [List.append_nil] at hmore
    exact absurd (Comparison.ext hrel (LinearForm.ext (Ascending.ext hmore))) hne
  | cons term more =>
    have hlex := List.Lex.append_left (Prod.Lex (· < ·) (· < ·))
      (List.Lex.nil (a := term) (l := more)) c.form.terms.toList
    rwa [List.append_nil, hmore] at hlex

/-- Only `0 < 0` is contradictory. -/
theorem isContradiction_iff_eq : c.isContradiction ↔ c = ⟨.lt, 0⟩ := by
  rw [isContradiction_iff, Comparison.ext_iff, LinearForm.eq_iff_coeff]
  rfl

end Comparison

/-! ## Sets of facts -/

namespace FactSet

variable {facts : FactSet} {f : Fact} {c : Comparison}

theorem mem_comparisons_iff : c ∈ facts.toList.map Fact.comparison ↔ facts.States c := List.mem_map

/-- Whether a fact is put in or gives way to one with its comparison, the comparison is stated. -/
theorem states_insertNew :
    FactSet.States (facts.insertNew f) c ↔ facts.States c ∨ f.comparison = c := by
  constructor
  · rintro ⟨p, hp, hc⟩
    rcases Ascending.mem_insertNew.mp hp with hold | ⟨rfl, -⟩
    · exact .inl ⟨p, hold, hc⟩
    · exact .inr hc
  · rintro (⟨p, hp, hc⟩ | rfl)
    · exact ⟨p, Ascending.mem_insertNew.mpr (.inl hp), hc⟩
    · by_cases hknown : facts.contains f.comparison
      · obtain ⟨known, hmem, hkey⟩ := Ascending.contains_iff.mp hknown
        exact ⟨known, Ascending.mem_insertNew.mpr (.inl hmem), Std.LawfulEqOrd.eq_of_compare hkey⟩
      · exact ⟨f, Ascending.mem_insertNew.mpr (.inr ⟨rfl, hknown⟩), rfl⟩

/-- A completed elimination states what its outcomes state. -/
theorem states_of_toOption {e : Eliminator} {var : Nat} {round : Round}
    (h : (e.eliminate var facts).1.toOption = some round) :
    round.facts.States c ↔ ∃ f, Outcome facts e.config.prune var f ∧ f.comparison = c := by
  rcases heliminate : e.eliminate var facts with ⟨abort | round', e'⟩
  · rw [heliminate] at h
    exact nomatch h
  · rw [heliminate] at h
    obtain rfl : round' = round := Option.some.inj h
    constructor
    · rintro ⟨f, hf, hc⟩
      exact ⟨f, Eliminator.outcome_of_eliminate heliminate hf, hc⟩
    · rintro ⟨f, hf, rfl⟩
      exact Eliminator.states_of_eliminate heliminate hf

/-- At most one fact of a set is contradictory. -/
theorem length_filter_isContradiction_le (facts : FactSet) :
    (facts.toList.filter Fact.isContradiction).length ≤ 1 := by
  have hnodup : ((facts.toList.filter Fact.isContradiction).map Fact.comparison).Nodup :=
    facts.nodup_comparisons.sublist (List.filter_sublist.map _)
  have hsame : (facts.toList.filter Fact.isContradiction).map Fact.comparison =
      List.replicate (facts.toList.filter Fact.isContradiction).length ⟨.lt, 0⟩ :=
    List.map_eq_replicate_iff.mpr fun _ hf =>
      Comparison.isContradiction_iff_eq.mp (List.mem_filter.mp hf).2
  rwa [hsame, List.nodup_replicate] at hnodup

/-! ## Building sets -/

/-- The ways to build a set of facts. It is collected from a list, of which the last fact with a
comparison is taken; one more fact is put in, unless its comparison is stated already (`inserted`),
or in the place of the one that states it (`replaced`); or a variable is eliminated, by an
eliminator in any state. -/
inductive Building where
  | collected (facts : List Fact)
  | inserted (into : Building) (fact : Fact)
  | replaced (into : Building) (fact : Fact)
  | eliminated (e : Eliminator) (var : Nat) (of : Building)

namespace Building

/-- The set that is built, if no elimination is given up. -/
def build? : Building → Option FactSet
  | .collected facts => some (.ofList facts)
  | .inserted into fact => into.build?.map (·.insertNew fact)
  | .replaced into fact => into.build?.map (·.insert fact)
  | .eliminated e var of => do (e.eliminate var (← of.build?)).1.toOption.map Round.facts

/-- The comparisons that are put in. An elimination puts in those that it may leave and drops the
others. -/
def Offers : Building → Comparison → Prop
  | .collected facts, c => ∃ f ∈ facts, f.comparison = c
  | .inserted into fact, c => into.Offers c ∨ fact.comparison = c
  | .replaced into fact, c => into.Offers c ∨ fact.comparison = c
  | .eliminated e var of, c =>
    ∃ facts ∈ of.build?, ∃ f, Outcome facts e.config.prune var f ∧ f.comparison = c

/-- A set that is built states exactly the comparisons that were put in. -/
theorem states_iff {b : Building} (h : b.build? = some facts) : facts.States c ↔ b.Offers c := by
  induction b generalizing facts with
  | collected l =>
    obtain rfl := Option.some.inj h
    exact states_ofList
  | inserted into fact ih =>
    obtain ⟨before, hbefore, rfl⟩ := Option.map_eq_some_iff.mp h
    rw [states_insertNew, ih hbefore, Offers]
  | replaced into fact ih =>
    obtain ⟨before, hbefore, rfl⟩ := Option.map_eq_some_iff.mp h
    rw [states_insert, ih hbefore, Offers]
  | eliminated e var of ih =>
    obtain ⟨before, hbefore, hround⟩ := Option.bind_eq_some_iff.mp h
    obtain ⟨round, hok, rfl⟩ := Option.map_eq_some_iff.mp hround
    rw [states_of_toOption hok, Offers]
    constructor
    · exact fun houtcome => ⟨before, hbefore, houtcome⟩
    · rintro ⟨before', hbefore', houtcome⟩
      obtain rfl : before = before' := Option.some.inj (hbefore.symm.trans hbefore')
      exact houtcome

end Building

end FactSet

/-! ## Comparisons and sets -/

namespace Comparison

/-- Comparisons are totally ordered, and compare as equal only when they are: by comparator, `=`
before `≤` before `<`, and then by the ascending sequence of the nonzero coefficients with their
variables, where a proper initial part comes first. Therefore a set of facts has one fact for each
comparison that was put into it and no further ones, whatever collections, insertions, replacements
and eliminations built it, and at most one of them is contradictory. -/
theorem totally_ordered :
    (∀ a b : Comparison, compare a b = .eq ↔ a = b) ∧
      (∀ a b : Comparison, compare b a = (compare a b).swap) ∧
      (∀ a b c : Comparison, (compare a b).isLE → (compare b c).isLE → (compare a c).isLE) ∧
      (∀ a b c : Comparison, compare a b = .lt → compare b c = .lt → compare a c = .lt) ∧
      (∀ a b : Comparison, compare a b = .lt ↔ a.Precedes b) ∧
      (Comparator.eq.rank < Comparator.le.rank ∧ Comparator.le.rank < Comparator.lt.rank) ∧
      (∀ a : Comparison, (a.form.terms.toList.Pairwise fun s t => s.1 < t.1) ∧
        ∀ v k, (v, k) ∈ a.form.terms.toList ↔ a.coeff v = k ∧ k ≠ 0) ∧
      (∀ a b : Comparison, a.rel = b.rel → a.form.terms.toList <+: b.form.terms.toList → a ≠ b →
        compare a b = .lt) ∧
      ∀ (building : FactSet.Building) (facts : FactSet), building.build? = some facts →
        (facts.toList.map Fact.comparison).Nodup ∧
          (∀ c, c ∈ facts.toList.map Fact.comparison ↔ building.Offers c) ∧
            (facts.toList.filter Fact.isContradiction).length ≤ 1 := by
  refine ⟨fun a b => Std.compare_eq_iff_eq, fun a b => Std.OrientedCmp.eq_swap,
    fun a b c => Std.TransCmp.isLE_trans, fun a b c => Std.TransCmp.lt_trans,
    fun a b => compare_eq_lt_iff, ⟨by decide, by decide⟩,
    fun a => ⟨a.form.pairwise_terms, fun v k => LinearForm.mem_terms_iff⟩,
    fun a b hrel hinitial hne => compare_eq_lt_iff.mpr (precedes_of_isPrefix hrel hinitial hne),
    fun building facts h =>
      ⟨facts.nodup_comparisons, fun c => ?_, facts.length_filter_isContradiction_le⟩⟩
  rw [FactSet.mem_comparisons_iff, FactSet.Building.states_iff h]

/-- Three comparisons in their order, of which the first begins the second. The set is built from
facts of which two state `0 < 0`, a third one that gives way to them, a replacement and the
elimination of `x₀`, which leads to `0 < 0` once more. The last of the two facts of the list is
kept. -/
theorem totally_ordered_built :
    let a : Comparison := ⟨.le, .ofTerms [(0, 1)]⟩
    let b : Comparison := ⟨.le, .ofTerms [(0, 1), (1, -3)]⟩
    let c : Comparison := ⟨.lt, 0⟩
    let building : FactSet.Building := .eliminated { config := {} } 0 (.replaced (.inserted
      (.collected [.ofHypothesis 0 c, .ofHypothesis 1 a, .ofHypothesis 2 c]) (.ofHypothesis 3 c))
      (.ofHypothesis 4 ⟨.lt, .ofTerms [(0, -2)]⟩))
    compare a b = .lt ∧ compare b c = .lt ∧ compare a c = .lt ∧ (compare a c).isLE ∧
      ∃ facts, building.build? = some facts ∧
        facts.toList.map (fun f => (f.comparison, f.history.toList)) = [(c, [2])] ∧
          (facts.toList.map Fact.comparison).Nodup ∧ building.Offers c ∧
            (facts.toList.filter Fact.isContradiction).length ≤ 1 := by
  intro a b c building
  obtain ⟨-, -, hle, hlt, -, -, -, hinitial, hbuilt⟩ := totally_ordered
  have hab : compare a b = .lt :=
    hinitial a b rfl (by decide +kernel) (by decide +kernel)
  have hbc : compare b c = .lt := by decide +kernel
  have hac := hle a b c (Ordering.isLE_of_eq_lt hab) (Ordering.isLE_of_eq_lt hbc)
  have hheld : (building.build?.map fun facts =>
      facts.toList.map fun f => (f.comparison, f.history.toList)) = some [(c, [2])] := by
    decide +kernel
  obtain ⟨facts, hfacts, hlist⟩ := Option.map_eq_some_iff.mp hheld
  obtain ⟨hnodup, hoffers, hsingle⟩ := hbuilt building facts hfacts
  have hc : c ∈ facts.toList.map Fact.comparison := by
    have hfirst := congrArg (List.map Prod.fst) hlist
    rw [List.map_map] at hfirst
    exact hfirst ▸ List.mem_singleton_self c
  exact ⟨hab, hbc, hlt a b c hab hbc, hac, facts, hfacts, hlist, hnodup, (hoffers c).mp hc, hsingle⟩

end Comparison

end LinearRefutation
