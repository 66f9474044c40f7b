import LinearRefutation.Refuter
import LinearRefutation.Proofs.Elimination.Search

/-!
# What the refuter reports

`run` refuses hypotheses that mention a variable above the declared bound, and `runAuto` finds a
bound itself. Either way the search that follows eliminates every variable that occurs, whatever the
statistics kept so far, so that both report the same kind of thing: a contradiction derived from the
hypotheses (`Refuter.Reports.derived`), whose certificate can be checked without the refuter, or the
exhaustion of hypotheses that have a relaxed solution (`Refuter.Reports.exists_holdsRelaxed`).
-/

namespace LinearRefutation

/-! ## The variables that occur -/

theorem IndexMap.le_of_maxKey? {β : Type*} {m : IndexMap β} {k : Nat} (hmax : maxKey? m = some k)
    {entry : Nat × β} (h : entry ∈ m) : entry.1 ≤ k := by
  obtain ⟨last, hlast, rfl⟩ := Option.map_eq_some_iff.mp hmax
  obtain ⟨front, hfront⟩ := List.getLast?_eq_some_iff.mp hlast
  have hsplit : (front ++ [last]).Pairwise fun a b : Nat × β => compare a.1 b.1 = .lt :=
    hfront ▸ m.ascending
  have hmem : entry ∈ front ++ [last] := hfront ▸ h
  rcases List.mem_append.mp hmem with hin | heq
  · -- the keys ascend, so each entry in front of the last one has a smaller key
    have hlt := (List.pairwise_append.mp hsplit).2.2 entry hin last List.mem_cons_self
    rw [Nat.compare_eq_lt] at hlt
    omega
  · rw [List.mem_singleton.mp heq]

theorem IndexMap.exists_maxKey? {β : Type*} {m : IndexMap β} {entry : Nat × β} (h : entry ∈ m) :
    ∃ k, maxKey? m = some k := by
  have hne : m.toList ≠ [] := List.ne_nil_of_mem h
  refine ⟨(m.toList.getLast hne).1, ?_⟩
  unfold maxKey?
  rw [List.getLast?_eq_some_getLast hne]
  rfl

namespace Comparison

variable {c : Comparison} {v : Nat}

/-- The largest variable of a comparison occurs in it, and none above it does. -/
theorem maxVar?_eq_some {k : Nat} (h : c.maxVar? = some k) :
    c.coeff k ≠ 0 ∧ ∀ v, c.coeff v ≠ 0 → v ≤ k := by
  constructor
  · obtain ⟨last, hlast, rfl⟩ := Option.map_eq_some_iff.mp h
    have hmem : last ∈ c.form.terms := List.mem_of_getLast? hlast
    show IndexMap.getD c.form.terms last.1 0 ≠ 0
    rw [IndexMap.getD_eq_of_mem hmem]
    exact c.form.nonzero last hmem
  · intro v hv
    exact IndexMap.le_of_maxKey? h (IndexMap.mem_of_getD_ne hv)

theorem exists_maxVar? (h : c.coeff v ≠ 0) : ∃ k, c.maxVar? = some k :=
  IndexMap.exists_maxKey? (IndexMap.mem_of_getD_ne h)

/-- The largest variable of a list of comparisons is above all that occur. -/
theorem exists_max? {l : List Comparison} (hc : c ∈ l) (hv : c.coeff v ≠ 0) :
    ∃ top, (l.filterMap maxVar?).max? = some top ∧ v ≤ top := by
  obtain ⟨k, hk⟩ := exists_maxVar? hv
  have hvk : v ≤ k := (maxVar?_eq_some hk).2 v hv
  have hmem : k ∈ l.filterMap maxVar? := List.mem_filterMap.mpr ⟨c, hc, hk⟩
  obtain ⟨top, htop⟩ := Option.isSome_iff_exists.mp (List.isSome_max?_of_mem hmem)
  have hktop : k ≤ top := (List.max?_eq_some_iff.mp htop).2 k hmem
  exact ⟨top, htop, hvk.trans hktop⟩

end Comparison

namespace Refuter

variable {hypotheses : List Comparison}

/-- Hypotheses are refused exactly if one of them mentions a variable above the declared bound. -/
theorem unbound?_eq_none_iff {maxVar : Nat} :
    unbound? hypotheses maxVar = none ↔ ∀ c ∈ hypotheses, ∀ v, c.coeff v ≠ 0 → v ≤ maxVar := by
  unfold unbound?
  rw [List.findSome?_eq_none_iff]
  constructor
  · intro h c hc v hv
    obtain ⟨k, hk⟩ := Comparison.exists_maxVar? hv
    obtain ⟨i, hi, rfl⟩ := List.getElem_of_mem hc
    have hnone := h (hypotheses[i], i) (List.mk_mem_zipIdx_iff_getElem?.mpr
      (List.getElem?_eq_getElem hi))
    by_contra hlt
    have hle := (Comparison.maxVar?_eq_some hk).2 v hv
    simp only [hk, Option.bind_some] at hnone
    rw [if_pos (by omega)] at hnone
    exact nomatch hnone
  · rintro h ⟨c, i⟩ hentry
    cases hmax : c.maxVar? with
    | none => simp only [hmax, Option.bind_none]
    | some k =>
      have hle := h c (List.fst_mem_of_mem_zipIdx hentry) k (Comparison.maxVar?_eq_some hmax).1
      simp only [hmax, Option.bind_some]
      rw [if_neg (by omega)]

/-- No hypothesis mentions a variable from the bound on. -/
theorem lt_bound {c : Comparison} (hc : c ∈ hypotheses) {v : Nat} (hv : c.coeff v ≠ 0) :
    v < bound hypotheses := by
  obtain ⟨top, htop, hle⟩ := Comparison.exists_max? hc hv
  unfold bound
  rw [htop]
  show v < top + 1
  omega

/-- The bound is the least one above all variables that occur. -/
theorem bound_le_iff {b : Nat} :
    bound hypotheses ≤ b ↔ ∀ c ∈ hypotheses, ∀ v, c.coeff v ≠ 0 → v < b := by
  constructor
  · intro hle c hc v hv
    exact (lt_bound hc hv).trans_le hle
  · intro h
    unfold bound
    cases htop : (hypotheses.filterMap Comparison.maxVar?).max? with
    | none => exact Nat.zero_le b
    | some top =>
      obtain ⟨c, hc, hmax⟩ := List.mem_filterMap.mp (List.max?_mem htop)
      exact h c hc top (Comparison.maxVar?_eq_some hmax).1

/-! ## Reports -/

theorem below_of_le {bound : Nat}
    (h : ∀ c ∈ hypotheses, ∀ v, c.coeff v ≠ 0 → v < bound) :
    FactSet.Below (FactSet.ofHypotheses hypotheses) bound := by
  intro p hp v hv
  by_contra hne
  have hlt := h p.comparison (FactSet.mem_of_mem_ofHypotheses hp) v hne
  omega

theorem below_bound (hypotheses : List Comparison) :
    FactSet.Below (FactSet.ofHypotheses hypotheses) (bound hypotheses) :=
  below_of_le fun _ hc _ hv => lt_bound hc hv

/-- A refuter reports a verdict on hypotheses when `run`, with some bound, or `runAuto` returns
it. -/
def Reports (r : Refuter) (hypotheses : List Comparison) (verdict : Verdict) : Prop :=
  (∃ maxVar, (r.run hypotheses maxVar).1.value = .ok verdict) ∨
    (r.runAuto hypotheses).1.value = .ok verdict

section Reports

variable {r : Refuter} {verdict : Verdict}

/-- A run that is not refused is a search, with a bound on all variables. -/
theorem run_eq_search {maxVar : Nat} (h : unbound? hypotheses maxVar = none) :
    FactSet.Below (FactSet.ofHypotheses hypotheses) (maxVar + 1) ∧
      r.run hypotheses maxVar = r.search hypotheses (maxVar + 1) := by
  constructor
  · refine below_of_le fun c hc v hv => ?_
    have hle := unbound?_eq_none_iff.mp h c hc v hv
    omega
  · unfold run
    rw [h]

/-- A run is refused and leaves the refuter as it is, or searches with a bound on all variables. -/
theorem run_cases (r : Refuter) (hypotheses : List Comparison) (maxVar : Nat) :
    (∃ index var, unbound? hypotheses maxVar = some (index, var) ∧
        r.run hypotheses maxVar = ({ value := .error (.unboundVariable index var maxVar) }, r)) ∨
      FactSet.Below (FactSet.ofHypotheses hypotheses) (maxVar + 1) ∧
        r.run hypotheses maxVar = r.search hypotheses (maxVar + 1) := by
  cases hunbound : unbound? hypotheses maxVar with
  | some found =>
    refine .inl ⟨found.1, found.2, rfl, ?_⟩
    unfold run
    rw [hunbound]
  | none => exact .inr (run_eq_search hunbound)

/-- What one use of a refuter adds to its statistics, whatever was counted before. -/
def Adds (config : Config) (use : Refuter → Logged (Except Fault Verdict) × Refuter)
    (increment : Statistics) : Prop :=
  ∀ before, (use { config, statistics := before }).2.statistics = before + increment

theorem adds_search (config : Config) (hypotheses : List Comparison) (bound : Nat) :
    Adds config (·.search hypotheses bound)
      (Run.search config (FactSet.ofHypotheses hypotheses) bound).statistics :=
  fun _ => rfl

theorem adds_run (config : Config) {maxVar : Nat} (h : unbound? hypotheses maxVar = none) :
    Adds config (·.run hypotheses maxVar)
      (Run.search config (FactSet.ofHypotheses hypotheses) (maxVar + 1)).statistics := by
  have hsearch : (·.run hypotheses maxVar) = (fun r : Refuter => r.search hypotheses (maxVar + 1)) :=
    funext fun _ => (run_eq_search h).2
  rw [hsearch]
  exact adds_search config hypotheses (maxVar + 1)

/-- A verdict that is reported is that of a search with a bound on all variables. -/
theorem Reports.exists_search (h : r.Reports hypotheses verdict) :
    ∃ bound, FactSet.Below (FactSet.ofHypotheses hypotheses) bound ∧
      (Run.search r.config (FactSet.ofHypotheses hypotheses) bound).verdict = .ok verdict := by
  rcases h with ⟨maxVar, hrun⟩ | hauto
  · rcases run_cases r hypotheses maxVar with ⟨index, var, -, hrefused⟩ | ⟨hbelow, hsearch⟩
    · rw [hrefused] at hrun
      exact nomatch hrun
    · rw [hsearch] at hrun
      exact ⟨maxVar + 1, hbelow, hrun⟩
  · exact ⟨bound hypotheses, below_bound hypotheses, hauto⟩

/-- The contradiction reported is a fact `0 < 0` derived from the hypotheses. -/
theorem Reports.derived {w : Fact} (h : r.Reports hypotheses (.refuted w)) :
    w.Derived hypotheses ∧ w.isContradiction := by
  obtain ⟨bound, -, hsearch⟩ := h.exists_search
  exact Run.invariant_of_refuted (P := Fact.Derived hypotheses) Fact.Derived.combined
    (fun p hp => FactSet.derived_of_mem_ofHypotheses hp) hsearch

/-- Hypotheses reported to be exhausted have a relaxed solution. -/
theorem Reports.exists_holdsRelaxed (h : r.Reports hypotheses .exhausted) :
    ∃ x, ∀ c ∈ hypotheses, c.HoldsRelaxed x := by
  obtain ⟨bound, hbelow, hsearch⟩ := h.exists_search
  obtain ⟨x, hx⟩ := Run.exists_holdsRelaxed_of_exhausted hbelow hsearch
  refine ⟨x, fun c hc => ?_⟩
  obtain ⟨p, hp, heq⟩ := FactSet.states_ofHypotheses hc
  exact heq ▸ hx p hp

/-- A run that is not refused fails only by hitting a limit of the config. -/
theorem exceeds_of_run {maxVar : Nat} {fault : Fault}
    (bounded : ∀ c ∈ hypotheses, ∀ v, c.coeff v ≠ 0 → v ≤ maxVar)
    (h : (r.run hypotheses maxVar).1.value = .error fault) : r.config.Exceeds fault := by
  rcases run_cases r hypotheses maxVar with ⟨index, var, hfound, -⟩ | ⟨-, hsearch⟩
  · rw [unbound?_eq_none_iff.mpr bounded] at hfound
    exact nomatch hfound
  · rw [hsearch] at h
    exact Run.exceeds_of_error h

end Reports

end Refuter

end LinearRefutation
