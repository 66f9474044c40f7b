import Mathlib.Algebra.BigOperators.Group.List.Basic

/-!
# Computations that may fail

What it takes for sequences and loops in `Except` to succeed, and where a failure comes from. A loop
is followed with an invariant that speaks of the elements still to come, whether it succeeds
(`foldlM_eq_ok`) or fails (`foldlM_eq_error`). If its steps only check what a plain fold arrives at,
the loop succeeds exactly if the end passes the check (`foldlM_eq_ok_iff_foldl`), and if each step
commutes with taking images, the loop does (`foldlM_map_eq`). If the steps add summands, a loop that
succeeds gives their sum (`foldlM_add_eq_ok_iff`).
-/

namespace LinearRefutation

variable {α β ε : Type*}

theorem map_eq_ok_iff {x : Except ε α} {f : α → β} {b : β} :
    x.map f = .ok b ↔ ∃ a, x = .ok a ∧ f a = b := by
  rcases x with e | a
  · refine iff_of_false (fun h => nomatch h) ?_
    rintro ⟨a, ha, -⟩
    exact nomatch ha
  · show Except.ok (f a) = .ok b ↔ _
    simp

theorem map_eq_error_iff {x : Except ε α} {f : α → β} {e : ε} :
    x.map f = .error e ↔ x = .error e := by
  rcases x with fault | a
  · show Except.error fault = .error e ↔ Except.error fault = .error e
    rw [Except.error.injEq, Except.error.injEq]
  · exact iff_of_false (fun h => nomatch h) fun h => nomatch h

/-- A computation with its result and its failure replaced by images. -/
def mapOutcome {ε' β : Type*} (onError : ε → ε') (onOk : α → β) : Except ε α → Except ε' β
  | .error e => .error (onError e)
  | .ok a => .ok (onOk a)

section Bind

universe u

variable {α β ε : Type u}

theorem bind_eq_ok_iff {x : Except ε α} {f : α → Except ε β} {b : β} :
    x >>= f = .ok b ↔ ∃ a, x = .ok a ∧ f a = .ok b := by
  rcases x with e | a
  · refine iff_of_false (fun h => nomatch h) ?_
    rintro ⟨a, ha, -⟩
    exact nomatch ha
  · show f a = .ok b ↔ _
    simp

theorem bind_eq_error_iff {x : Except ε α} {f : α → Except ε β} {e : ε} :
    x >>= f = .error e ↔ x = .error e ∨ ∃ a, x = .ok a ∧ f a = .error e := by
  rcases x with e' | a
  · show Except.error e' = .error e ↔ _
    simp
  · show f a = .error e ↔ _
    simp

variable {step : β → α → Except ε β}

/-- An invariant that speaks of the elements still to come holds at the end of a loop that
succeeds. -/
theorem foldlM_eq_ok {I : List α → β → Prop}
    (keep : ∀ a rest b b', step b a = .ok b' → I (a :: rest) b → I rest b') {l : List α} {b b' : β}
    (h : l.foldlM step b = .ok b') (start : I l b) : I [] b' := by
  induction l generalizing b with
  | nil =>
    obtain rfl : b = b' := Except.ok.inj h
    exact start
  | cons a rest ih =>
    rw [List.foldlM_cons] at h
    obtain ⟨next, hstep, hrest⟩ := bind_eq_ok_iff.mp h
    exact ih hrest (keep a rest b next hstep start)

/-- A loop whose steps commute with taking images commutes with taking images. -/
theorem foldlM_map_eq {α' β' ε' : Type u} {step' : β' → α' → Except ε' β'} {onItem : α → α'}
    {onError : ε → ε'} {onState : β → β'} {l : List α}
    (commute : ∀ a ∈ l, ∀ b,
      step' (onState b) (onItem a) = mapOutcome onError onState (step b a)) (b : β) :
    (l.map onItem).foldlM step' (onState b) = mapOutcome onError onState (l.foldlM step b) := by
  induction l generalizing b with
  | nil => rfl
  | cons a rest ih =>
    rw [List.map_cons, List.foldlM_cons, List.foldlM_cons, commute a List.mem_cons_self]
    cases step b a with
    | error e => rfl
    | ok next => exact ih (fun c hc => commute c (List.mem_cons_of_mem _ hc)) next

/-- A loop that goes on as long as what it has arrived at fits, succeeds exactly if what the plain
fold arrives at fits, provided that what does not fit never fits again. -/
theorem foldlM_eq_ok_iff_foldl {next : β → α → β} {Fits : β → Prop} {l : List α} {b b' : β}
    (hstep : ∀ a ∈ l, ∀ b b', step b a = .ok b' ↔ Fits (next b a) ∧ b' = next b a)
    (before : ∀ b a, Fits (next b a) → Fits b) :
    Fits b ∧ l.foldlM step b = .ok b' ↔ Fits (l.foldl next b) ∧ b' = l.foldl next b := by
  induction l generalizing b with
  | nil =>
    show Fits b ∧ Except.ok b = .ok b' ↔ Fits b ∧ b' = b
    rw [Except.ok.injEq, eq_comm]
  | cons a rest ih =>
    rw [List.foldlM_cons, bind_eq_ok_iff, List.foldl_cons,
      ← ih fun c hc => hstep c (List.mem_cons_of_mem _ hc)]
    constructor
    · rintro ⟨-, b₁, hb₁, hrest⟩
      obtain ⟨hfits, rfl⟩ := (hstep a List.mem_cons_self b b₁).mp hb₁
      exact ⟨hfits, hrest⟩
    · rintro ⟨hfits, hrest⟩
      have hb₁ : step b a = .ok (next b a) := (hstep a List.mem_cons_self b _).mpr ⟨hfits, rfl⟩
      exact ⟨before b a hfits, next b a, hb₁, hrest⟩

/-- A loop that fails does so in one of its steps, up to which the invariant holds. -/
theorem foldlM_eq_error {I : List α → β → Prop}
    (keep : ∀ a rest b b', step b a = .ok b' → I (a :: rest) b → I rest b') {l : List α} {b : β} {e : ε}
    (h : l.foldlM step b = .error e) (start : I l b) :
    ∃ a rest b', I (a :: rest) b' ∧ step b' a = .error e := by
  induction l generalizing b with
  | nil => exact nomatch h
  | cons a rest ih =>
    rw [List.foldlM_cons] at h
    rcases bind_eq_error_iff.mp h with hstep | ⟨next, hstep, hrest⟩
    · exact ⟨a, rest, b, start, hstep⟩
    · exact ih hrest (keep a rest b next hstep start)

end Bind

/-- A fold whose steps each add a summand, or fail, adds up the summands unless one of them
fails. -/
theorem foldlM_add_eq_ok_iff {α ε M : Type} [AddMonoid M] {step : M → α → Except ε M} {Ok : α → Prop}
    {f : α → M} (hstep : ∀ sum a c, step sum a = .ok c ↔ Ok a ∧ c = sum + f a) {l : List α}
    {sum c : M} :
    l.foldlM step sum = .ok c ↔ (∀ a ∈ l, Ok a) ∧ c = sum + (l.map f).sum := by
  induction l generalizing sum with
  | nil =>
    show Except.ok sum = .ok c ↔ _
    simp [eq_comm]
  | cons a rest ih =>
    rw [List.foldlM_cons, bind_eq_ok_iff, List.forall_mem_cons, List.map_cons, List.sum_cons,
      ← add_assoc, and_assoc, ← ih]
    constructor
    · rintro ⟨next, hnext, hrest⟩
      obtain ⟨ha, rfl⟩ := (hstep ..).mp hnext
      exact ⟨ha, hrest⟩
    · rintro ⟨ha, hrest⟩
      exact ⟨_, (hstep ..).mpr ⟨ha, rfl⟩, hrest⟩

end LinearRefutation
