import LinearRefutation.Proofs.Except
import LinearRefutation.Proofs.Sums

/-!
# What one elimination step does

`Fact.combined?` is the sum of multiples of two facts in which a variable cancels; eliminating never
fails for another reason than that there is none (`Fact.eliminate?_eq`). A fact is among the
`Outcomes` of a step if it does not mention the variable or combines two facts of opposite signs and
passes the filter. A completed round holds only outcomes and states whatever an outcome states
(`Eliminator.outcome_of_eliminate`, `Eliminator.states_of_eliminate`); it leaves the config alone. A
round that is given up has hit a limit of the config (`Eliminator.exceeds_of_eliminate`).
-/

namespace LinearRefutation

/-! ## Cancelling a variable -/

/-- Where two coefficients have opposite signs, multiples of them cancel exactly if they are equal
in absolute value. -/
theorem mul_add_mul_eq_zero_iff {a b : Int} (hsign : a * b < 0) (m n : Nat) :
    (m : Int) * a + n * b = 0 ↔ m * a.natAbs = n * b.natAbs := by
  rw [← Int.natCast_inj, Nat.cast_mul, Nat.cast_mul]
  rcases mul_neg_iff.mp hsign with ⟨hapos, hbneg⟩ | ⟨haneg, hbpos⟩
  · rw [Int.natAbs_of_nonneg hapos.le, Int.ofNat_natAbs_of_nonpos hbneg.le, mul_neg,
      add_eq_zero_iff_eq_neg]
  · rw [Int.ofNat_natAbs_of_nonpos haneg.le, Int.natAbs_of_nonneg hbpos.le, mul_neg,
      add_eq_zero_iff_neg_eq]

/-- Coefficients can be cancelled if they have opposite signs, by multiplying either up to their
least common multiple. -/
theorem Comparison.cancel?_eq_some_iff {c d : Comparison} {var m n : Nat} :
    c.cancel? d var = some (m, n) ↔
      c.coeff var * d.coeff var < 0 ∧
        m * (c.coeff var).natAbs = (c.coeff var).natAbs.lcm (d.coeff var).natAbs ∧
          n * (d.coeff var).natAbs = (c.coeff var).natAbs.lcm (d.coeff var).natAbs := by
  unfold cancel?
  set a := c.coeff var
  set b := d.coeff var
  by_cases hsign : a * b < 0
  · have ha : 0 < a.natAbs := Int.natAbs_pos.mpr (left_ne_zero_of_mul hsign.ne)
    have hb : 0 < b.natAbs := Int.natAbs_pos.mpr (right_ne_zero_of_mul hsign.ne)
    rw [if_pos hsign, Option.some.injEq, Prod.mk.injEq, and_iff_right hsign,
      Nat.div_eq_iff_eq_mul_left ha (Nat.dvd_lcm_left ..),
      Nat.div_eq_iff_eq_mul_left hb (Nat.dvd_lcm_right ..), eq_comm, @eq_comm _ (n * _)]
  · rw [if_neg hsign]
    exact iff_of_false (fun h => nomatch h) fun h => hsign h.1

/-- The multipliers of `cancel?` are positive and make the coefficients cancel. -/
theorem Comparison.cancel?_eq_some {c d : Comparison} {var m n : Nat}
    (h : c.cancel? d var = some (m, n)) :
    0 < m ∧ 0 < n ∧ (m : Int) * c.coeff var + n * d.coeff var = 0 := by
  obtain ⟨hsign, hm, hn⟩ := cancel?_eq_some_iff.mp h
  have ha : c.coeff var ≠ 0 := left_ne_zero_of_mul hsign.ne
  have hb : d.coeff var ≠ 0 := right_ne_zero_of_mul hsign.ne
  have hpos : 0 < (c.coeff var).natAbs.lcm (d.coeff var).natAbs :=
    Nat.lcm_pos (Int.natAbs_pos.mpr ha) (Int.natAbs_pos.mpr hb)
  exact ⟨Nat.pos_of_mul_pos_right (hm ▸ hpos), Nat.pos_of_mul_pos_right (hn ▸ hpos),
    (mul_add_mul_eq_zero_iff hsign m n).mpr (hm.trans hn.symm)⟩

theorem Comparison.isSome_cancel? {c d : Comparison} {var : Nat}
    (hc : 0 < c.coeff var) (hd : d.coeff var < 0) : (c.cancel? d var).isSome := by
  unfold cancel?
  rw [if_pos (mul_neg_of_pos_of_neg hc hd)]
  rfl

namespace Fact

/-- A multiple of a fact. -/
def times (factor : Nat) (p : Fact) : Fact :=
  { p with comparison := factor • p.comparison, derivation := .multiple factor p.derivation }

/-- The sum of the least multiples of two facts in which `var` cancels. -/
def combined? (p q : Fact) (var : Nat) : Option Fact :=
  (p.comparison.cancel? q.comparison var).map fun factors =>
    (p.times factors.1).add (q.times factors.2) var

theorem scale_eq {n : Nat} (hn : n ≠ 0) (p : Fact) : p.scale n = .ok (p.times n) := by
  unfold scale
  rw [Comparison.scale_eq hn]
  rfl

/-- Elimination finds the combination if there is one and never fails. -/
theorem eliminate?_eq (p q : Fact) (var : Nat) : p.eliminate? q var = .ok (p.combined? q var) := by
  unfold eliminate? combined?
  cases hcancel : p.comparison.cancel? q.comparison var with
  | none => rfl
  | some factors =>
    obtain ⟨hm, hn, -⟩ := Comparison.cancel?_eq_some hcancel
    show (do return some ((← p.scale factors.1).add (← q.scale factors.2) var)) = _
    rw [scale_eq hm.ne', scale_eq hn.ne']
    rfl

/-- A combination adds positive multiples of the comparisons and of the derivations, and the
variable cancels in it. -/
theorem combined?_eq_some {p q f : Fact} {var : Nat} (h : p.combined? q var = some f) :
    ∃ m n : Nat, 0 < m ∧ 0 < n ∧
      f.comparison = m • p.comparison + n • q.comparison ∧
      f.derivation = .sum (.multiple m p.derivation) (.multiple n q.derivation) ∧
      (m : Int) * p.comparison.coeff var + n * q.comparison.coeff var = 0 := by
  obtain ⟨⟨m, n⟩, hcancel, rfl⟩ := Option.map_eq_some_iff.mp h
  obtain ⟨hm, hn, hzero⟩ := Comparison.cancel?_eq_some hcancel
  exact ⟨m, n, hm, hn, rfl, rfl, hzero⟩

theorem exists_combined? {p q : Fact} {var : Nat} (hp : 0 < p.comparison.coeff var)
    (hq : q.comparison.coeff var < 0) : ∃ f, p.combined? q var = some f := by
  obtain ⟨factors, h⟩ := Option.isSome_iff_exists.mp (Comparison.isSome_cancel? hp hq)
  exact ⟨_, Option.map_eq_some_iff.mpr ⟨factors, h, rfl⟩⟩

/-- The coefficients of a combination are those of the sum. -/
theorem coeff_of_eq_add {p q f : Fact} {m n : Nat}
    (h : f.comparison = m • p.comparison + n • q.comparison) (v : Nat) :
    f.comparison.coeff v = m * p.comparison.coeff v + n * q.comparison.coeff v := by
  unfold Comparison.coeff
  rw [h, Comparison.form_add, Comparison.form_nsmul, Comparison.form_nsmul, LinearForm.coeff_add,
    LinearForm.coeff_nsmul, LinearForm.coeff_nsmul]

end Fact

/-! ## Budgets -/

/-- Whether an amount of a resource is within its limit. -/
def Config.Within (limit : Option Nat) (amount : Nat) : Prop := ∀ l, limit = some l → amount ≤ l

/-- A fault that says that a limit of the config is used up. -/
def Config.Exceeds (config : Config) (fault : Fault) : Prop :=
  (∃ limit, config.maxWorkingSet = some limit ∧ fault = .exhausted .workingSet limit) ∨
    ∃ limit, config.maxPairs = some limit ∧ fault = .exhausted .pairs limit

namespace Config

section Within

variable {limit : Option Nat} {amount amount' : Nat}

theorem within_zero (limit : Option Nat) : Within limit 0 := fun _ _ => Nat.zero_le _

theorem Within.mono (h : Within limit amount) (hle : amount' ≤ amount) : Within limit amount' :=
  fun l hl => hle.trans (h l hl)

theorem check_eq_ok_iff {resource : Resource} :
    check resource limit amount = .ok () ↔ Within limit amount := by
  unfold check Within
  cases limit with
  | none => simp
  | some l =>
    by_cases hlt : l < amount
    · simp [hlt]
    · simp [hlt, not_lt.mp hlt]

end Within

theorem check_eq_error {resource : Resource} {limit : Option Nat} {amount : Nat} {fault : Fault}
    (h : check resource limit amount = .error fault) :
    ∃ l, limit = some l ∧ fault = .exhausted resource l := by
  unfold check at h
  rcases limit with _ | l
  · exact nomatch h
  · by_cases hlt : l < amount
    · simp only [hlt, if_true, Except.error.injEq] at h
      exact ⟨l, rfl, h.symm⟩
    · simp only [hlt, if_false] at h
      exact nomatch h

variable {config : Config} {fault : Fault}

theorem exceeds_of_checkWorkingSet {size : Nat} (h : config.checkWorkingSet size = .error fault) :
    config.Exceeds fault :=
  .inl (check_eq_error h)

theorem exceeds_of_checkPairs {pairs : Nat} (h : config.checkPairs pairs = .error fault) :
    config.Exceeds fault :=
  .inr (check_eq_error h)

theorem Exceeds.eq_exhausted (h : config.Exceeds fault) :
    ∃ resource limit, fault = .exhausted resource limit := by
  rcases h with ⟨limit, -, rfl⟩ | ⟨limit, -, rfl⟩
  · exact ⟨_, limit, rfl⟩
  · exact ⟨_, limit, rfl⟩

/-- Without limits nothing is used up. -/
theorem not_exceeds (hset : config.maxWorkingSet = none) (hpairs : config.maxPairs = none) :
    ¬ config.Exceeds fault := by
  rintro (⟨limit, h, -⟩ | ⟨limit, h, -⟩)
  · rw [hset] at h
    exact nomatch h
  · rw [hpairs] at h
    exact nomatch h

end Config

/-! ## Taking in combinations -/

/-- Whether the filter, if it is on, lets a fact pass. -/
def Fact.Passes (f : Fact) (prune : Bool) (var : Nat) : Prop := prune = true → f.mayBeMinimal var

instance (f : Fact) (prune : Bool) (var : Nat) : Decidable (f.Passes prune var) :=
  inferInstanceAs (Decidable (prune = true → f.mayBeMinimal var))

/-- Whether a set of facts states a comparison. -/
def FactSet.States (facts : FactSet) (c : Comparison) : Prop := ∃ p ∈ facts, p.comparison = c

theorem FactSet.states_insert {facts : FactSet} {f : Fact} {c : Comparison} :
    FactSet.States (facts.insert f) c ↔ FactSet.States facts c ∨ f.comparison = c := by
  unfold States
  simp only [Ascending.mem_insert, ne_eq, Std.compare_eq_iff_eq]
  constructor
  · rintro ⟨p, rfl | ⟨hp, -⟩, hc⟩
    · exact .inr hc
    · exact .inl ⟨p, hp, hc⟩
  · rintro (⟨p, hp, hc⟩ | hc)
    · by_cases heq : p.comparison = f.comparison
      · exact ⟨f, .inl rfl, heq ▸ hc⟩
      · exact ⟨p, .inr ⟨hp, heq⟩, hc⟩
    · exact ⟨f, .inl rfl, hc⟩

/-- The set of a list of facts states what they state. -/
theorem FactSet.states_ofList {l : List Fact} {c : Comparison} :
    FactSet.States (Ascending.ofList l) c ↔ ∃ f ∈ l, f.comparison = c := by
  constructor
  · rintro ⟨f, hf, hc⟩
    exact ⟨f, (Ascending.mem_of_mem_foldl_insert hf).resolve_left (Ascending.not_mem_empty f), hc⟩
  · rintro ⟨f, hf, rfl⟩
    obtain ⟨g, hg, hkey⟩ :=
      Ascending.exists_mem_foldl_insert (s := (Ascending.empty : FactSet)) (.inr hf)
    exact ⟨g, hg, Std.LawfulEqOrd.eq_of_compare hkey⟩

namespace Gathering

variable {g : Gathering} {prune : Bool} {var : Nat} {f p : Fact}

/-- What taking in a combination does: the filter takes it out, or it is new, or it repeats the
comparison of a fact, whose place it takes if its history is shorter. -/
theorem take_cases (g : Gathering) (prune : Bool) (var : Nat) (f : Fact) :
    (¬ f.Passes prune var ∧ g.take prune var f = { g with discarded := f :: g.discarded }) ∨
      f.Passes prune var ∧
        ((g.facts.find? f.comparison = none ∧ g.take prune var f =
            { g with facts := g.facts.insert f, generated := g.generated + 1 }) ∨
          ∃ known, g.facts.find? f.comparison = some known ∧ g.take prune var f =
            { g with
              facts := if f.history.size < known.history.size then g.facts.insert f else g.facts
              duplicates := g.duplicates + 1 }) := by
  unfold take
  by_cases hfilter : (prune && !f.mayBeMinimal var) = true
  · rw [if_pos hfilter]
    rw [Bool.and_eq_true, Bool.not_eq_true'] at hfilter
    refine .inl ⟨fun hpass => ?_, rfl⟩
    rw [hpass hfilter.1] at hfilter
    exact Bool.false_ne_true hfilter.2.symm
  · rw [if_neg hfilter]
    refine .inr ⟨fun hprune => by simpa [hprune] using hfilter, ?_⟩
    cases hfind : g.facts.find? f.comparison with
    | none => exact .inl ⟨rfl, rfl⟩
    | some known => exact .inr ⟨known, rfl, rfl⟩

/-- What taking in a combination does to the facts kept: it is filtered out, it is inserted, or its
comparison is stated already and it is left out. -/
theorem facts_take (g : Gathering) (prune : Bool) (var : Nat) (f : Fact) :
    (g.take prune var f).facts = g.facts ∧ ¬ f.Passes prune var ∨
      f.Passes prune var ∧ ((g.take prune var f).facts = g.facts.insert f ∨
        (g.take prune var f).facts = g.facts ∧ g.facts.States f.comparison) := by
  rcases g.take_cases prune var f with ⟨hfails, htake⟩ | ⟨hpass, ⟨-, htake⟩ | ⟨known, hfind, htake⟩⟩
  · exact .inl ⟨by rw [htake], hfails⟩
  · exact .inr ⟨hpass, .inl (by rw [htake])⟩
  · refine .inr ⟨hpass, ?_⟩
    rw [htake]
    by_cases hbetter : f.history.size < known.history.size
    · exact .inl (if_pos hbetter)
    · obtain ⟨hmem, hkey⟩ := Ascending.find?_eq_some_iff.mp hfind
      exact .inr ⟨if_neg hbetter, known, hmem, Std.LawfulEqOrd.eq_of_compare hkey⟩

/-- Whatever is taken in, the facts kept are old ones or the new one. -/
theorem mem_take (h : p ∈ (g.take prune var f).facts) : p ∈ g.facts ∨ p = f ∧ f.Passes prune var := by
  rcases g.facts_take prune var f with ⟨hfacts, -⟩ | ⟨hpass, hfacts | ⟨hfacts, -⟩⟩
  · exact .inl (hfacts ▸ h)
  · rw [hfacts] at h
    rcases Ascending.mem_insert.mp h with heq | ⟨hp, -⟩
    · exact .inr ⟨heq, hpass⟩
    · exact .inl hp
  · exact .inl (hfacts ▸ h)

/-- A combination that passes is stated afterwards, and nothing is lost. -/
theorem states_take {c : Comparison} : (g.take prune var f).facts.States c ↔
    g.facts.States c ∨ f.Passes prune var ∧ f.comparison = c := by
  rcases g.facts_take prune var f with ⟨hfacts, hpass⟩ | ⟨hpass, hfacts | ⟨hfacts, hstates⟩⟩
  · simp only [hfacts, hpass, false_and, or_false]
  · simp only [hfacts, hpass, true_and]
    exact FactSet.states_insert
  · simp only [hfacts, hpass, true_and]
    exact ⟨.inl, fun h => h.elim id fun hc => hc ▸ hstates⟩

end Gathering

/-! ## Rounds -/

/-- The facts that eliminating a variable may leave: those that do not mention it, and combinations
of facts of opposite signs that pass the filter. -/
inductive FactSet.Outcome (facts : FactSet) (prune : Bool) (var : Nat) : Fact → Prop
  | untouched {p : Fact} (mem : p ∈ facts) (absent : p.comparison.coeff var = 0) :
    Outcome facts prune var p
  | combined {p q f : Fact} (left : p ∈ facts) (right : q ∈ facts)
    (pos : 0 < p.comparison.coeff var) (neg : q.comparison.coeff var < 0)
    (eq : p.combined? q var = some f) (passes : f.Passes prune var) : Outcome facts prune var f

theorem FactSet.mem_absent {facts : FactSet} {var : Nat} {p : Fact} :
    p ∈ FactSet.absent facts var ↔ p ∈ facts ∧ p.comparison.coeff var = 0 := by
  unfold absent
  rw [Ascending.mem_filter, decide_eq_true_iff]

theorem FactSet.mem_opposed {facts : FactSet} {var : Nat} {pair : Fact × Fact} :
    pair ∈ FactSet.opposed facts var ↔
      (pair.1 ∈ facts ∧ 0 < pair.1.comparison.coeff var) ∧
        pair.2 ∈ facts ∧ pair.2.comparison.coeff var < 0 := by
  unfold opposed positive negative
  simp only [List.mem_flatMap, List.mem_map, Ascending.mem_toList, Ascending.mem_filter,
    decide_eq_true_eq]
  constructor
  · rintro ⟨p, hp, q, hq, rfl⟩
    exact ⟨hp, hq⟩
  · rintro ⟨hp, hq⟩
    exact ⟨pair.1, hp, pair.2, hq, rfl⟩

/-- Opposed facts have a combination. -/
theorem FactSet.exists_combined?_of_mem_opposed {facts : FactSet} {var : Nat} {pair : Fact × Fact}
    (h : pair ∈ FactSet.opposed facts var) : ∃ f, pair.1.combined? pair.2 var = some f := by
  obtain ⟨⟨-, hpos⟩, -, hneg⟩ := mem_opposed.mp h
  exact Fact.exists_combined? hpos hneg

/-- A fact that does not mention the variable is an outcome. -/
theorem FactSet.outcome_of_mem_absent {facts : FactSet} {prune : Bool} {var : Nat} {p : Fact}
    (h : p ∈ FactSet.absent facts var) : FactSet.Outcome facts prune var p := by
  obtain ⟨hmem, habsent⟩ := mem_absent.mp h
  exact .untouched hmem habsent

/-- The combination of opposed facts is an outcome if it passes the filter. -/
theorem FactSet.outcome_of_mem_opposed {facts : FactSet} {prune : Bool} {var : Nat}
    {pair : Fact × Fact} {f : Fact} (h : pair ∈ FactSet.opposed facts var)
    (hsome : pair.1.combined? pair.2 var = some f) (hpass : f.Passes prune var) :
    FactSet.Outcome facts prune var f := by
  obtain ⟨⟨hl, hpos⟩, hr, hneg⟩ := mem_opposed.mp h
  exact .combined hl hr hpos hneg hsome hpass

/-- A check that lets a round go on has succeeded. -/
theorem Gathering.guard_eq_ok_iff {α : Type} {g : Gathering} {x : Except Fault α} {a : α} :
    g.guard x = .ok a ↔ x = .ok a := by
  cases x with
  | error fault => exact iff_of_false (fun h => nomatch h) fun h => nomatch h
  | ok b =>
    show Except.ok b = .ok a ↔ Except.ok b = .ok a
    rw [Except.ok.injEq, Except.ok.injEq]

/-- A check that gives up a round has failed, and nothing has been gathered since. -/
theorem Gathering.guard_eq_error {α : Type} {g : Gathering} {x : Except Fault α} {abort : Abort}
    (h : g.guard x = .error abort) : x = .error abort.fault ∧ abort.gathered = g := by
  rcases x with fault | a
  · obtain rfl : ⟨fault, g⟩ = abort := Except.error.inj h
    exact ⟨rfl, rfl⟩
  · exact nomatch h

/-- The gathering with one more pair tried. -/
def Gathering.tick (g : Gathering) : Gathering := { g with tried := g.tried + 1 }

section Combine

variable {e : Eliminator} {var : Nat} {g g' : Gathering} {pair : Fact × Fact} {f : Fact}

/-- What working off an opposed pair comes down to. -/
theorem Eliminator.combine_of_some (hsome : pair.1.combined? pair.2 var = some f) :
    e.combine var g pair = (do
      g.tick.guard (e.config.checkPairs (e.spent + (g.tried + 1)))
      let next := g.tick.take e.config.prune var f
      next.guard (e.config.checkWorkingSet next.facts.size)
      return next) := by
  unfold combine
  rw [Fact.eliminate?_eq, hsome]
  rfl

/-- An opposed pair is worked off exactly if both limits allow it. -/
theorem Eliminator.combine_eq_ok_iff (hsome : pair.1.combined? pair.2 var = some f) :
    e.combine var g pair = .ok g' ↔
      Config.Within e.config.maxPairs (e.spent + (g.tried + 1)) ∧
        Config.Within e.config.maxWorkingSet (g.tick.take e.config.prune var f).facts.size ∧
          g' = g.tick.take e.config.prune var f := by
  rw [combine_of_some hsome, bind_eq_ok_iff]
  constructor
  · rintro ⟨⟨⟩, hcharged, hrest⟩
    obtain ⟨⟨⟩, hfits, hend⟩ := bind_eq_ok_iff.mp hrest
    exact ⟨Config.check_eq_ok_iff.mp (Gathering.guard_eq_ok_iff.mp hcharged),
      Config.check_eq_ok_iff.mp (Gathering.guard_eq_ok_iff.mp hfits), (Except.ok.inj hend).symm⟩
  · rintro ⟨hcharged, hfits, rfl⟩
    exact ⟨(), Gathering.guard_eq_ok_iff.mpr (Config.check_eq_ok_iff.mpr hcharged),
      bind_eq_ok_iff.mpr ⟨(), Gathering.guard_eq_ok_iff.mpr (Config.check_eq_ok_iff.mpr hfits), rfl⟩⟩

/-- An opposed pair that is not worked off has hit a limit, before or after its combination was
taken in. -/
theorem Eliminator.combine_eq_error (hsome : pair.1.combined? pair.2 var = some f) {abort : Abort}
    (h : e.combine var g pair = .error abort) :
    e.config.Exceeds abort.fault ∧
      (abort.gathered = g.tick ∨ abort.gathered = g.tick.take e.config.prune var f) := by
  rw [combine_of_some hsome] at h
  rcases bind_eq_error_iff.mp h with hguard | ⟨-, -, hrest⟩
  · obtain ⟨hcheck, hgathered⟩ := Gathering.guard_eq_error hguard
    exact ⟨Config.exceeds_of_checkPairs hcheck, .inl hgathered⟩
  rcases bind_eq_error_iff.mp hrest with hguard | ⟨-, -, hend⟩
  · obtain ⟨hcheck, hgathered⟩ := Gathering.guard_eq_error hguard
    exact ⟨Config.exceeds_of_checkWorkingSet hcheck, .inr hgathered⟩
  · exact nomatch hend

end Combine

namespace Eliminator

variable {e : Eliminator} {var : Nat} {facts : FactSet}

/-- A step of the loop, as long as the pairs to come are opposed: the combination of the pair is
taken in, and what that keeps holds afterwards. -/
theorem combine_keeps {I : List (Fact × Fact) → Gathering → Prop}
    (keep : ∀ pair rest g f, pair ∈ FactSet.opposed facts var →
      pair.1.combined? pair.2 var = some f →
        Config.Within e.config.maxPairs (e.spent + (g.tried + 1)) →
          Config.Within e.config.maxWorkingSet (g.tick.take e.config.prune var f).facts.size →
            I (pair :: rest) g → I rest (g.tick.take e.config.prune var f))
    {pair : Fact × Fact} {rest : List (Fact × Fact)} {g g' : Gathering}
    (hstep : e.combine var g pair = .ok g')
    (h : (∀ q ∈ pair :: rest, q ∈ FactSet.opposed facts var) ∧ I (pair :: rest) g) :
    (∀ q ∈ rest, q ∈ FactSet.opposed facts var) ∧ I rest g' := by
  obtain ⟨hopposed, hI⟩ := h
  have hpair := hopposed pair List.mem_cons_self
  obtain ⟨f, hsome⟩ := FactSet.exists_combined?_of_mem_opposed hpair
  obtain ⟨hcharged, hfits, rfl⟩ := (combine_eq_ok_iff hsome).mp hstep
  exact ⟨fun q hq => hopposed q (List.mem_cons_of_mem _ hq),
    keep pair rest g f hpair hsome hcharged hfits hI⟩

/-- What holds at the start of a round and is kept whenever a pair is worked off holds at its end.
The invariant speaks of the pairs still to come. -/
theorem gather_induction {I : List (Fact × Fact) → Gathering → Prop}
    (start : I (FactSet.opposed facts var) { facts := FactSet.absent facts var })
    (keep : ∀ pair rest g f, pair ∈ FactSet.opposed facts var →
      pair.1.combined? pair.2 var = some f →
        Config.Within e.config.maxPairs (e.spent + (g.tried + 1)) →
          Config.Within e.config.maxWorkingSet (g.tick.take e.config.prune var f).facts.size →
            I (pair :: rest) g → I rest (g.tick.take e.config.prune var f))
    {g : Gathering} (h : e.gather var facts = .ok g) : I [] g := by
  unfold gather at h
  obtain ⟨-, -, hloop⟩ := bind_eq_ok_iff.mp h
  exact (foldlM_eq_ok (I := fun rest g => (∀ q ∈ rest, q ∈ FactSet.opposed facts var) ∧ I rest g)
    (fun _ _ _ _ => combine_keeps keep) hloop ⟨fun _ hq => hq, start⟩).2

/-- A round that is given up has hit a limit, and what it had gathered by then has every property
that holds at the start of a round and is kept whenever a pair is tried or its combination taken
in. -/
theorem abort_induction {P : Gathering → Prop} (start : P { facts := FactSet.absent facts var })
    (tick : ∀ g, P g → P g.tick)
    (take : ∀ pair g f, pair ∈ FactSet.opposed facts var → pair.1.combined? pair.2 var = some f →
      P g → P (g.tick.take e.config.prune var f))
    {abort : Abort} (h : e.gather var facts = .error abort) :
    e.config.Exceeds abort.fault ∧ P abort.gathered := by
  unfold gather at h
  rcases bind_eq_error_iff.mp h with hguard | ⟨-, -, hloop⟩
  · obtain ⟨hcheck, hgathered⟩ := Gathering.guard_eq_error hguard
    exact ⟨Config.exceeds_of_checkWorkingSet hcheck, hgathered ▸ start⟩
  -- the round is given up at one of its pairs
  obtain ⟨pair, rest, g, ⟨hopposed, hP⟩, hstep⟩ := foldlM_eq_error
    (I := fun rest g => (∀ q ∈ rest, q ∈ FactSet.opposed facts var) ∧ P g)
    (fun _ _ _ _ => combine_keeps (I := fun _ g => P g)
      fun pair _ g f hpair hsome _ _ => take pair g f hpair hsome)
    hloop ⟨fun _ hq => hq, start⟩
  have hpair := hopposed pair List.mem_cons_self
  obtain ⟨f, hsome⟩ := FactSet.exists_combined?_of_mem_opposed hpair
  obtain ⟨hlimit, hgathered | hgathered⟩ := combine_eq_error hsome hstep
  · exact ⟨hlimit, hgathered ▸ tick g hP⟩
  · exact ⟨hlimit, hgathered ▸ take pair g f hpair hsome hP⟩

end Eliminator

/-- What holds while pairs are worked off: those to come are opposed, only outcomes are kept, and
every outcome is stated or the combination of a pair to come. -/
structure Gathering.Progress (facts : FactSet) (prune : Bool) (var : Nat)
    (pairs : List (Fact × Fact)) (g : Gathering) : Prop where
  opposed : ∀ pair ∈ pairs, pair ∈ FactSet.opposed facts var
  sound : ∀ p ∈ g.facts, FactSet.Outcome facts prune var p
  complete : ∀ p, FactSet.Outcome facts prune var p →
    g.facts.States p.comparison ∨
      p.Passes prune var ∧ ∃ pair ∈ pairs, pair.1.combined? pair.2 var = some p

namespace Eliminator

variable {e e' : Eliminator} {var : Nat} {facts : FactSet}

theorem progress_start (facts : FactSet) (prune : Bool) (var : Nat) :
    Gathering.Progress facts prune var (FactSet.opposed facts var)
      { facts := FactSet.absent facts var } where
  opposed _ hpair := hpair
  sound _ hp := FactSet.outcome_of_mem_absent hp
  complete p hp := by
    cases hp with
    | untouched hmem habsent => exact .inl ⟨p, FactSet.mem_absent.mpr ⟨hmem, habsent⟩, rfl⟩
    | @combined left right _ hl hr hpos hneg hsome hpass =>
      have hopposed : (left, right) ∈ FactSet.opposed facts var :=
        FactSet.mem_opposed.mpr ⟨⟨hl, hpos⟩, hr, hneg⟩
      exact .inr ⟨hpass, (left, right), hopposed, hsome⟩

/-- With the combination of an opposed pair taken in, only outcomes are held. -/
theorem sound_take {prune : Bool} {pair : Fact × Fact} {g : Gathering} {f : Fact}
    (hpair : pair ∈ FactSet.opposed facts var) (hsome : pair.1.combined? pair.2 var = some f)
    (h : ∀ p ∈ g.facts, FactSet.Outcome facts prune var p) :
    ∀ p ∈ (g.tick.take prune var f).facts, FactSet.Outcome facts prune var p := by
  intro p hp
  rcases Gathering.mem_take hp with hold | ⟨rfl, hpass⟩
  · exact h p hold
  · exact FactSet.outcome_of_mem_opposed hpair hsome hpass

theorem progress_take {prune : Bool} {pair : Fact × Fact} {rest : List (Fact × Fact)} {g : Gathering}
    {f : Fact} (h : Gathering.Progress facts prune var (pair :: rest) g)
    (hsome : pair.1.combined? pair.2 var = some f) :
    Gathering.Progress facts prune var rest (g.tick.take prune var f) := by
  have hpair := h.opposed pair List.mem_cons_self
  refine ⟨fun q hq => h.opposed q (List.mem_cons_of_mem _ hq), sound_take hpair hsome h.sound,
    fun p hp => ?_⟩
  rcases h.complete p hp with hstates | ⟨hpass, q, hq, hcombined⟩
  · exact .inl (Gathering.states_take.mpr (.inl hstates))
  · rcases List.mem_cons.mp hq with rfl | hq
    · rw [hsome, Option.some.injEq] at hcombined
      subst hcombined
      exact .inl (Gathering.states_take.mpr (.inr ⟨hpass, rfl⟩))
    · exact .inr ⟨hpass, q, hq, hcombined⟩

/-- What is gathered holds only outcomes, and states what any outcome states. -/
theorem gather_eq_ok {g : Gathering} (h : e.gather var facts = .ok g) :
    (∀ p ∈ g.facts, FactSet.Outcome facts e.config.prune var p) ∧
      ∀ p, FactSet.Outcome facts e.config.prune var p → g.facts.States p.comparison := by
  have hend : Gathering.Progress facts e.config.prune var [] g :=
    gather_induction (progress_start facts e.config.prune var)
      (fun _ _ _ _ _ hsome _ _ hprogress => progress_take hprogress hsome) h
  refine ⟨hend.sound, fun p hp => (hend.complete p hp).resolve_right ?_⟩
  rintro ⟨-, _, hmem, -⟩
  exact List.not_mem_nil hmem

/-- An elimination is completed exactly if its round gathers something, and it is charged the pairs
tried. -/
theorem eliminate_eq_ok_iff {round : Round} :
    e.eliminate var facts = (.ok round, e') ↔
      ∃ g, e.gather var facts = .ok g ∧ round = ⟨var, facts, g⟩ ∧
        e' = { e with spent := e.spent + g.tried } := by
  unfold eliminate
  cases e.gather var facts with
  | error abort => simp
  | ok g => simp [eq_comm]

/-- The config survives a round, and the round gathered what it holds. -/
theorem eliminate_eq_ok {round : Round} (h : e.eliminate var facts = (.ok round, e')) :
    e'.config = e.config ∧ e.gather var facts = .ok round.gathered := by
  obtain ⟨g, hgather, rfl, rfl⟩ := eliminate_eq_ok_iff.mp h
  exact ⟨rfl, hgather⟩

/-- A round is given up when gathering is. -/
theorem eliminate_eq_error {abort : Abort} (h : e.eliminate var facts = (.error abort, e')) :
    e.gather var facts = .error abort := by
  unfold eliminate at h
  rcases hgather : e.gather var facts with abort' | gathered
  · rw [hgather, Prod.mk.injEq, Except.error.injEq] at h
    exact congrArg Except.error h.1
  · rw [hgather] at h
    exact nomatch h

/-- A completed round holds nothing but outcomes. -/
theorem outcome_of_eliminate {round : Round} (h : e.eliminate var facts = (.ok round, e')) {p : Fact}
    (hp : p ∈ round.facts) : FactSet.Outcome facts e.config.prune var p :=
  (gather_eq_ok (eliminate_eq_ok h).2).1 p hp

/-- What a round that is given up had gathered are outcomes, too. -/
theorem outcome_of_abort {abort : Abort} (h : e.eliminate var facts = (.error abort, e')) {p : Fact}
    (hp : p ∈ abort.gathered.facts) : FactSet.Outcome facts e.config.prune var p :=
  (abort_induction (P := fun g => ∀ p ∈ g.facts, FactSet.Outcome facts e.config.prune var p)
    (fun _ hq => FactSet.outcome_of_mem_absent hq) (fun _ hg => hg)
    (fun _ _ _ => sound_take) (eliminate_eq_error h)).2 p hp

/-- A completed round states what its outcomes state. -/
theorem states_of_eliminate {round : Round} (h : e.eliminate var facts = (.ok round, e')) {p : Fact}
    (hp : FactSet.Outcome facts e.config.prune var p) : round.facts.States p.comparison :=
  (gather_eq_ok (eliminate_eq_ok h).2).2 p hp

/-- A round that is given up has hit a limit. -/
theorem exceeds_of_eliminate {abort : Abort} (h : e.eliminate var facts = (.error abort, e')) :
    e.config.Exceeds abort.fault :=
  (abort_induction (P := fun _ => True) .intro (fun _ h => h) (fun _ _ _ _ _ h => h)
    (eliminate_eq_error h)).1

end Eliminator

end LinearRefutation
