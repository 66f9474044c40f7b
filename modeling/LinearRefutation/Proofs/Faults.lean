import LinearRefutation.Proofs.Decision

/-!
# Faults that can be met

Scaling a form by zero is a fault, and nothing that searches, replays or checks ever meets it,
whatever it is given (`never_scales_by_zero`). The guards differ. Elimination cancels coefficients
of opposite signs only, so that the absolute values it divides by and the multipliers it finds are
positive. A replay refuses a multiplicity that is zero before it scales, a check passes over a
coefficient that is zero, and a multiple of an expression by zero is zero without scaling.

Some functions do not tell their faults: those that answer with a Boolean, and those that divide,
since a number divided by zero is a number. Beside each of them stands a function `try…` that
differs only in that it tells the fault; it always has the same answer.
-/

namespace LinearRefutation

/-- Whether a computation has not tried to scale by zero. -/
def ScalesSafely {α : Type} (x : Except Fault α) : Prop := x ≠ .error .zeroFactor

theorem scalesSafely_ok {α : Type} (a : α) : ScalesSafely (.ok a) := fun h => nomatch h

theorem scalesSafely_map {α β : Type} {x : Except Fault α} {f : α → β} :
    ScalesSafely (x.map f) ↔ ScalesSafely x := not_congr map_eq_error_iff

/-- A computation whose only faults are limits that are hit scales safely. -/
theorem scalesSafely_of_exceeds {α : Type} (config : Config) {x : Except Fault α}
    (h : ∀ fault, x = .error fault → config.Exceeds fault) : ScalesSafely x := by
  intro hzero
  obtain ⟨resource, limit, heq⟩ := (h _ hzero).eq_exhausted
  exact nomatch heq

/-! ## Cancelling -/

/-- Division that tells a divisor zero. -/
def divide? (a b : Nat) : Option Nat := if b = 0 then none else some (a / b)

/-- The multipliers of `cancel?`, found with divisions that tell a divisor zero. -/
def Comparison.tryCancel? (c d : Comparison) (var : Nat) : Option (Option (Nat × Nat)) :=
  let a := c.coeff var
  let b := d.coeff var
  if a * b < 0 then do
    let common := a.natAbs.lcm b.natAbs
    let m ← divide? common a.natAbs
    let n ← divide? common b.natAbs
    return some (m, n)
  else
    return none

/-- Cancelling a variable never divides by zero. -/
theorem Comparison.tryCancel?_eq (c d : Comparison) (var : Nat) :
    c.tryCancel? d var = some (c.cancel? d var) := by
  unfold tryCancel? cancel?
  by_cases hsign : c.coeff var * d.coeff var < 0
  · have ha : (c.coeff var).natAbs ≠ 0 := Int.natAbs_ne_zero.mpr (left_ne_zero_of_mul hsign.ne)
    have hb : (d.coeff var).natAbs ≠ 0 := Int.natAbs_ne_zero.mpr (right_ne_zero_of_mul hsign.ne)
    simp only [if_pos hsign, divide?, if_neg ha, if_neg hb]
    rfl
  · simp only [if_neg hsign]
    rfl

/-- Combining two facts never fails, whatever they are. -/
theorem Fact.scalesSafely_eliminate? (p q : Fact) (var : Nat) :
    ScalesSafely (p.eliminate? q var) := by
  rw [eliminate?_eq]
  exact scalesSafely_ok _

/-! ## Replaying -/

namespace Certificate

variable {hypotheses : List Comparison} {sum : Comparison} {entry : Nat × Nat} {fault : Fault}

/-- A listed multiple is refused for its multiplicity or for its index. -/
theorem addMultiple_eq_error (h : addMultiple hypotheses sum entry = .error fault) :
    (entry.2 = 0 ∧ fault = .badCertificate (.zeroMultiplicity entry.1)) ∨
      (hypotheses.length ≤ entry.1 ∧
        fault = .badCertificate (.outOfRange entry.1 hypotheses.length)) := by
  unfold addMultiple at h
  by_cases hzero : entry.2 = 0
  · rw [if_pos hzero] at h
    exact .inl ⟨hzero, (Except.error.inj h).symm⟩
  · rw [if_neg hzero] at h
    by_cases hlt : entry.1 < hypotheses.length
    · rw [List.getElem?_eq_getElem hlt] at h
      simp only [Comparison.scale_eq hzero] at h
      exact nomatch h
    · rw [List.getElem?_eq_none (not_lt.mp hlt)] at h
      exact .inr ⟨not_lt.mp hlt, (Except.error.inj h).symm⟩

/-- A replay fails for the multiplicity or for the index of an entry. -/
theorem replay_eq_error {cert : Certificate} (h : cert.replay hypotheses = .error fault) :
    ∃ entry ∈ cert.multipliers,
      (entry.2 = 0 ∧ fault = .badCertificate (.zeroMultiplicity entry.1)) ∨
        (hypotheses.length ≤ entry.1 ∧
          fault = .badCertificate (.outOfRange entry.1 hypotheses.length)) := by
  obtain ⟨entry, rest, sum, hlisted, hstep⟩ := foldlM_eq_error
    (I := fun rest _ => ∀ entry ∈ rest, entry ∈ cert.multipliers)
    (fun _ _ _ _ _ hall entry hentry => hall entry (List.mem_cons_of_mem _ hentry)) h
    fun _ hentry => hentry
  exact ⟨entry, hlisted entry List.mem_cons_self, addMultiple_eq_error hstep⟩

theorem scalesSafely_replay (cert : Certificate) (hypotheses : List Comparison) :
    ScalesSafely (cert.replay hypotheses) := by
  intro hzero
  obtain ⟨entry, -, ⟨-, heq⟩ | ⟨-, heq⟩⟩ := replay_eq_error hzero
  · exact nomatch heq
  · exact nomatch heq

/-- Whether the replay gives `0 < 0`, unless it meets a fault that is not the certificate's. -/
def tryVerify (cert : Certificate) (hypotheses : List Comparison) : Except Fault Bool :=
  match cert.replay hypotheses with
  | .ok sum => .ok sum.isContradiction
  | .error (.badCertificate _) => .ok false
  | .error fault => .error fault

theorem tryVerify_eq (cert : Certificate) (hypotheses : List Comparison) :
    cert.tryVerify hypotheses = .ok (cert.verify hypotheses) := by
  unfold tryVerify verify
  rcases hreplay : cert.replay hypotheses with fault | sum
  · obtain ⟨entry, -, ⟨-, rfl⟩ | ⟨-, rfl⟩⟩ := replay_eq_error hreplay
    · rfl
    · rfl
  · rfl

end Certificate

/-! ## Checking -/

namespace Combination

variable {hypotheses : List Hypothesis} {sum : Residue} {entry : Nat × Int} {flaw : Flaw}

/-- A listed multiple is refused for its index or for its sign. -/
theorem addMultiple_eq_error (h : addMultiple hypotheses sum entry = .error flaw) :
    flaw = .missing entry.1 ∨ flaw = .negative entry.1 := by
  by_cases hlt : entry.1 < hypotheses.length
  · rw [addMultiple_of_lt hlt] at h
    split at h
    · exact .inr (Except.error.inj h).symm
    · split at h
      · exact nomatch h
      · exact nomatch h
  · unfold addMultiple at h
    rw [List.getElem?_eq_none (not_lt.mp hlt)] at h
    exact .inl (Except.error.inj h).symm

/-- A sum fails for the index or for the sign of an entry. -/
theorem residue_eq_error {comb : Combination} (h : comb.residue hypotheses = .error flaw) :
    ∃ hypothesis, flaw = .missing hypothesis ∨ flaw = .negative hypothesis := by
  obtain ⟨entry, rest, sum, -, hstep⟩ := foldlM_eq_error (I := fun _ _ => True)
    (fun _ _ _ _ _ h => h) h trivial
  exact ⟨entry.1, addMultiple_eq_error hstep⟩

/-- Whether the sum is a constant that fails its comparison with zero, unless a multiple could not
be formed. -/
def tryCheck (comb : Combination) (p : Problem) : Except Fault Bool :=
  match comb.residue p.hypotheses with
  | .ok (sum, rel) => .ok (sum.isConstant && rel.violatedBy sum.constant)
  | .error (.unscalable fault) => .error fault
  | .error _ => .ok false

theorem tryCheck_eq (comb : Combination) (p : Problem) :
    comb.tryCheck p = .ok (comb.check p) := by
  unfold tryCheck check
  rcases hresidue : comb.residue p.hypotheses with flaw | ⟨sum, rel⟩
  · obtain ⟨hypothesis, rfl | rfl⟩ := residue_eq_error hresidue
    · rfl
    · rfl
  · rfl

end Combination

/-- Whether there is a case and all cases check, unless a multiple could not be formed. -/
def GoalProof.tryCheck (proof : GoalProof) (p : Problem) : Except Fault Bool :=
  if proof.cases.isEmpty then
    .ok false
  else
    proof.cases.allM fun case => case.combination.tryCheck (p.extend case.negatedGoal)

theorem GoalProof.tryCheck_eq (proof : GoalProof) (p : Problem) :
    proof.tryCheck p = .ok (proof.check p) := by
  unfold tryCheck check
  simp only [Combination.tryCheck_eq]
  by_cases hempty : proof.cases.isEmpty
  · rw [if_pos hempty, hempty]
    rfl
  · rw [if_neg hempty, Bool.eq_false_of_not_eq_true hempty]
    exact List.allM_pure

/-! ## Searching -/

namespace Refuter

variable {r : Refuter} {hypotheses : List Comparison}

theorem scalesSafely_run (r : Refuter) (hypotheses : List Comparison) (maxVar : Nat) :
    ScalesSafely (r.run hypotheses maxVar).1.value := by
  rcases run_cases r hypotheses maxVar with ⟨index, var, -, hrefused⟩ | ⟨-, hsearch⟩
  · rw [hrefused]
    exact fun h => nomatch h
  · rw [hsearch]
    exact scalesSafely_of_exceeds r.config fun _ => Run.exceeds_of_error

theorem scalesSafely_runAuto (r : Refuter) (hypotheses : List Comparison) :
    ScalesSafely (r.runAuto hypotheses).1.value :=
  scalesSafely_of_exceeds r.config fun _ => Run.exceeds_of_error

end Refuter

namespace Problem

variable {p : Problem}

/-- Asking an oracle brings up the faults of its reply and no others. -/
theorem scalesSafely_refuteWith {σ : Type} [Oracle σ] {oracle : σ} :
    ScalesSafely (p.refuteWith oracle).1.value ↔
      ScalesSafely (Oracle.produce oracle p.encode.comparisons p.encode.maxVar).1.value :=
  scalesSafely_map

theorem scalesSafely_refute (p : Problem) : ScalesSafely p.refute.value := by
  refine scalesSafely_of_exceeds p.config fun fault h => ?_
  have hanswers := p.answers_refute
  rw [h] at hanswers
  exact hanswers

theorem scalesSafely_prove (p : Problem) (goal : Hypothesis) :
    ScalesSafely (p.prove goal).value := by
  rw [prove_value, scalesSafely_map]
  refine scalesSafely_of_exceeds p.config fun fault h => ?_
  have hanswers := p.answersCases_proveCases goal goal.negations
  rw [h] at hanswers
  exact hanswers

end Problem

/-- Nothing is ever scaled or divided by zero: not in a search, under whatever config and with
whatever statistics, nor in the proof of a goal; not by asking an oracle, unless the oracle does so
itself; not in replaying or checking evidence, wherever it comes from, nor in taking a multiple of
an expression; and not in combining two facts, however they have come about. -/
theorem never_scales_by_zero :
    (∀ (r : Refuter) (hypotheses : List Comparison),
      (∀ maxVar, ScalesSafely (r.run hypotheses maxVar).1.value) ∧
        ScalesSafely (r.runAuto hypotheses).1.value) ∧
    (∀ p : Problem, ScalesSafely p.refute.value ∧ (∀ goal, ScalesSafely (p.prove goal).value) ∧
      ∀ {σ : Type} [Oracle σ] (oracle : σ), ScalesSafely (p.refuteWith oracle).1.value ↔
        ScalesSafely (Oracle.produce oracle p.encode.comparisons p.encode.maxVar).1.value) ∧
    (∀ (cert : Certificate) (hypotheses : List Comparison),
      ScalesSafely (cert.replay hypotheses) ∧
        cert.tryVerify hypotheses = .ok (cert.verify hypotheses)) ∧
    (∀ p : Problem, (∀ comb : Combination, comb.tryCheck p = .ok (comb.check p)) ∧
      ∀ proof : GoalProof, proof.tryCheck p = .ok (proof.check p)) ∧
    (∀ (k : Int) (e : AffineExpr), ScalesSafely (e.scale k)) ∧
    (∀ (p q : Fact) (var : Nat), ScalesSafely (p.eliminate? q var)) ∧
    ∀ (c d : Comparison) (var : Nat), c.tryCancel? d var = some (c.cancel? d var) := by
  refine ⟨fun r hypotheses => ⟨r.scalesSafely_run hypotheses, r.scalesSafely_runAuto hypotheses⟩,
    fun p => ⟨p.scalesSafely_refute, p.scalesSafely_prove, fun _ => Problem.scalesSafely_refuteWith⟩,
    fun cert hypotheses => ⟨cert.scalesSafely_replay hypotheses, cert.tryVerify_eq hypotheses⟩,
    fun p => ⟨fun comb => comb.tryCheck_eq p, fun proof => proof.tryCheck_eq p⟩, fun k e => ?_,
    Fact.scalesSafely_eliminate?, Comparison.tryCancel?_eq⟩
  rw [AffineExpr.scale_eq]
  exact scalesSafely_ok _

/-- A certificate and a combination that list a hypothesis zero times: the one is refused, the other
is looked at without it, and the multiple of an expression by zero is formed all the same. -/
theorem never_scales_by_zero_listed :
    let cert : Certificate := ⟨.ofList [(0, 0)]⟩
    let comb : Combination := { coefficients := .ofList [(0, 0), (1, -1)] }
    let e : AffineExpr := .var 0
    let p : Problem := { hypotheses := [⟨e, .lt, e⟩, ⟨.const 1, .eq, .const 0⟩] }
    (ScalesSafely (cert.replay p.encode.comparisons) ∧
        cert.replay p.encode.comparisons = .error (.badCertificate (.zeroMultiplicity 0))) ∧
      (comb.tryCheck p = .ok (comb.check p) ∧ comb.check p = true) ∧
        ScalesSafely (e.scale 0) ∧ e.scale 0 = .ok 0 := by
  intro cert comb e p
  obtain ⟨-, -, hreplay, hcheck, hscale, -, -⟩ := never_scales_by_zero
  have hfails : cert.replay p.encode.comparisons =
      .error (.badCertificate (.zeroMultiplicity 0)) := by decide
  have hholds : comb.check p = true := by decide
  exact ⟨⟨(hreplay cert _).1, hfails⟩, ⟨(hcheck p).1 comb, hholds⟩, hscale 0 e, rfl⟩

end LinearRefutation
