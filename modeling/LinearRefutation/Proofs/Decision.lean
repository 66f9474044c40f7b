import LinearRefutation.Problem.Goal
import LinearRefutation.Proofs.Combination
import LinearRefutation.Proofs.Soundness

/-!
# Deciding problems and goals

Within its budgets a problem decides whether its hypotheses have a solution, and whether a goal
follows from them. An answer with evidence comes with a check that succeeds, and an answer without
evidence means that there is a solution: of the hypotheses, or of the hypotheses together with one
of the negations of the goal.
-/

namespace LinearRefutation

namespace Problem

variable {p : Problem}

/-! ## Satisfiability -/

/-- What an answer to a refutation says about the problem: a combination checks and excludes every
solution, no combination means that there is a solution, and a fault is a limit that is hit. -/
def Answers (p : Problem) : Except Fault (Option Combination) → Prop
  | .ok (some comb) => comb.check p = true ∧ ∀ x, ¬ p.SatisfiedBy x
  | .ok none => ∃ x, p.SatisfiedBy x
  | .error fault => p.config.Exceeds fault

theorem not_satisfiedBy_of_verify {cert : Certificate} (h : cert.verify p.encode.comparisons = true)
    (x : Assignment) : ¬ p.SatisfiedBy x := by
  intro hx
  -- a solution of the problem gives one of the encoding
  obtain ⟨y, hy⟩ := exists_holdsRelaxed_encode_iff.mpr ⟨x, hx⟩
  rw [Certificate.not_verify_of_holdsRelaxed hy] at h
  exact nomatch h

/-- The answer to a refutation is the verdict of the refuter on the encoding. -/
theorem refute_value (p : Problem) :
    p.refute.value = ((({ config := p.config } : Refuter).run p.encode.comparisons
      p.encode.maxVar).1.value.map Verdict.certificate?).map
        (Option.map fun cert => Combination.ofCertificate cert p.encode.origins) := rfl

theorem answers_refute (p : Problem) : p.Answers p.refute.value := by
  rw [refute_value]
  rcases hrun : (({ config := p.config } : Refuter).run p.encode.comparisons
      p.encode.maxVar).1.value with fault | verdict
  · -- the refuter never refuses an encoding
    exact Refuter.exceeds_of_run (fun _ hc _ hv => le_maxVar hc hv) hrun
  · have hreports : ({ config := p.config } : Refuter).Reports p.encode.comparisons verdict :=
      .inl ⟨_, hrun⟩
    cases verdict with
    | refuted w =>
      have hverify := hreports.refutes.verify
      exact ⟨Combination.check_ofCertificate hverify, not_satisfiedBy_of_verify hverify⟩
    | exhausted => exact exists_holdsRelaxed_encode_iff.mp hreports.exists_holdsRelaxed

/-- A refutation decides whether the hypotheses have a solution: a combination that is found checks
and there is no solution, and if none is found there is a solution. Only a budget can prevent an
answer. -/
theorem refute_decides (p : Problem) :
    (∀ comb, p.refute.value = .ok (some comb) → comb.check p = true ∧ ∀ x, ¬ p.SatisfiedBy x) ∧
      (p.refute.value = .ok none → ∃ x, p.SatisfiedBy x) ∧
      (∀ fault, p.refute.value = .error fault →
        ∃ resource limit, fault = .exhausted resource limit) ∧
      (p.config.maxWorkingSet = none → p.config.maxPairs = none →
        ∃ answer, p.refute.value = .ok answer) := by
  have hanswers := p.answers_refute
  refine ⟨?_, ?_, ?_, ?_⟩
  · intro comb h
    rw [h] at hanswers
    exact hanswers
  · intro h
    rw [h] at hanswers
    exact hanswers
  · intro fault h
    rw [h] at hanswers
    exact Config.Exceeds.eq_exhausted hanswers
  · intro hset hpairs
    rcases hvalue : p.refute.value with fault | answer
    · rw [hvalue] at hanswers
      exact absurd hanswers (Config.not_exceeds hset hpairs)
    · exact ⟨answer, rfl⟩

/-- `x₀ = 2` and `3·x₀ ≤ 5` have no solution; the equality is used with its signs changed. -/
theorem refute_decides_equality :
    let p : Problem := { hypotheses := [⟨.var 0, .eq, .const 2⟩, ⟨.term 0 3, .le, .const 5⟩] }
    ∃ comb, p.refute.value = .ok (some comb) ∧ comb.check p = true ∧ ∀ x, ¬ p.SatisfiedBy x :=
  ⟨_, rfl, (refute_decides _).1 _ rfl⟩

/-! ## Entailment -/

theorem satisfiedBy_extend {h : Hypothesis} {x : Assignment} :
    (p.extend h).SatisfiedBy x ↔ p.SatisfiedBy x ∧ h.Holds x := by
  unfold SatisfiedBy extend
  simp only [List.mem_append, List.mem_singleton, or_imp, forall_and, forall_eq]

end Problem

/-- A hypothesis fails exactly if one of its negations holds. -/
theorem Hypothesis.not_holds_iff {h : Hypothesis} {x : Assignment} :
    ¬ h.Holds x ↔ ∃ n ∈ h.negations, n.Holds x := by
  obtain ⟨l, r, e⟩ := h
  cases r with
  | lt => simp [negations, Relation.negate?, Holds, Relation.Holds]
  | le => simp [negations, Relation.negate?, Holds, Relation.Holds]
  | eq =>
    simp only [negations, Relation.negate?, Holds, Relation.Holds, List.mem_cons, List.not_mem_nil,
      or_false, exists_eq_or_imp, exists_eq_left]
    rw [or_comm]
    exact ne_iff_lt_or_gt
  | ge => simp [negations, Relation.negate?, Holds, Relation.Holds]
  | gt => simp [negations, Relation.negate?, Holds, Relation.Holds]

theorem Hypothesis.negations_ne_nil (h : Hypothesis) : h.negations ≠ [] := by
  unfold negations
  rcases h.rel.negate? with _ | rel
  · exact List.cons_ne_nil _ _
  · exact List.cons_ne_nil _ _

namespace Problem

variable {p : Problem} {goal : Hypothesis}

/-- What an answer about a list of negated goals says: refuted cases of all of them check and
exclude every solution in which one of them holds, and without them there is such a solution. -/
def AnswersCases (p : Problem) (negations : List Hypothesis) :
    Except Fault (Option (List ProofCase)) → Prop
  | .ok (some refuted) => refuted.map ProofCase.negatedGoal = negations ∧
      (∀ case ∈ refuted, case.check p = true) ∧
      ∀ n ∈ negations, ∀ x, p.SatisfiedBy x → ¬ n.Holds x
  | .ok none => ∃ n ∈ negations, ∃ x, p.SatisfiedBy x ∧ n.Holds x
  | .error fault => p.config.Exceeds fault

/-- One step through the negations of a goal. -/
theorem proveCases_cons_value (p : Problem) (goal negatedGoal : Hypothesis) (rest : List Hypothesis) :
    (p.proveCases goal (negatedGoal :: rest)).value =
      match (p.extend negatedGoal).refute.value with
      | .error fault => .error fault
      | .ok none => .ok none
      | .ok (some comb) =>
        (p.proveCases goal rest).value.map (Option.map (⟨negatedGoal, comb⟩ :: ·)) := by
  rw [proveCases]
  show Logged.value (match (p.extend negatedGoal).refute.value with
    | .error fault => _
    | .ok none => _
    | .ok (some comb) => _) = _
  rcases (p.extend negatedGoal).refute.value with fault | _ | comb
  · rfl
  · rfl
  · rfl

theorem answersCases_proveCases (p : Problem) (goal : Hypothesis) (negations : List Hypothesis) :
    p.AnswersCases negations (p.proveCases goal negations).value := by
  induction negations with
  | nil => exact ⟨rfl, by simp, by simp⟩
  | cons n rest ih =>
    rw [proveCases_cons_value]
    have hfirst := (p.extend n).answers_refute
    generalize (p.extend n).refute.value = first at hfirst ⊢
    rcases first with fault | _ | comb
    · exact hfirst
    · obtain ⟨x, hx⟩ := hfirst
      exact ⟨n, List.mem_cons_self, x, satisfiedBy_extend.mp hx⟩
    · -- the first negation is refuted, and the rest decides
      obtain ⟨hcheck, hunsat⟩ := hfirst
      generalize (p.proveCases goal rest).value = answer at ih ⊢
      rcases answer with fault | _ | refuted
      · exact ih
      · obtain ⟨n', hmem, hsat⟩ := ih
        exact ⟨n', List.mem_cons_of_mem _ hmem, hsat⟩
      · obtain ⟨hmap, hall, hexcluded⟩ := ih
        have hfails : ∀ x, p.SatisfiedBy x → ¬ n.Holds x := by
          intro x hx hn
          exact hunsat x (satisfiedBy_extend.mpr ⟨hx, hn⟩)
        exact ⟨congrArg (n :: ·) hmap, List.forall_mem_cons.mpr ⟨hcheck, hall⟩,
          List.forall_mem_cons.mpr ⟨hfails, hexcluded⟩⟩

/-- The cases that are found for all negations of a goal make up a proof that checks. -/
theorem check_of_answersCases {refuted : List ProofCase}
    (h : p.AnswersCases goal.negations (.ok (some refuted))) : (GoalProof.mk refuted).check p = true := by
  obtain ⟨hmap, hall, -⟩ := h
  have hne : refuted ≠ [] := by
    rintro rfl
    exact goal.negations_ne_nil hmap.symm
  unfold GoalProof.check
  rw [Bool.and_eq_true, List.all_eq_true]
  exact ⟨by simpa using hne, hall⟩

/-- A goal none of whose negations has a solution holds in every solution. -/
theorem holds_of_answersCases {refuted : List ProofCase}
    (h : p.AnswersCases goal.negations (.ok (some refuted))) {x : Assignment} (hx : p.SatisfiedBy x) :
    goal.Holds x := by
  by_contra hfails
  obtain ⟨n, hmem, hn⟩ := Hypothesis.not_holds_iff.mp hfails
  exact h.2.2 n hmem x hx hn

theorem prove_value (p : Problem) (goal : Hypothesis) :
    (p.prove goal).value = (p.proveCases goal goal.negations).value.map (Option.map GoalProof.mk) := rfl

/-- A proof attempt decides whether the goal follows from the hypotheses: a proof that is found
checks and every solution satisfies the goal, and if none is found some solution violates the
goal. -/
theorem prove_decides (p : Problem) (goal : Hypothesis) :
    (∀ proof, (p.prove goal).value = .ok (some proof) →
        proof.check p = true ∧ ∀ x, p.SatisfiedBy x → goal.Holds x) ∧
      ((p.prove goal).value = .ok none → ∃ x, p.SatisfiedBy x ∧ ¬ goal.Holds x) := by
  have hanswers := p.answersCases_proveCases goal goal.negations
  rw [prove_value]
  constructor
  · intro proof h
    obtain ⟨answer, hvalue, hproof⟩ := map_eq_ok_iff.mp h
    obtain ⟨refuted, rfl, rfl⟩ := Option.map_eq_some_iff.mp hproof
    rw [hvalue] at hanswers
    exact ⟨check_of_answersCases hanswers, fun x => holds_of_answersCases hanswers⟩
  · intro h
    obtain ⟨answer, hvalue, hnone⟩ := map_eq_ok_iff.mp h
    rw [hvalue, Option.map_eq_none_iff.mp hnone] at hanswers
    obtain ⟨n, hmem, x, hx, hn⟩ := hanswers
    exact ⟨x, hx, Hypothesis.not_holds_iff.mpr ⟨n, hmem, hn⟩⟩

/-- `2·x₀ = x₀ + x₁` follows from `x₀ ≤ x₁` and `x₀ ≥ x₁`. -/
theorem prove_decides_equality :
    let p : Problem := { hypotheses := [⟨.var 0, .le, .var 1⟩, ⟨.var 0, .ge, .var 1⟩] }
    let goal : Hypothesis := ⟨.term 0 2, .eq, .var 0 + .var 1⟩
    ∃ proof, (p.prove goal).value = .ok (some proof) ∧
      proof.check p = true ∧ ∀ x, p.SatisfiedBy x → goal.Holds x :=
  ⟨_, rfl, (prove_decides _ _).1 _ rfl⟩

end Problem

end LinearRefutation
