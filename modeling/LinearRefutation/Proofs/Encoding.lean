import LinearRefutation.Proofs.Refuter

/-!
# What the encoding of a problem says

In the encoding of a problem variable `0` stands for the constant one. An assignment satisfies the
comparisons exactly if it gives that variable a positive value and dividing by this value gives a
solution of the problem (`Problem.holds_encode_iff`). Reading the comparisons relaxed makes no
difference (`Problem.holdsRelaxed_encode_iff`), because an equality is there with both signs. No
variable is above the bound that goes with the encoding, so that a search never refuses it
(`Problem.encode_preserves_meaning`).

Encoding is additive: a sum of expressions, with the sum of their comparators, is encoded as the sum
of their comparisons (`encodeHom`).
-/

namespace LinearRefutation

/-! ## Encoded expressions -/

/-- Moving all variables up by one makes room for variable `0`. -/
theorem LinearForm.coeffSum_shift (terms : List (Nat × Int)) (v : Nat) :
    coeffSum (terms.map fun t => (t.1 + 1, t.2)) v = if v = 0 then 0 else coeffSum terms (v - 1) := by
  induction terms with
  | nil => simp [coeffSum]
  | cons t rest ih =>
    simp only [List.map_cons, coeffSum, ih]
    by_cases hv : v = 0
    · subst hv
      simp
    · have hshift : t.1 + 1 = v ↔ t.1 = v - 1 := by omega
      simp only [hv, hshift, if_false]

namespace AffineExpr

variable (e : AffineExpr) (rel : Comparator)

/-- Variable `0` carries the constant. -/
theorem coeff_encode_zero : (e.encode rel).coeff 0 = e.constant := by
  unfold Comparison.coeff encode
  rw [LinearForm.coeff_ofTerms]
  simp [LinearForm.coeffSum, LinearForm.coeffSum_shift]

/-- Variable `v + 1` carries the coefficient of variable `v`. -/
theorem coeff_encode_succ (v : Nat) : (e.encode rel).coeff (v + 1) = e.form.coeff v := by
  unfold Comparison.coeff encode
  rw [LinearForm.coeff_ofTerms]
  simp [LinearForm.coeffSum, LinearForm.coeffSum_shift, LinearForm.coeffSum_terms]

/-- The value of an encoded expression, with the constant multiplied by the value of variable
`0`. -/
theorem eval_encode (y : Assignment) :
    (e.encode rel).form.eval y = e.constant * y 0 + e.form.eval fun v => y (v + 1) := by
  unfold encode
  rw [LinearForm.eval_ofTerms, List.map_cons, List.sum_cons, List.map_map]
  rfl

end AffineExpr

/-- Encoding as a homomorphism. -/
def encodeHom : AffineExpr × Comparator →+ Comparison where
  toFun s := s.1.encode s.2
  map_zero' := rfl
  map_add' s t := by
    refine Comparison.ext rfl (LinearForm.ext_coeff fun v => ?_)
    rw [Comparison.form_add, LinearForm.coeff_add]
    cases v with
    | zero =>
      show Comparison.coeff _ 0 = Comparison.coeff _ 0 + Comparison.coeff _ 0
      rw [AffineExpr.coeff_encode_zero, AffineExpr.coeff_encode_zero, AffineExpr.coeff_encode_zero]
      rfl
    | succ v =>
      show Comparison.coeff _ (v + 1) = Comparison.coeff _ (v + 1) + Comparison.coeff _ (v + 1)
      rw [AffineExpr.coeff_encode_succ, AffineExpr.coeff_encode_succ, AffineExpr.coeff_encode_succ]
      exact LinearForm.coeff_add ..

/-- Multiplying an assignment multiplies the values of all forms. -/
theorem LinearForm.eval_smul (e : LinearForm) (x : Assignment) (t : ℚ) :
    (e.eval fun v => t * x v) = t * e.eval x := by
  unfold eval
  rw [← List.sum_map_mul_left]
  congr 1
  apply List.map_congr_left
  intro term _
  ring

/-- At an assignment with a positive variable `0`, an encoded expression has a positive multiple of
the value of the expression at the quotients. -/
theorem AffineExpr.eval_encode_eq_mul (e : AffineExpr) (rel : Comparator) {y : Assignment}
    (hy : 0 < y 0) : (e.encode rel).form.eval y = y 0 * e.eval fun v => y (v + 1) / y 0 := by
  have hscaled : (fun v => y (v + 1)) = fun v => y 0 * (y (v + 1) / y 0) := by
    funext v
    field_simp
  rw [eval_encode, hscaled, LinearForm.eval_smul, eval]
  ring

/-- A positive multiple compares with zero in the same way. -/
theorem Comparator.holds_mul_iff (r : Comparator) {t q : ℚ} (ht : 0 < t) :
    r.Holds (t * q) ↔ r.Holds q := by
  cases r
  · simp [Holds, ht.ne']
  · simp [Holds, mul_nonpos_iff, ht.le, not_le.mpr ht]
  · simp [Holds, mul_neg_iff, ht, not_lt.mpr ht.le]

/-- Reading an equality as "at most" loses nothing if it is read with both signs. -/
theorem Comparator.holds_iff_relax (r : Comparator) {q : ℚ} :
    r.Holds q ↔ r.relax.Holds q ∧ (r = .eq → r.relax.Holds (-q)) := by
  cases r with
  | eq =>
    show q = 0 ↔ q ≤ 0 ∧ (Comparator.eq = .eq → -q ≤ 0)
    constructor
    · rintro rfl
      simp
    · rintro ⟨hle, hge⟩
      have := hge rfl
      linarith
  | le => simp [relax]
  | lt => simp [relax]

/-! ## Encoded problems -/

/-- A hypothesis is encoded as stated and, if it is an equality, with the signs changed as well. -/
theorem Hypothesis.mem_encode {h : Hypothesis} {index : Nat} {entry : Comparison × Origin} :
    entry ∈ h.encode index ↔
      entry = (h.normalize.1.encode h.normalize.2, .hypothesis index false) ∨
        h.normalize.2 = .eq ∧
          entry = ((-h.normalize.1).encode h.normalize.2, .hypothesis index true) := by
  unfold encode
  by_cases heq : h.normalize.2 = .eq
  · simp [heq]
  · simp [heq]

/-- The comparisons of an encoding are those of the hypotheses, and `0 < 1`. -/
theorem Problem.mem_encode {p : Problem} {entry : Comparison × Origin} :
    entry ∈ p.encode.entries ↔
      (∃ i, ∃ hi : i < p.hypotheses.length, entry ∈ p.hypotheses[i].encode i) ∨
        entry = (.positivity, .positivity) := by
  unfold encode
  rw [List.mem_append, List.mem_flatten, List.mem_singleton]
  refine or_congr_left ⟨?_, ?_⟩
  · rintro ⟨l, hl, hentry⟩
    obtain ⟨i, hi, rfl⟩ := List.mem_mapIdx.mp hl
    exact ⟨i, hi, hentry⟩
  · rintro ⟨i, hi, hentry⟩
    exact ⟨_, List.mem_mapIdx.mpr ⟨i, hi, rfl⟩, hentry⟩

/-- Where the quotients satisfy a hypothesis, its encoding holds. -/
theorem Hypothesis.holds_encode {h : Hypothesis} {index : Nat} {y : Assignment} (hy : 0 < y 0)
    (hx : h.Holds fun v => y (v + 1) / y 0) : ∀ entry ∈ h.encode index, entry.1.Holds y := by
  rw [holds_iff_normalize] at hx
  intro entry hentry
  unfold Comparison.Holds
  rcases mem_encode.mp hentry with rfl | ⟨heq, rfl⟩
  · rw [AffineExpr.eval_encode_eq_mul _ _ hy]
    exact (Comparator.holds_mul_iff _ hy).mpr hx
  · -- an equality says the same with the signs changed
    rw [heq] at hx
    have hzero : h.normalize.1.eval (fun v => y (v + 1) / y 0) = 0 := hx
    rw [AffineExpr.eval_encode_eq_mul _ _ hy, AffineExpr.eval_neg, hzero, neg_zero, mul_zero, heq]
    rfl

/-- Where the encoding of a hypothesis holds relaxed, the quotients satisfy the hypothesis. -/
theorem Hypothesis.holds_of_holdsRelaxed_encode {h : Hypothesis} {index : Nat} {y : Assignment}
    (hy : 0 < y 0) (hall : ∀ entry ∈ h.encode index, entry.1.HoldsRelaxed y) :
    h.Holds fun v => y (v + 1) / y 0 := by
  have stated (e : AffineExpr) (r : Comparator) : (e.encode r).HoldsRelaxed y ↔
      r.relax.Holds (e.eval fun v => y (v + 1) / y 0) := by
    unfold Comparison.HoldsRelaxed
    rw [AffineExpr.eval_encode_eq_mul e r hy, Comparator.holds_mul_iff _ hy]
    rfl
  rw [holds_iff_normalize, Comparator.holds_iff_relax, ← AffineExpr.eval_neg, ← stated, ← stated]
  exact ⟨hall _ (mem_encode.mpr (.inl rfl)), fun heq => hall _ (mem_encode.mpr (.inr ⟨heq, rfl⟩))⟩

/-- The comparison `0 < 1` says that variable `0` is positive. -/
theorem Comparison.holds_positivity_iff {y : Assignment} : positivity.Holds y ↔ 0 < y 0 := by
  have hvalue : positivity.form.eval y = -y 0 := by
    unfold positivity
    rw [LinearForm.eval_ofTerms]
    simp
  show positivity.form.eval y < 0 ↔ _
  rw [hvalue, neg_neg_iff_pos]

namespace Problem

variable {p : Problem} {y : Assignment}

/-- Where the quotients solve a problem, its encoding holds. -/
theorem holds_encode (hy : 0 < y 0) (hsat : p.SatisfiedBy fun v => y (v + 1) / y 0) :
    ∀ c ∈ p.encode.comparisons, c.Holds y := by
  refine List.forall_mem_map.mpr fun entry hentry => ?_
  rcases mem_encode.mp hentry with ⟨i, hi, hmem⟩ | rfl
  · exact Hypothesis.holds_encode hy (hsat _ (List.getElem_mem hi)) entry hmem
  · exact Comparison.holds_positivity_iff.mpr hy

/-- Where the encoding of a problem holds relaxed, variable `0` is positive and the quotients by it
solve the problem. -/
theorem satisfiedBy_of_holdsRelaxed_encode (h : ∀ c ∈ p.encode.comparisons, c.HoldsRelaxed y) :
    0 < y 0 ∧ p.SatisfiedBy fun v => y (v + 1) / y 0 := by
  have hentries : ∀ entry ∈ p.encode.entries, entry.1.HoldsRelaxed y := List.forall_mem_map.mp h
  -- relaxing changes nothing about a comparison that is strict
  have hy : 0 < y 0 :=
    Comparison.holds_positivity_iff.mp (hentries _ (mem_encode.mpr (.inr rfl)))
  refine ⟨hy, fun hyp hmem => ?_⟩
  obtain ⟨i, hi, rfl⟩ := List.getElem_of_mem hmem
  apply Hypothesis.holds_of_holdsRelaxed_encode hy
  intro entry hentry
  exact hentries entry (mem_encode.mpr (.inl ⟨i, hi, hentry⟩))

/-- An assignment satisfies an encoding, even relaxed, exactly if variable `0` is positive and the
quotients by it solve the problem. -/
theorem holdsRelaxed_encode_iff :
    (∀ c ∈ p.encode.comparisons, c.HoldsRelaxed y) ↔
      0 < y 0 ∧ p.SatisfiedBy fun v => y (v + 1) / y 0 :=
  ⟨satisfiedBy_of_holdsRelaxed_encode, fun h c hc => (holds_encode h.1 h.2 c hc).relaxed⟩

/-- An assignment satisfies an encoding exactly if variable `0` is positive and the quotients by it
solve the problem. -/
theorem holds_encode_iff :
    (∀ c ∈ p.encode.comparisons, c.Holds y) ↔ 0 < y 0 ∧ p.SatisfiedBy fun v => y (v + 1) / y 0 :=
  ⟨fun h => satisfiedBy_of_holdsRelaxed_encode fun c hc => (h c hc).relaxed,
    fun h => holds_encode h.1 h.2⟩

end Problem

/-- The assignment with variable `0` at one and the other variables moved up. -/
def Assignment.homogenize (x : Assignment) : Assignment
  | 0 => 1
  | v + 1 => x v

@[simp]
theorem Assignment.homogenize_zero (x : Assignment) : x.homogenize 0 = 1 := rfl

@[simp]
theorem Assignment.homogenize_succ (x : Assignment) (v : Nat) : x.homogenize (v + 1) = x v := rfl

namespace Problem

variable {p : Problem}

/-- An assignment solves a problem exactly if it satisfies the encoding when variable `0` is one. -/
theorem satisfiedBy_iff_encode {x : Assignment} :
    p.SatisfiedBy x ↔ ∀ c ∈ p.encode.comparisons, c.Holds x.homogenize := by
  rw [holds_encode_iff]
  simp

/-- An encoding has a relaxed solution exactly if the problem has a solution. -/
theorem exists_holdsRelaxed_encode_iff :
    (∃ y, ∀ c ∈ p.encode.comparisons, c.HoldsRelaxed y) ↔ ∃ x, p.SatisfiedBy x := by
  constructor
  · rintro ⟨y, hy⟩
    exact ⟨_, (holdsRelaxed_encode_iff.mp hy).2⟩
  · rintro ⟨x, hx⟩
    exact ⟨x.homogenize, fun c hc => (satisfiedBy_iff_encode.mp hx c hc).relaxed⟩

/-- No comparison of an encoding mentions a variable above the largest one declared. -/
theorem le_maxVar {c : Comparison} (hc : c ∈ p.encode.comparisons) {v : Nat}
    (hv : c.coeff v ≠ 0) : v ≤ p.encode.maxVar := by
  obtain ⟨top, htop, hle⟩ := Comparison.exists_max? hc hv
  unfold Encoding.maxVar
  rw [htop]
  exact hle

/-- A refuter that is asked about an encoding fails only by hitting a limit of its config. -/
theorem exceeds_of_produce {r : Refuter} {fault : Fault}
    (h : (Oracle.produce r p.encode.comparisons p.encode.maxVar).1.value = .error fault) :
    r.config.Exceeds fault := by
  have hrun : (r.run p.encode.comparisons p.encode.maxVar).1.value = .error fault :=
    map_eq_error_iff.mp h
  exact Refuter.exceeds_of_run (fun _ hc _ hv => le_maxVar hc hv) hrun

/-- The encoding preserves the meaning of a problem. An assignment solves the problem exactly if,
with variable `0` at one, it satisfies the encoding; an assignment satisfies the encoding exactly if
it gives variable `0` a positive value and dividing by this value gives a solution. No comparison
mentions a variable above the bound that is declared, so that a refuter, whatever it was used for
before, does not refuse the encoding. -/
theorem encode_preserves_meaning (p : Problem) :
    (∀ x, p.SatisfiedBy x ↔ ∀ c ∈ p.encode.comparisons, c.Holds x.homogenize) ∧
      (∀ y : Assignment, (∀ c ∈ p.encode.comparisons, c.Holds y) ↔
        0 < y 0 ∧ p.SatisfiedBy fun v => y (v + 1) / y 0) ∧
      (∀ c ∈ p.encode.comparisons, ∀ v, c.coeff v ≠ 0 → v ≤ p.encode.maxVar) ∧
      ∀ (r : Refuter) (index var bound : Nat),
        (Oracle.produce r p.encode.comparisons p.encode.maxVar).1.value ≠
            .error (.unboundVariable index var bound) ∧
          (p.refuteWith r).1.value ≠ .error (.unboundVariable index var bound) := by
  refine ⟨fun _ => satisfiedBy_iff_encode, fun _ => holds_encode_iff,
    fun _ hc _ hv => le_maxVar hc hv, fun r index var bound => ?_⟩
  have hproduce : (Oracle.produce r p.encode.comparisons p.encode.maxVar).1.value ≠
      .error (.unboundVariable index var bound) := by
    intro h
    obtain ⟨resource, limit, heq⟩ := (exceeds_of_produce h).eq_exhausted
    exact nomatch heq
  exact ⟨hproduce, fun h => hproduce (map_eq_error_iff.mp h)⟩

/-- All five relations at once: `x₀ < 2`, `x₀ + x₁ ≤ 3`, `x₀ = 2x₁ - 1`, `x₁ ≥ 1` and `x₁ > 0` are
solved by ones, and twos satisfy the encoding. The last hypothesis but one mentions variable `2`
there. -/
theorem encode_preserves_meaning_relations :
    let p : Problem :=
      { hypotheses := [⟨.var 0, .lt, .const 2⟩, ⟨.var 0 + .var 1, .le, .const 3⟩,
          ⟨.var 0, .eq, ⟨-1, .ofTerms [(1, 2)]⟩⟩, ⟨.var 1, .ge, .const 1⟩, ⟨.var 1, .gt, 0⟩] }
    (∀ c ∈ p.encode.comparisons, c.Holds (Assignment.homogenize fun _ => 1)) ∧
      (∀ c ∈ p.encode.comparisons, c.Holds fun _ => 2) ∧ p.SatisfiedBy (fun _ => 2 / 2) ∧
        ∃ c ∈ p.encode.comparisons, c.coeff 2 ≠ 0 ∧ 2 ≤ p.encode.maxVar := by
  intro p
  have hsat : p.SatisfiedBy fun _ => 1 := by
    norm_num [p, SatisfiedBy, Hypothesis.Holds, Relation.Holds, AffineExpr.eval, AffineExpr.var,
      AffineExpr.term, AffineExpr.const, LinearForm.eval_ofTerms]
  have hquotients : p.SatisfiedBy fun _ => 2 / 2 := by simpa using hsat
  have hmem : ((AffineExpr.const 1 - .var 1).encode .le) ∈ p.encode.comparisons := by decide
  have hcoeff : ((AffineExpr.const 1 - .var 1).encode .le).coeff 2 ≠ 0 := by decide
  obtain ⟨hones, htwos, hbound, -⟩ := encode_preserves_meaning p
  exact ⟨(hones _).mp hsat, (htwos _).mpr ⟨two_pos, hquotients⟩, hquotients,
    _, hmem, hcoeff, hbound _ hmem 2 hcoeff⟩

end Problem

end LinearRefutation
