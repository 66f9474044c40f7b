import Mathlib.LinearAlgebra.Matrix.ToLin
import Mathlib.LinearAlgebra.FreeModule.StrongRankCondition
import Mathlib.Algebra.Order.Field.Basic
import Mathlib.Tactic.Linarith
import LinearRefutation.Proofs.Elimination.Stage
import LinearRefutation.Proofs.Refuter

/-!
# Discarded facts are redundant

A fact that the filter rejects while a variable is eliminated splits: a multiple of it is the sum of
two comparisons in which no variable from that one upwards is left, and each of which already
follows from some, but not all, of the hypotheses in the history of the fact (`Fact.Traced.splits`).

The argument counts. The multiplicities with which the fact uses its hypotheses are positive and
make every eliminated variable cancel. If the hypotheses outnumber these variables by two or more,
there are other multipliers that do so and are not proportional. Moving from the multiplicities
along those, in either direction, until one of them vanishes gives the two parts
(`exists_split_along`).
-/

namespace LinearRefutation

open Finset

/-! ## Splitting multiplicities -/

/-- With two hypotheses more than variables there are multipliers that make every variable cancel,
of which some vanish and some do not. -/
theorem exists_relation {s t : Finset Nat} (coeff : Nat → Nat → Int) (hcard : #t + 2 ≤ #s) :
    ∃ μ : Nat → Int, (∀ i ∉ s, μ i = 0) ∧ (∃ i ∈ s, μ i = 0) ∧ (∃ i ∈ s, μ i ≠ 0) ∧
      ∀ v ∈ t, ∑ i ∈ s, μ i * coeff i v = 0 := by
  obtain ⟨z, hz⟩ : s.Nonempty := card_pos.mp (by omega)
  -- one multiplier is zero from the start, the others still outnumber the variables
  let M : Matrix t (s.erase z) Int := Matrix.of fun v i => coeff i v
  have hnot : ¬ Function.Injective M.mulVecLin := by
    intro hinj
    have hle := card_le_of_injective Int M.mulVecLin hinj
    rw [Fintype.card_coe, Fintype.card_coe, card_erase_of_mem hz] at hle
    omega
  rw [injective_iff_map_eq_zero] at hnot
  push Not at hnot
  obtain ⟨x, hx, hne⟩ := hnot
  obtain ⟨j, hj⟩ := Function.ne_iff.mp hne
  let μ (i : Nat) : Int := if h : i ∈ s.erase z then x ⟨i, h⟩ else 0
  have hμ (i : s.erase z) : μ i = x i := dif_pos i.2
  refine ⟨μ, fun i hi => dif_neg fun hmem => hi (mem_of_mem_erase hmem),
    ⟨z, hz, dif_neg (notMem_erase z s)⟩, ⟨j, mem_of_mem_erase j.2, ?_⟩, fun v hv => ?_⟩
  · rw [hμ]
    exact hj
  · have hzero : ∑ i : s.erase z, coeff i v * x i = 0 := congrFun hx ⟨v, hv⟩
    rw [← add_sum_erase s _ hz, show μ z = 0 from dif_neg (notMem_erase z s), zero_mul, zero_add,
      ← sum_coe_sort, ← hzero]
    exact sum_congr rfl fun i _ => by rw [hμ, mul_comm]

/-- Of finitely many multipliers one is the largest in proportion to its multiplicity. -/
theorem exists_max_ratio {s : Finset Nat} {l : Nat → Nat} (pos : ∀ i ∈ s, (0 : Int) < l i)
    (nonempty : s.Nonempty) (μ : Nat → Int) : ∃ p ∈ s, ∀ i ∈ s, μ i * l p ≤ μ p * l i := by
  obtain ⟨p, hp, hmax⟩ := s.exists_max_image (fun i => (μ i : ℚ) / l i) nonempty
  refine ⟨p, hp, fun i hi => ?_⟩
  have hle : (μ i : ℚ) / l i ≤ (μ p : ℚ) / l p := hmax i hi
  rw [div_le_div_iff₀ (by exact_mod_cast pos i hi) (by exact_mod_cast pos p hp)] at hle
  exact_mod_cast hle

/-- The largest ratio lies above the smallest if some multipliers vanish and some do not. -/
theorem sub_pos_of_ratios {s : Finset Nat} {l : Nat → Nat} {μ : Nat → Int} {p q : Nat}
    (pos : ∀ i ∈ s, (0 : Int) < l i) (hp : p ∈ s) (hq : q ∈ s) (zero : ∃ i ∈ s, μ i = 0)
    (ne : ∃ i ∈ s, μ i ≠ 0) (above : ∀ i ∈ s, μ i * l p ≤ μ p * l i)
    (below : ∀ i ∈ s, μ q * l i ≤ μ i * l q) : 0 < l q * μ p - l p * μ q := by
  obtain ⟨z, hz, hμz⟩ := zero
  obtain ⟨j, hj, hμj⟩ := ne
  have htop : 0 ≤ μ p := by
    refine nonneg_of_mul_nonneg_left ?_ (pos z hz)
    simpa only [hμz, zero_mul] using above z hz
  have hbottom : μ q ≤ 0 := by
    refine nonpos_of_mul_nonpos_left ?_ (pos z hz)
    simpa only [hμz, zero_mul] using below z hz
  rcases hμj.lt_or_gt with hneg | hpos
  · have hlt : μ q < 0 := neg_of_mul_neg_left
      ((below j hj).trans_lt (mul_neg_of_neg_of_pos hneg (pos q hq))) (pos j hj).le
    linarith [mul_nonneg (pos q hq).le htop, mul_neg_of_pos_of_neg (pos p hp) hlt]
  · have hlt : 0 < μ p := pos_of_mul_pos_left
      ((mul_pos hpos (pos p hp)).trans_le (above j hj)) (pos j hj).le
    linarith [mul_pos (pos q hq) hlt, mul_nonpos_of_nonneg_of_nonpos (pos p hp).le hbottom]

/-- Positive multiplicities, moved along multipliers that are not proportional to them, in either
direction until one of them vanishes. -/
theorem exists_split_along {s : Finset Nat} {l : Nat → Nat} {μ : Nat → Int}
    (used : ∀ i, i ∈ s ↔ l i ≠ 0) (outside : ∀ i ∉ s, μ i = 0) (zero : ∃ i ∈ s, μ i = 0)
    (ne : ∃ i ∈ s, μ i ≠ 0) :
    ∃ k, 0 < k ∧ ∃ m m' : Nat → Nat, (∀ i, m i + m' i = l i * k) ∧ (∃ i ∈ s, m i = 0) ∧
      (∃ i ∈ s, m' i = 0) ∧ ∃ a b : Int, ∀ i, (m i : Int) = a * μ i + b * l i := by
  have nonempty : s.Nonempty := ne.imp fun _ => And.left
  have pos (i : Nat) (hi : i ∈ s) : (0 : Int) < l i := by
    have := (used i).mp hi
    omega
  have vanish (i : Nat) (hi : i ∉ s) : μ i = 0 ∧ l i = 0 :=
    ⟨outside i hi, not_not.mp fun hne => hi ((used i).mpr hne)⟩
  obtain ⟨p, hp, above⟩ := exists_max_ratio pos nonempty μ
  obtain ⟨q, hq, below⟩ := exists_max_ratio pos nonempty (-μ)
  simp only [Pi.neg_apply, neg_mul, neg_le_neg_iff] at below
  -- the multiplicities left where a direction ends, with common denominators
  obtain ⟨m, hm⟩ : ∃ m : Nat → Nat, ∀ i, (m i : Int) = l p * (l q * μ i - μ q * l i) := by
    refine ⟨fun i => (l p * (l q * μ i - μ q * l i)).toNat, fun i => Int.toNat_of_nonneg ?_⟩
    by_cases hi : i ∈ s
    · exact mul_nonneg (pos p hp).le (by linarith [below i hi])
    · simp [vanish i hi]
  obtain ⟨m', hm'⟩ : ∃ m' : Nat → Nat, ∀ i, (m' i : Int) = l q * (μ p * l i - l p * μ i) := by
    refine ⟨fun i => (l q * (μ p * l i - l p * μ i)).toNat, fun i => Int.toNat_of_nonneg ?_⟩
    by_cases hi : i ∈ s
    · exact mul_nonneg (pos q hq).le (by linarith [above i hi])
    · simp [vanish i hi]
  have hfactor : 0 < l q * μ p - l p * μ q :=
    sub_pos_of_ratios pos hp hq zero ne above below
  obtain ⟨k, hk⟩ := Int.eq_ofNat_of_zero_le hfactor.le
  refine ⟨k, by omega, m, m', fun i => ?_, ⟨q, hq, ?_⟩, ⟨p, hp, ?_⟩, l p * l q, -(l p * μ q),
    fun i => ?_⟩
  · zify
    rw [hm, hm', ← hk]
    ring
  · zify
    rw [hm]
    ring
  · zify
    rw [hm']
    ring
  · rw [hm]
    ring

/-- A combination in which variables cancel is the sum of two, each without some of its summands, in
which they cancel as well, if it has two summands more than there are variables. -/
theorem exists_split {s t : Finset Nat} {l : Nat → Nat} {coeff : Nat → Nat → Int}
    (used : ∀ i, i ∈ s ↔ l i ≠ 0) (hcard : #t + 2 ≤ #s)
    (cancels : ∀ v ∈ t, ∑ i ∈ s, (l i : Int) * coeff i v = 0) :
    ∃ k, 0 < k ∧ ∃ m m' : Nat → Nat, (∀ i, m i + m' i = l i * k) ∧ (∃ i ∈ s, m i = 0) ∧
      (∃ i ∈ s, m' i = 0) ∧ ∀ v ∈ t, ∑ i ∈ s, (m i : Int) * coeff i v = 0 := by
  obtain ⟨μ, outside, zero, ne, hμ⟩ := exists_relation coeff hcard
  obtain ⟨k, hk, m, m', hsum, hm, hm', a, b, hlinear⟩ := exists_split_along used outside zero ne
  refine ⟨k, hk, m, m', hsum, hm, hm', fun v hv => ?_⟩
  calc ∑ i ∈ s, (m i : Int) * coeff i v
      = ∑ i ∈ s, (a * (μ i * coeff i v) + b * (l i * coeff i v)) :=
        sum_congr rfl fun i _ => by rw [hlinear]; ring
    _ = a * ∑ i ∈ s, μ i * coeff i v + b * ∑ i ∈ s, (l i : Int) * coeff i v := by
        rw [sum_add_distrib, ← mul_sum, ← mul_sum]
    _ = 0 := by rw [hμ v hv, cancels v hv, mul_zero, mul_zero, add_zero]

/-! ## Parts of a fact -/

namespace Certificate

variable {hypotheses : List Comparison} {support : IndexSet} {m : Nat → Nat}

/-- The certificate that lists each hypothesis of a set as often as a function says. -/
def ofMultiplicities (support : IndexSet) (m : Nat → Nat) : Certificate :=
  ofMultipliers (support.map (fun i => (i, m i)) fun _ => rfl)

theorem mem_ofMultiplicities {entry : Nat × Nat} :
    entry ∈ (ofMultiplicities support m).multipliers ↔
      entry.1 ∈ support ∧ entry.2 = m entry.1 ∧ entry.2 ≠ 0 := by
  unfold ofMultiplicities ofMultipliers
  rw [IndexMap.mem_without, ← and_assoc]
  refine and_congr_left fun _ => List.mem_map.trans ⟨?_, ?_⟩
  · rintro ⟨i, hi, rfl⟩
    exact ⟨hi, rfl⟩
  · rintro ⟨hi, hm⟩
    exact ⟨entry.1, hi, Prod.ext rfl hm.symm⟩

theorem mem_hypotheses_ofMultiplicities {i : Nat} :
    i ∈ (ofMultiplicities support m).hypotheses ↔ i ∈ support ∧ m i ≠ 0 := by
  unfold hypotheses
  rw [IndexMap.mem_keys]
  simp only [mem_ofMultiplicities]
  exact ⟨fun ⟨_, hi, hm, hne⟩ => ⟨hi, hm ▸ hne⟩, fun ⟨hi, hne⟩ => ⟨m i, hi, rfl, hne⟩⟩

theorem multiplicity_ofMultiplicities (outside : ∀ i, m i ≠ 0 → i ∈ support) :
    (ofMultiplicities support m).multiplicity = m := by
  funext i
  by_cases hi : m i = 0
  · by_contra hne
    obtain ⟨-, hm, hvalue⟩ := mem_ofMultiplicities.mp (IndexMap.mem_of_getD_ne (hi ▸ hne))
    exact hvalue (hm.trans hi)
  · exact IndexMap.getD_eq_of_mem (mem_ofMultiplicities.mpr ⟨outside i hi, rfl, hi⟩) 0

/-- Multiplicities of hypotheses that exist are replayed to their total. -/
theorem replay_ofMultiplicities (exist : ∀ i ∈ support, i < hypotheses.length)
    (outside : ∀ i, m i ≠ 0 → i ∈ support) :
    (ofMultiplicities support m).replay hypotheses = .ok (total hypotheses m) := by
  rw [replay_eq_ok_iff, multiplicity_ofMultiplicities outside]
  refine ⟨fun entry hentry => ?_, rfl⟩
  obtain ⟨hi, -, hne⟩ := mem_ofMultiplicities.mp hentry
  exact ⟨exist _ hi, Nat.pos_of_ne_zero hne⟩

/-- A certificate uses some, but not all, of the hypotheses in a history, and its replay is `sum`,
in which no variable from `var` upwards is left. -/
structure PartOf (cert : Certificate) (hypotheses : List Comparison) (history : IndexSet) (var : Nat)
    (sum : Comparison) : Prop where
  replay : cert.replay hypotheses = .ok sum
  nonempty : ∃ i, i ∈ cert.hypotheses
  subset : ∀ i ∈ cert.hypotheses, i ∈ history
  proper : ∃ i ∈ history, i ∉ cert.hypotheses
  eliminated : ∀ v, var ≤ v → sum.coeff v = 0

theorem partOf_ofMultiplicities {history : IndexSet} {var : Nat}
    (exist : ∀ i ∈ history, i < hypotheses.length) (outside : ∀ i, m i ≠ 0 → i ∈ history)
    (nonempty : ∃ i, m i ≠ 0) (proper : ∃ i ∈ history, m i = 0)
    (eliminated : ∀ v, var ≤ v → (total hypotheses m).coeff v = 0) :
    (ofMultiplicities history m).PartOf hypotheses history var (total hypotheses m) where
  replay := replay_ofMultiplicities exist outside
  nonempty := by
    obtain ⟨i, hi⟩ := nonempty
    exact ⟨i, mem_hypotheses_ofMultiplicities.mpr ⟨outside i hi, hi⟩⟩
  subset i hi := (mem_hypotheses_ofMultiplicities.mp hi).1
  proper := by
    obtain ⟨i, hi, hzero⟩ := proper
    exact ⟨i, hi, fun hmem => (mem_hypotheses_ofMultiplicities.mp hmem).2 hzero⟩
  eliminated := eliminated

end Certificate

namespace Fact

/-- A multiple of a fact is the sum of two parts of it. -/
def Splits (hypotheses : List Comparison) (d : Fact) (var : Nat) : Prop :=
  ∃ k, 0 < k ∧ ∃ (left right : Certificate) (c c' : Comparison),
    left.PartOf hypotheses d.history var c ∧ right.PartOf hypotheses d.history var c' ∧
      d.comparison.scale k = .ok (c + c')

variable {hypotheses : List Comparison} {d : Fact} {var : Nat}

/-- The variables from `var` upwards that the filter counts as eliminated in a fact. -/
def eliminated (d : Fact) (var : Nat) : Finset Nat :=
  (IndexSet.toFinset ((d.implicit.filter fun v => var ≤ v) ∪ d.effective)).filter (var ≤ ·)

/-- The hypotheses of a rejected fact outnumber its eliminated variables. -/
theorem card_eliminated (rejected : ¬ d.mayBeMinimal var) :
    #(d.eliminated var) + 2 ≤ #d.history.toFinset := by
  unfold mayBeMinimal at rejected
  rw [decide_eq_true_iff] at rejected
  have hle : #(d.eliminated var) ≤ _ := card_filter_le _ _
  rw [IndexSet.card_toFinset] at hle ⊢
  omega

/-- A variable that a hypothesis of a fact mentions, but the fact does not, counts as eliminated. -/
theorem Traced.mem_eliminated (h : d.Traced hypotheses) {i v : Nat} (hi : i ∈ d.history)
    (hne : (hypotheses.getD i 0).coeff v ≠ 0) (hv : var ≤ v) (gone : d.comparison.coeff v = 0) :
    v ∈ d.eliminated var := by
  refine mem_filter.mpr ⟨IndexSet.mem_toFinset.mpr ?_, hv⟩
  rw [IndexSet.mem_union, Ascending.mem_filter, decide_eq_true_iff]
  rcases (h.mentions v).mp ⟨i, hi, hne⟩ with hvars | heffective | himplicit
  · exact absurd gone (h.mem_vars.mp hvars)
  · exact .inr heffective
  · exact .inl ⟨himplicit, hv⟩

/-- Multiplicities of the hypotheses of a fact that make the eliminated variables cancel leave no
variable from `var` upwards. -/
theorem Traced.total_coeff_eq_zero (h : d.Traced hypotheses)
    (gone : ∀ v, var ≤ v → d.comparison.coeff v = 0) {m : Nat → Nat}
    (outside : ∀ i, m i ≠ 0 → i ∈ d.history)
    (cancels : ∀ v ∈ d.eliminated var,
      ∑ i ∈ d.history.toFinset, (m i : Int) * (hypotheses.getD i 0).coeff v = 0)
    (v : Nat) (hv : var ≤ v) : (total hypotheses m).coeff v = 0 := by
  rw [total_coeff_of_support fun i hi => IndexSet.mem_toFinset.mpr (outside i hi)]
  by_cases hmem : v ∈ d.eliminated var
  · exact cancels v hmem
  · -- no hypothesis used mentions the variable
    refine sum_eq_zero fun i hi => mul_eq_zero_of_right _ ?_
    by_contra hne
    exact hmem (h.mem_eliminated (IndexSet.mem_toFinset.mp hi) hne hv (gone v hv))

/-- A traced fact that the filter rejects, when the variables from `var` upwards are eliminated,
splits. -/
theorem Traced.splits (h : d.Traced hypotheses) (gone : ∀ v, var ≤ v → d.comparison.coeff v = 0)
    (rejected : ¬ d.mayBeMinimal var) : d.Splits hypotheses var := by
  let l := d.derivation.multiplicity
  have used (i : Nat) : i ∈ d.history.toFinset ↔ l i ≠ 0 :=
    IndexSet.mem_toFinset.trans (h.history i)
  have hvalue : d.comparison = total hypotheses l := h.derived.2.trans h.derived.1.value_eq_total
  have cancels (v : Nat) (hv : v ∈ d.eliminated var) :
      ∑ i ∈ d.history.toFinset, (l i : Int) * (hypotheses.getD i 0).coeff v = 0 := by
    rw [← total_coeff_of_support fun i hi => (used i).mpr hi, ← hvalue]
    exact gone v (mem_filter.mp hv).2
  obtain ⟨k, hk, m, m', hsum, ⟨q, hq, hmq⟩, ⟨p, hp, hmp⟩, hm⟩ :=
    exists_split used (card_eliminated rejected) cancels
  have hparts : total hypotheses m + total hypotheses m' = k • d.comparison := by
    rw [← total_add, funext hsum, total_mul, ← hvalue]
  -- a hypothesis is taken in one of the parts exactly if the fact uses it
  have taken (i : Nat) : i ∈ d.history ↔ m i ≠ 0 ∨ m' i ≠ 0 := by
    have hmul : l i ≠ 0 ↔ l i * k ≠ 0 := ⟨fun hl => mul_ne_zero hl hk.ne', left_ne_zero_of_mul⟩
    rw [← IndexSet.mem_toFinset, used, hmul, ← hsum]
    omega
  have hp' : p ∈ d.history := IndexSet.mem_toFinset.mp hp
  have hq' : q ∈ d.history := IndexSet.mem_toFinset.mp hq
  have hleft := h.total_coeff_eq_zero gone (fun i hi => (taken i).mpr (.inl hi)) hm
  have hright (v : Nat) (hv : var ≤ v) : (total hypotheses m').coeff v = 0 := by
    have hcoeff : (total hypotheses m).coeff v + (total hypotheses m').coeff v =
        k * d.comparison.coeff v := by
      unfold Comparison.coeff
      rw [← LinearForm.coeff_add, ← LinearForm.coeff_nsmul]
      exact congrArg (fun c : Comparison => c.form.coeff v) hparts
    rwa [hleft v hv, gone v hv, mul_zero, zero_add] at hcoeff
  refine ⟨k, hk, .ofMultiplicities d.history m, .ofMultiplicities d.history m',
    total hypotheses m, total hypotheses m', ?_, ?_, ?_⟩
  · exact Certificate.partOf_ofMultiplicities (fun i => h.lt_length)
      (fun i hi => (taken i).mpr (.inl hi))
      ⟨p, ((taken p).mp hp').resolve_right fun hne => hne hmp⟩ ⟨q, hq', hmq⟩ hleft
  · exact Certificate.partOf_ofMultiplicities (fun i => h.lt_length)
      (fun i hi => (taken i).mpr (.inr hi))
      ⟨q, ((taken q).mp hq').resolve_left fun hne => hne hmq⟩ ⟨p, hp', hmp⟩ hright
  · rw [Comparison.scale_eq hk.ne', hparts]

end Fact

/-! ## Discarded combinations -/

/-- What is rejected at a stage of a search splits. -/
theorem Stage.splits {hypotheses : List Comparison} {top var : Nat} {facts : FactSet} {d : Fact}
    (below : FactSet.Below (FactSet.ofHypotheses hypotheses) top)
    (h : Stage (FactSet.ofHypotheses hypotheses) top (var + 1) facts)
    (rejects : facts.Rejects var d) : d.Splits hypotheses var := by
  obtain ⟨p, hp, q, hq, hsome, hrejected⟩ := rejects
  have traced : ∀ p ∈ facts, p.Traced hypotheses :=
    h.invariant Fact.Traced.combined fun _ => FactSet.traced_of_mem_ofHypotheses
  have hbelow := h.bounded below
  exact ((traced p hp).combined (traced q hq) hsome).splits
    (fun v hv => Fact.coeff_eq_zero_of_combined? (hbelow p hp) (hbelow q hq) hsome hv) hrejected

namespace Refuter

/-- A refuter discards a fact while it eliminates `var` when `run`, with some bound, or `runAuto`
logs so. -/
def Discards (r : Refuter) (hypotheses : List Comparison) (var : Nat) (d : Fact) : Prop :=
  (∃ maxVar, Event.discarded var d ∈ (r.run hypotheses maxVar).1.events) ∨
    Event.discarded var d ∈ (r.runAuto hypotheses).1.events

/-- What is discarded is discarded by a search with a bound on all variables. -/
theorem Discards.exists_search {r : Refuter} {hypotheses : List Comparison} {var : Nat} {d : Fact}
    (h : r.Discards hypotheses var d) :
    ∃ bound, FactSet.Below (FactSet.ofHypotheses hypotheses) bound ∧ Event.discarded var d ∈
      (Run.search r.config (FactSet.ofHypotheses hypotheses) bound).events := by
  rcases h with ⟨maxVar, hrun⟩ | hauto
  · cases hunbound : unbound? hypotheses maxVar with
    | some found =>
      unfold run at hrun
      rw [hunbound] at hrun
      exact nomatch hrun
    | none =>
      obtain ⟨hbelow, hsearch⟩ := run_eq_search (r := r) hunbound
      rw [hsearch] at hrun
      exact ⟨maxVar + 1, hbelow, hrun⟩
  · exact ⟨bound hypotheses, below_bound hypotheses, hauto⟩

/-- Whatever combination fails the test while a variable is eliminated, at any stage of any search,
splits into parts that follow from fewer hypotheses. In particular, all that a run discards does. -/
theorem discarded_splits (hypotheses : List Comparison) :
    (∀ top var facts d, FactSet.Below (FactSet.ofHypotheses hypotheses) top →
      Stage (FactSet.ofHypotheses hypotheses) top (var + 1) facts → facts.Rejects var d →
        d.Splits hypotheses var) ∧
      ∀ (r : Refuter) (var : Nat) (d : Fact), r.Discards hypotheses var d →
        d.Splits hypotheses var := by
  refine ⟨fun _ _ _ _ below stage rejects => stage.splits below rejects, fun r var d h => ?_⟩
  obtain ⟨bound, hbelow, hd⟩ := h.exists_search
  obtain ⟨facts, stage, rejects⟩ := Run.exists_stage_of_discarded hd
  exact stage.splits hbelow rejects

/-- Four facts whose combinations without `x₂` are `2·x₁ ≤ 0`, `-2·x₁ ≤ 0` and `0 ≤ 0`. -/
def diagonals : List Comparison :=
  [⟨.le, .ofTerms [(1, 1), (2, 1)]⟩, ⟨.le, .ofTerms [(1, 1), (2, -1)]⟩,
    ⟨.le, .ofTerms [(1, -1), (2, 1)]⟩, ⟨.le, .ofTerms [(1, -1), (2, -1)]⟩]

/-- The sum `0 ≤ 0` of all four is discarded while `x₁` is eliminated. It splits: two facts suffice
for `0 ≤ 0`. -/
theorem discarded_splits_diagonals :
    ∃ d facts, FactSet.Below (FactSet.ofHypotheses diagonals) 3 ∧
      Stage (FactSet.ofHypotheses diagonals) 3 2 facts ∧ facts.Rejects 1 d ∧
        ({} : Refuter).Discards diagonals 1 d ∧ d.Splits diagonals 1 := by
  obtain ⟨d, hd⟩ : ∃ d, Event.discarded 1 d ∈ (({} : Refuter).run diagonals 2).1.events :=
    ⟨_, List.mem_of_getElem? (i := 1) rfl⟩
  have hbounded : unbound? diagonals 2 = none := rfl
  obtain ⟨hbelow, hsearch⟩ := run_eq_search (r := {}) hbounded
  obtain ⟨facts, stage, rejects⟩ := Run.exists_stage_of_discarded (hsearch ▸ hd)
  have hdiscards : ({} : Refuter).Discards diagonals 1 d := .inl ⟨2, hd⟩
  exact ⟨d, facts, hbelow, stage, rejects, hdiscards, (discarded_splits diagonals).2 {} 1 d hdiscards⟩

end Refuter

end LinearRefutation
