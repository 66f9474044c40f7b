import Mathlib.Algebra.BigOperators.GroupWithZero.Action
import Mathlib.Algebra.BigOperators.Group.Finset.Basic
import Mathlib.Algebra.BigOperators.Ring.Finset
import Mathlib.Algebra.BigOperators.Fin
import Mathlib.Algebra.Module.Basic
import Mathlib.Data.List.GetD
import LinearRefutation.Meaning
import LinearRefutation.Problem.Goal

/-!
# Sums of comparisons

Comparisons form a commutative monoid: `0 = 0` is its zero, and the `n`-fold sum of a comparison
with itself is its multiple by `n`, where the multiple by zero is `0 = 0`. The comparator and the
form of a sum are the sums of the comparators and the forms, so that comparators, whose sum is the
stronger of the two, and linear forms are monoids as well.

`total hypotheses m` takes the hypothesis with number `i` exactly `m i` times. Everything that
certificates, derivations and elimination compute is such a total.
-/

namespace LinearRefutation

open Finset

/-! ## Comparators -/

namespace Comparator

instance : AddCommMonoid Comparator where
  add := join
  zero := .eq
  add_assoc a b c := by cases a <;> cases b <;> cases c <;> rfl
  zero_add a := by cases a <;> rfl
  add_zero a := by cases a <;> rfl
  add_comm a b := by cases a <;> cases b <;> rfl
  nsmul n a := if n = 0 then .eq else a
  nsmul_zero _ := rfl
  nsmul_succ n a := by
    show (if n + 1 = 0 then eq else a) = (if n = 0 then eq else a).join a
    by_cases hn : n = 0
    · rw [if_neg n.succ_ne_zero, if_pos hn]
      cases a <;> rfl
    · rw [if_neg n.succ_ne_zero, if_neg hn]
      cases a <;> rfl

theorem eq_eq_zero : Comparator.eq = 0 := rfl

/-- A multiple is as strong as what is multiplied, unless it is the multiple by zero. -/
theorem nsmul_of_ne_zero {n : Nat} (hn : n ≠ 0) (a : Comparator) : n • a = a := by
  show (if n = 0 then Comparator.eq else a) = a
  rw [if_neg hn]

/-- Only a strict summand makes a sum strict. -/
theorem add_eq_lt_iff {a b : Comparator} : a + b = .lt ↔ a = .lt ∨ b = .lt := by
  show a.join b = .lt ↔ _
  cases a <;> cases b <;> simp [join, rank]

theorem nsmul_eq_lt_iff {n : Nat} {a : Comparator} : n • a = .lt ↔ n ≠ 0 ∧ a = .lt := by
  by_cases hn : n = 0
  · subst hn
    simp [← eq_eq_zero]
  · rw [nsmul_of_ne_zero hn]
    simp [hn]

/-- A sum is strict exactly when one of its summands is. -/
theorem sum_eq_lt_iff {ι : Type*} {s : Finset ι} {f : ι → Comparator} :
    ∑ i ∈ s, f i = .lt ↔ ∃ i ∈ s, f i = .lt := by
  classical
  induction s using Finset.induction with
  | empty => simp [← eq_eq_zero]
  | insert i s hi ih =>
    rw [sum_insert hi, add_eq_lt_iff, ih]
    simp

end Comparator

/-! ## Forms and expressions -/

namespace LinearForm

instance : AddCommGroup LinearForm where
  add_assoc a b c := ext_coeff fun v => by simp only [coeff_add, add_assoc]
  zero_add a := ext_coeff fun v => by rw [coeff_add, coeff_zero, zero_add]
  add_zero a := ext_coeff fun v => by rw [coeff_add, coeff_zero, add_zero]
  add_comm a b := ext_coeff fun v => by rw [coeff_add, coeff_add, add_comm]
  neg_add_cancel a := ext_coeff fun v => by
    rw [coeff_add, coeff_neg, coeff_zero, neg_add_cancel]
  nsmul := nsmulRec
  zsmul := zsmulRec

/-- The coefficient of a variable as a homomorphism. -/
def coeffHom (v : Nat) : LinearForm →+ Int where
  toFun e := e.coeff v
  map_zero' := coeff_zero v
  map_add' a b := coeff_add a b v

/-- The value under an assignment as a homomorphism. -/
def evalHom (x : Assignment) : LinearForm →+ ℚ where
  toFun e := e.eval x
  map_zero' := eval_zero x
  map_add' a b := eval_add a b x

@[simp]
theorem coeff_nsmul (n : Nat) (e : LinearForm) (v : Nat) : (n • e).coeff v = n * e.coeff v := by
  rw [← nsmul_eq_mul]
  exact map_nsmul (coeffHom v) n e

@[simp]
theorem coeff_zsmul (k : Int) (e : LinearForm) (v : Nat) : (k • e).coeff v = k * e.coeff v := by
  rw [← smul_eq_mul]
  exact map_zsmul (coeffHom v) k e

@[simp]
theorem eval_nsmul (n : Nat) (e : LinearForm) (x : Assignment) : (n • e).eval x = n * e.eval x := by
  rw [← nsmul_eq_mul]
  exact map_nsmul (evalHom x) n e

theorem coeff_sum {ι : Type*} (s : Finset ι) (f : ι → LinearForm) (v : Nat) :
    (∑ i ∈ s, f i).coeff v = ∑ i ∈ s, (f i).coeff v :=
  map_sum (coeffHom v) f s

/-- Scaling by a positive factor is taking a multiple. -/
theorem scale_eq {n : Nat} (hn : n ≠ 0) (e : LinearForm) : e.scale n = .ok (n • e) :=
  scale_eq_ok_iff.mpr ⟨hn, fun v => coeff_nsmul n e v⟩

end LinearForm

namespace AffineExpr

@[simp]
theorem constant_zero : (0 : AffineExpr).constant = 0 := rfl

@[simp]
theorem form_zero : (0 : AffineExpr).form = 0 := rfl

@[simp]
theorem constant_add (a b : AffineExpr) : (a + b).constant = a.constant + b.constant := rfl

@[simp]
theorem form_add (a b : AffineExpr) : (a + b).form = a.form + b.form := rfl

@[simp]
theorem constant_neg (a : AffineExpr) : (-a).constant = -a.constant := rfl

@[simp]
theorem form_neg (a : AffineExpr) : (-a).form = -a.form := rfl

instance : AddCommGroup AffineExpr where
  add_assoc a b c := AffineExpr.ext (add_assoc ..) (add_assoc ..)
  zero_add a := AffineExpr.ext (zero_add _) (zero_add _)
  add_zero a := AffineExpr.ext (add_zero _) (add_zero _)
  add_comm a b := AffineExpr.ext (add_comm ..) (add_comm ..)
  neg_add_cancel a := AffineExpr.ext (neg_add_cancel _) (neg_add_cancel _)
  sub_eq_add_neg _ _ := rfl
  nsmul := nsmulRec
  zsmul := zsmulRec

/-- The constant as a homomorphism. -/
def constantHom : AffineExpr →+ Int where
  toFun := constant
  map_zero' := rfl
  map_add' _ _ := rfl

/-- The form as a homomorphism. -/
def formHom : AffineExpr →+ LinearForm where
  toFun := form
  map_zero' := rfl
  map_add' _ _ := rfl

/-- The value under an assignment as a homomorphism. -/
def evalHom (x : Assignment) : AffineExpr →+ ℚ where
  toFun e := e.eval x
  map_zero' := by simp [eval]
  map_add' a b := eval_add a b x

@[simp]
theorem eval_zsmul (k : Int) (e : AffineExpr) (x : Assignment) : (k • e).eval x = k * e.eval x := by
  rw [← zsmul_eq_mul]
  exact map_zsmul (evalHom x) k e

@[simp]
theorem constant_zsmul (k : Int) (e : AffineExpr) : (k • e).constant = k * e.constant := by
  rw [← smul_eq_mul]
  exact map_zsmul constantHom k e

@[simp]
theorem form_zsmul (k : Int) (e : AffineExpr) : (k • e).form = k • e.form :=
  map_zsmul formHom k e

/-- Scaling never fails. -/
theorem scale_eq (k : Int) (e : AffineExpr) : e.scale k = .ok (k • e) := by
  unfold scale
  by_cases hk : k = 0
  · rw [if_pos hk, hk, zero_zsmul]
  · rw [if_neg hk, LinearForm.scale_eq (Int.natAbs_ne_zero.mpr hk)]
    show Except.ok (if k < 0 then -(⟨_, _⟩ : AffineExpr) else ⟨_, _⟩) = Except.ok (k • e)
    congr 1
    by_cases hneg : k < 0
    · have habs : -(k.natAbs : Int) = k := by omega
      rw [if_pos hneg]
      refine AffineExpr.ext ?_ (LinearForm.ext_coeff fun v => ?_)
      · rw [constant_neg, constant_zsmul, mul_comm, ← neg_mul, habs]
      · rw [form_neg, form_zsmul, LinearForm.coeff_neg, LinearForm.coeff_nsmul,
          LinearForm.coeff_zsmul, ← neg_mul, habs]
    · have habs : (k.natAbs : Int) = k := by omega
      rw [if_neg hneg]
      refine AffineExpr.ext ?_ (LinearForm.ext_coeff fun v => ?_)
      · rw [constant_zsmul, mul_comm, habs]
      · rw [form_zsmul, LinearForm.coeff_nsmul, LinearForm.coeff_zsmul, habs]

end AffineExpr

/-! ## Comparisons -/

namespace Comparison

instance : AddCommMonoid Comparison where
  zero := trivial
  add_assoc a b c := Comparison.ext (add_assoc a.rel b.rel c.rel) (add_assoc a.form b.form c.form)
  zero_add a := Comparison.ext (zero_add a.rel) (zero_add a.form)
  add_zero a := Comparison.ext (add_zero a.rel) (add_zero a.form)
  add_comm a b := Comparison.ext (add_comm a.rel b.rel) (add_comm a.form b.form)
  nsmul n a := ⟨n • a.rel, n • a.form⟩
  nsmul_zero a := Comparison.ext (zero_nsmul a.rel) (zero_nsmul a.form)
  nsmul_succ n a := Comparison.ext (succ_nsmul a.rel n) (succ_nsmul a.form n)

/-- The comparator as a homomorphism. -/
def relHom : Comparison →+ Comparator where
  toFun := rel
  map_zero' := rfl
  map_add' _ _ := rfl

/-- The form as a homomorphism. -/
def formHom : Comparison →+ LinearForm where
  toFun := form
  map_zero' := rfl
  map_add' _ _ := rfl

@[simp]
theorem rel_add (c d : Comparison) : (c + d).rel = c.rel + d.rel := rfl

@[simp]
theorem form_add (c d : Comparison) : (c + d).form = c.form + d.form := rfl

@[simp]
theorem rel_nsmul (n : Nat) (c : Comparison) : (n • c).rel = n • c.rel := rfl

@[simp]
theorem form_nsmul (n : Nat) (c : Comparison) : (n • c).form = n • c.form := rfl

theorem rel_sum {ι : Type*} (s : Finset ι) (f : ι → Comparison) :
    (∑ i ∈ s, f i).rel = ∑ i ∈ s, (f i).rel :=
  map_sum relHom f s

theorem form_sum {ι : Type*} (s : Finset ι) (f : ι → Comparison) :
    (∑ i ∈ s, f i).form = ∑ i ∈ s, (f i).form :=
  map_sum formHom f s

/-- Scaling by a positive factor is taking a multiple. -/
theorem scale_eq {n : Nat} (hn : n ≠ 0) (c : Comparison) : c.scale n = .ok (n • c) := by
  unfold scale
  rw [LinearForm.scale_eq hn]
  show Except.ok (⟨c.rel, n • c.form⟩ : Comparison) = .ok ⟨n • c.rel, n • c.form⟩
  rw [Comparator.nsmul_of_ne_zero hn]

/-- Scaling succeeds for positive factors. -/
theorem scale_eq_ok_iff {n : Nat} {c d : Comparison} : c.scale n = .ok d ↔ n ≠ 0 ∧ d = n • c := by
  by_cases hn : n = 0
  · subst hn
    exact iff_of_false (fun h => nomatch h) fun h => h.1 rfl
  · rw [scale_eq hn, Except.ok.injEq]
    exact ⟨fun h => ⟨hn, h.symm⟩, fun h => h.2.symm⟩

/-- A comparison is `0 < 0` when it is strict and every coefficient vanishes. -/
theorem isContradiction_iff {c : Comparison} :
    c.isContradiction ↔ c.rel = .lt ∧ ∀ v, c.coeff v = 0 := by
  simp only [isContradiction, Bool.and_eq_true, LinearForm.isZero_iff, Comparator.isStrict,
    decide_eq_true_eq, coeff]
  exact and_comm

end Comparison

/-! ## Sums over index maps -/

namespace IndexMap

variable {β : Type*} {M : Type*} [AddCommMonoid M]

/-- No index has two entries. -/
theorem nodup_indices (m : IndexMap β) : (m.toList.map Prod.fst).Nodup := by
  refine List.pairwise_map.mpr (m.ascending.imp fun {a b} hlt heq => ?_)
  rw [Nat.compare_eq_lt] at hlt
  omega

/-- A sum over the entries of a map is one over any set that contains their indices, if the default
contributes nothing. -/
theorem sum_entries (m : IndexMap β) (d : β) {f : Nat → β → M} (hf : ∀ i, f i d = 0)
    {s : Finset Nat} (hs : ∀ entry ∈ m, entry.1 ∈ s) :
    (m.toList.map fun entry => f entry.1 entry.2).sum = ∑ i ∈ s, f i (getD m i d) := by
  classical
  have values : (m.toList.map fun entry => f entry.1 entry.2) =
      (m.toList.map Prod.fst).map fun i => f i (getD m i d) := by
    rw [List.map_map]
    apply List.map_congr_left
    intro entry hentry
    show f entry.1 entry.2 = f entry.1 (getD m entry.1 d)
    rw [getD_eq_of_mem hentry]
  rw [values, ← List.sum_toFinset _ m.nodup_indices]
  -- indices without an entry hold the default
  refine sum_subset (fun i hi => ?_) fun i _ hi => ?_
  · obtain ⟨entry, hentry, rfl⟩ := List.mem_map.mp (List.mem_toFinset.mp hi)
    exact hs entry hentry
  · have absent : getD m i d = d := by
      by_contra hne
      exact hi (List.mem_toFinset.mpr (List.mem_map.mpr ⟨_, mem_of_getD_ne hne, rfl⟩))
    rw [absent, hf]

/-- The value at an index is the sum of the values of the entries with that index. -/
theorem sum_entries_at (m : IndexMap M) (i : Nat) :
    (m.toList.map fun entry => if entry.1 = i then entry.2 else 0).sum = getD m i 0 := by
  classical
  rw [m.sum_entries 0 (f := fun j b => if j = i then b else 0) (fun j => ite_self 0)
    (s := insert i (m.toList.map Prod.fst).toFinset) fun entry hentry =>
      mem_insert_of_mem (List.mem_toFinset.mpr (List.mem_map.mpr ⟨entry, hentry, rfl⟩))]
  simp

end IndexMap

/-! ## Totals -/

/-- The sum in which the hypothesis with number `i` is taken `m i` times. -/
def total (hypotheses : List Comparison) (m : Nat → Nat) : Comparison :=
  ∑ i ∈ range hypotheses.length, m i • hypotheses.getD i 0

section Total

variable {hypotheses : List Comparison} {m : Nat → Nat}

theorem total_add (m n : Nat → Nat) :
    total hypotheses (fun i => m i + n i) = total hypotheses m + total hypotheses n := by
  simp only [total, add_nsmul, sum_add_distrib]

theorem total_mul (k : Nat) (m : Nat → Nat) :
    total hypotheses (fun i => m i * k) = k • total hypotheses m := by
  simp only [total, mul_nsmul, smul_sum]

/-- A hypothesis is the total that takes it alone and once. -/
theorem total_single {j : Nat} (hj : j < hypotheses.length) :
    total hypotheses (fun i => if j = i then 1 else 0) = hypotheses.getD j 0 := by
  rw [total, sum_eq_single_of_mem j (mem_range.mpr hj) fun i _ hne => by
    rw [if_neg hne.symm, zero_nsmul], if_pos rfl, one_nsmul]

/-- The total with the values of a map as multiplicities is the sum over its entries; those that
name no hypothesis contribute nothing. -/
theorem sum_entries_eq_total (m : IndexMap Nat) (hypotheses : List Comparison) :
    (m.toList.map fun entry => entry.2 • hypotheses.getD entry.1 0).sum =
      total hypotheses fun i => IndexMap.getD m i 0 := by
  classical
  rw [m.sum_entries 0 (f := fun i k => k • hypotheses.getD i 0) (fun i => zero_nsmul _)
    (s := range hypotheses.length ∪ (m.toList.map Prod.fst).toFinset) fun entry hentry =>
      mem_union_right _ (List.mem_toFinset.mpr (List.mem_map.mpr ⟨entry, hentry, rfl⟩))]
  refine (sum_subset subset_union_left fun i _ hi => ?_).symm
  have hle : hypotheses.length ≤ i := by simpa using hi
  rw [List.getD_eq_default _ _ hle, nsmul_zero]

/-- A total is strict when a strict hypothesis is taken at least once. -/
theorem total_rel_eq_lt_iff :
    (total hypotheses m).rel = .lt ↔
      ∃ i, ∃ h : i < hypotheses.length, m i ≠ 0 ∧ hypotheses[i].rel = .lt := by
  rw [total, Comparison.rel_sum, Comparator.sum_eq_lt_iff]
  constructor
  · rintro ⟨i, hi, hrel⟩
    have hlt : i < hypotheses.length := mem_range.mp hi
    rw [Comparison.rel_nsmul, Comparator.nsmul_eq_lt_iff, List.getD_eq_getElem _ _ hlt] at hrel
    exact ⟨i, hlt, hrel⟩
  · rintro ⟨i, hlt, hrel⟩
    refine ⟨i, mem_range.mpr hlt, ?_⟩
    rwa [Comparison.rel_nsmul, Comparator.nsmul_eq_lt_iff, List.getD_eq_getElem _ _ hlt]

/-- The coefficients of a total are the weighted sums of the coefficients. -/
theorem total_coeff (v : Nat) :
    (total hypotheses m).coeff v =
      ∑ i : Fin hypotheses.length, (m i : Int) * (hypotheses.get i).coeff v := by
  show (total hypotheses m).form.coeff v = _
  rw [total, Comparison.form_sum, LinearForm.coeff_sum, ← Fin.sum_univ_eq_sum_range
    (fun i => ((m i • hypotheses.getD i 0).form).coeff v)]
  apply sum_congr rfl
  intro i _
  rw [Comparison.form_nsmul, LinearForm.coeff_nsmul, List.getD_eq_getElem _ _ i.isLt]
  rfl

/-- The coefficients of a total, summed over any set that contains all hypotheses taken. -/
theorem total_coeff_of_support {s : Finset Nat} (hs : ∀ i, m i ≠ 0 → i ∈ s) (v : Nat) :
    (total hypotheses m).coeff v = ∑ i ∈ s, (m i : Int) * (hypotheses.getD i 0).coeff v := by
  classical
  have hterm (i : Nat) : (m i • hypotheses.getD i 0).form.coeff v =
      (m i : Int) * (hypotheses.getD i 0).coeff v := by
    rw [Comparison.form_nsmul, LinearForm.coeff_nsmul]
    rfl
  show (total hypotheses m).form.coeff v = _
  rw [total, Comparison.form_sum, LinearForm.coeff_sum, sum_congr rfl fun i _ => hterm i]
  trans ∑ i ∈ s ∪ range hypotheses.length, (m i : Int) * (hypotheses.getD i 0).coeff v
  · refine sum_subset subset_union_right fun i _ hi => ?_
    have hle : hypotheses.length ≤ i := by simpa using hi
    rw [List.getD_eq_default _ _ hle]
    exact mul_zero _
  · refine (sum_subset subset_union_left fun i _ hi => ?_).symm
    have hzero : m i = 0 := by
      by_contra hne
      exact hi (hs i hne)
    rw [hzero, Nat.cast_zero, zero_mul]

end Total

end LinearRefutation
