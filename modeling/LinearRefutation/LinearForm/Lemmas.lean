import LinearRefutation.IndexMap.Lemmas
import LinearRefutation.LinearForm

/-!
# Coefficients of linear forms

`coeff` after each operation on linear forms. A form is determined by its coefficients
(`ext_coeff`), so equations between forms are equations between integers.
-/

namespace LinearRefutation

namespace LinearForm

/-- Forms with the same coefficients are equal. -/
theorem ext_coeff {a b : LinearForm} (h : ∀ v, a.coeff v = b.coeff v) : a = b :=
  LinearForm.ext (IndexMap.ext_getD 0 a.nonzero b.nonzero h)

theorem eq_iff_coeff {a b : LinearForm} : a = b ↔ ∀ v, a.coeff v = b.coeff v :=
  ⟨fun h _ => h ▸ rfl, ext_coeff⟩

@[simp]
theorem coeff_zero (v : Nat) : (0 : LinearForm).coeff v = 0 := rfl

/-- The coefficient after a term is added. -/
theorem coeff_addTerm (e : LinearForm) (term : Nat × Int) (v : Nat) :
    (e.addTerm term).coeff v = e.coeff v + if term.1 = v then term.2 else 0 := by
  simp only [addTerm]
  split
  next h =>
    rw [coeff, IndexMap.getD_erase]
    split
    next hv => rw [← hv, h]
    next => rw [Int.add_zero, coeff]
  next h =>
    rw [coeff, IndexMap.getD_insert]
    split
    next hv => rw [← hv]
    next => rw [Int.add_zero, coeff]

/-- The sum of the coefficients that a list of terms gives to a variable. -/
def coeffSum : (terms : List (Nat × Int)) → (v : Nat) → Int
  | [], _ => 0
  | term :: rest, v => (if term.1 = v then term.2 else 0) + coeffSum rest v

/-- The coefficient after a list of terms is added. -/
theorem coeff_foldl_addTerm (terms : List (Nat × Int)) (e : LinearForm) (v : Nat) :
    (terms.foldl addTerm e).coeff v = e.coeff v + coeffSum terms v := by
  induction terms generalizing e with
  | nil => simp [coeffSum]
  | cons term rest ih =>
    rw [List.foldl_cons, ih, coeff_addTerm]
    simp only [coeffSum]
    omega

/-- The coefficient of a variable is the sum of those in its terms. -/
theorem coeff_ofTerms (terms : List (Nat × Int)) (v : Nat) :
    (ofTerms terms).coeff v = coeffSum terms v := by
  rw [ofTerms, coeff_foldl_addTerm, coeff_zero, Int.zero_add]

private theorem coeffSum_eq_zero {terms : List (Nat × Int)} {v : Nat} (h : ∀ t ∈ terms, t.1 ≠ v) :
    coeffSum terms v = 0 := by
  induction terms with
  | nil => rfl
  | cons t rest ih =>
    have ht := h t List.mem_cons_self
    simp [coeffSum, ht, ih fun s hs => h s (List.mem_cons_of_mem _ hs)]

/-- The entries of a map add up to its values. -/
theorem coeffSum_toList (m : IndexMap Int) (v : Nat) : coeffSum m.toList v = IndexMap.getD m v 0 := by
  obtain ⟨terms, sorted⟩ := m
  induction terms with
  | nil => rfl
  | cons t rest ih =>
    obtain ⟨below, tail⟩ := List.pairwise_cons.mp sorted
    have ih := ih tail
    simp only [coeffSum, IndexMap.getD, IndexMap.get?, Ascending.find?, List.find?_cons] at ih ⊢
    by_cases hv : t.1 = v
    · have : coeffSum rest v = 0 := coeffSum_eq_zero fun s hs he => by
        have := below s hs
        rw [hv, he] at this
        simp at this
      simp [hv, this]
    · have : (compare t.1 v == .eq) = false := by simpa using hv
      simp [hv, this, ih]

/-- The terms of a form add up to its coefficients. -/
theorem coeffSum_terms (e : LinearForm) (v : Nat) : coeffSum e.terms.toList v = e.coeff v :=
  coeffSum_toList e.terms v

/-- The sum of the entries of a map keeps those that are not zero. -/
theorem terms_ofTerms (m : IndexMap Int) : (ofTerms m.toList).terms = IndexMap.without m 0 := by
  refine IndexMap.ext_getD 0 (ofTerms m.toList).nonzero
    (fun _ hentry => (IndexMap.mem_without.mp hentry).2) fun v => ?_
  rw [IndexMap.getD_without]
  exact (coeff_ofTerms m.toList v).trans (coeffSum_toList m v)

@[simp]
theorem coeff_add (a b : LinearForm) (v : Nat) : (a + b).coeff v = a.coeff v + b.coeff v := by
  change (b.terms.toList.foldl addTerm a).coeff v = _
  rw [coeff_foldl_addTerm, coeffSum_terms]

@[simp]
theorem coeff_multiply (k : Int) (hk : k ≠ 0) (e : LinearForm) (v : Nat) :
    (e.multiply k hk).coeff v = k * e.coeff v := by
  simp only [coeff, multiply, IndexMap.getD, IndexMap.get?_mapValues]
  cases IndexMap.get? e.terms v <;> simp

@[simp]
theorem coeff_neg (e : LinearForm) (v : Nat) : (-e).coeff v = -e.coeff v := by
  change (e.multiply (-1) (by decide)).coeff v = _
  rw [coeff_multiply]
  omega

/-- Scaling fails for the factor zero only. -/
theorem scale_eq_ok_iff {n : Nat} {e e' : LinearForm} :
    e.scale n = .ok e' ↔ n ≠ 0 ∧ ∀ v, e'.coeff v = n * e.coeff v := by
  simp only [scale]
  split
  next h => simp [h]
  next h =>
    simp only [Except.ok.injEq, h, ne_eq, not_false_eq_true, true_and]
    constructor
    · rintro rfl v
      exact coeff_multiply ..
    · exact fun hv => ext_coeff fun v => by rw [coeff_multiply, hv]

/-- What a form stores of a variable is its coefficient, unless that is zero. -/
theorem mem_terms_iff {e : LinearForm} {v : Nat} {k : Int} :
    (v, k) ∈ e.terms ↔ e.coeff v = k ∧ k ≠ 0 := by
  constructor
  · exact fun hmem => ⟨IndexMap.getD_eq_of_mem hmem 0, e.nonzero _ hmem⟩
  · rintro ⟨rfl, hne⟩
    exact IndexMap.mem_of_getD_ne hne

/-- The variables that occur are those with a nonzero coefficient. -/
theorem mem_vars {e : LinearForm} {v : Nat} : v ∈ e.vars ↔ e.coeff v ≠ 0 := by
  rw [vars, IndexMap.mem_keys]
  simp only [mem_terms_iff, exists_eq_left']

/-- A form is zero when all its coefficients are. -/
theorem isZero_iff {e : LinearForm} : e.isZero ↔ ∀ v, e.coeff v = 0 := by
  rw [isZero, Ascending.isEmpty_iff]
  constructor
  · intro h v
    exact Classical.byContradiction fun hv => h _ (IndexMap.mem_of_getD_ne hv)
  · intro h t ht
    refine e.nonzero t ht ?_
    rw [← h t.1, coeff, IndexMap.getD_eq_of_mem ht]

end LinearForm

end LinearRefutation
