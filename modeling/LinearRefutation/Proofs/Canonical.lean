import LinearRefutation.Json.Forms
import LinearRefutation.Proofs.Sums

/-!
# Forms are canonical

Forms come from lists of terms, from sums, multiples and changes of sign of other forms, and from
storage. A `Construction` is the syntax of such a computation; its coefficients are computed from
this syntax alone, as integers, without any maps.

A construction gives a form if no factor in it is zero and whatever it reads from storage is a map.
The form then stores the coefficients of the construction that are not zero, and nothing else
(`Construction.build?_eq_some_iff`, `LinearForm.mem_terms_iff`), in whatever order the terms came
and however often they cancelled on the way. So forms are equal when their coefficients are, and the
laws of sums and multiples of comparisons are those of integers (`Construction.canonical`).
-/

namespace LinearRefutation

/-! ## Lists of terms -/

namespace LinearForm

/-- The coefficient that a list of terms gives to a variable adds up those of its terms. -/
theorem coeffSum_eq_sum_filter (terms : List (Nat × Int)) (v : Nat) :
    coeffSum terms v = ((terms.filter fun term => term.1 = v).map Prod.snd).sum := by
  induction terms with
  | nil => rfl
  | cons term rest ih =>
    rw [coeffSum, ih]
    by_cases h : term.1 = v
    · simp [h]
    · simp [h]

theorem coeff_ofTerms_eq_sum (terms : List (Nat × Int)) (v : Nat) :
    (ofTerms terms).coeff v = ((terms.filter fun term => term.1 = v).map Prod.snd).sum :=
  (coeff_ofTerms terms v).trans (coeffSum_eq_sum_filter terms v)

end LinearForm

/-! ## Multiples of comparisons -/

namespace Comparison

/-- A multiple of a sum is the sum of the multiples, and fails if they do. -/
theorem scale_add (n : Nat) (c d : Comparison) :
    (c + d).scale n = do return (← c.scale n) + (← d.scale n) := by
  by_cases hn : n = 0
  · subst hn
    rfl
  · rw [scale_eq hn, scale_eq hn, scale_eq hn, nsmul_add]
    rfl

/-- A multiple of a multiple is the multiple by the product, and fails if one of them does. -/
theorem scale_scale (m n : Nat) (c : Comparison) :
    (do (← c.scale m).scale n) = c.scale (m * n) := by
  by_cases hm : m = 0
  · rw [hm, zero_mul]
    rfl
  · rw [scale_eq hm]
    show (m • c).scale n = c.scale (m * n)
    by_cases hn : n = 0
    · rw [hn, mul_zero]
      rfl
    · rw [scale_eq hn, scale_eq (mul_ne_zero hm hn), mul_comm, mul_nsmul']

end Comparison

/-! ## Constructions -/

/-- The ways to build a linear form: as the sum of a list of terms, several of which may have the
same variable, as a sum, a multiple or the negation of others, or as the form stored as a JSON
value. -/
inductive Construction where
  | listed (terms : List (Nat × Int))
  | sum (left right : Construction)
  | multiple (factor : Nat) (of : Construction)
  | negation (of : Construction)
  | stored (value : Json.Value)

namespace Construction

/-- The form that is built, if no step fails. -/
def build? : Construction → Option LinearForm
  | .listed terms => some (.ofTerms terms)
  | .sum left right => do return (← left.build?) + (← right.build?)
  | .multiple factor of => do ((← of.build?).scale factor).toOption
  | .negation of => do return -(← of.build?)
  | .stored value => Json.Codec.decode? value

/-- The map of coefficients that is stored as a value. -/
def storedMap? (value : Json.Value) : Option (IndexMap Int) := Json.Codec.decode? value

/-- Whether no factor is zero and every value read is a map of coefficients. -/
def Possible : Construction → Prop
  | .listed _ => True
  | .sum left right => left.Possible ∧ right.Possible
  | .multiple factor of => 1 ≤ factor ∧ of.Possible
  | .negation of => of.Possible
  | .stored value => (storedMap? value).isSome

/-- The coefficient of a variable: for a list of terms, the sum of those of this variable. -/
def coeff : Construction → Nat → Int
  | .listed terms, v => ((terms.filter fun term => term.1 = v).map Prod.snd).sum
  | .sum left right, v => left.coeff v + right.coeff v
  | .multiple factor of, v => factor * of.coeff v
  | .negation of, v => -of.coeff v
  | .stored value, v => ((storedMap? value).map fun m => IndexMap.getD m v 0).getD 0

variable {c d : Construction} {e : LinearForm}

theorem exists_build? (hc : c.Possible) : ∃ e, c.build? = some e ∧ ∀ v, e.coeff v = c.coeff v := by
  induction c with
  | listed terms =>
    exact ⟨_, rfl, LinearForm.coeff_ofTerms_eq_sum terms⟩
  | sum left right ihl ihr =>
    obtain ⟨a, ha, hacoeff⟩ := ihl hc.1
    obtain ⟨b, hb, hbcoeff⟩ := ihr hc.2
    refine ⟨a + b, by rw [build?, ha, hb]; rfl, fun v => ?_⟩
    rw [LinearForm.coeff_add, hacoeff, hbcoeff, coeff]
  | multiple factor of ih =>
    obtain ⟨a, ha, hacoeff⟩ := ih hc.2
    have hne : factor ≠ 0 := Nat.one_le_iff_ne_zero.mp hc.1
    refine ⟨factor • a, by rw [build?, ha]; exact congrArg Except.toOption (LinearForm.scale_eq hne a),
      fun v => ?_⟩
    rw [LinearForm.coeff_nsmul, hacoeff, coeff]
  | negation of ih =>
    obtain ⟨a, ha, hacoeff⟩ := ih hc
    refine ⟨-a, by rw [build?, ha]; rfl, fun v => ?_⟩
    rw [LinearForm.coeff_neg, hacoeff, coeff]
  | stored value =>
    obtain ⟨m, hm⟩ := Option.isSome_iff_exists.mp hc
    refine ⟨.ofTerms m.toList, congrArg (Option.map _) hm, fun v => ?_⟩
    rw [LinearForm.coeff_ofTerms, LinearForm.coeffSum_toList, coeff, hm]
    rfl

theorem possible_of_build? (h : c.build? = some e) : c.Possible := by
  induction c generalizing e with
  | listed terms => trivial
  | sum left right ihl ihr =>
    obtain ⟨a, ha, hrest⟩ := Option.bind_eq_some_iff.mp h
    obtain ⟨b, hb, -⟩ := Option.bind_eq_some_iff.mp hrest
    exact ⟨ihl ha, ihr hb⟩
  | multiple factor of ih =>
    obtain ⟨a, ha, hscale⟩ := Option.bind_eq_some_iff.mp h
    refine ⟨Nat.one_le_iff_ne_zero.mpr fun hzero => ?_, ih ha⟩
    subst hzero
    exact nomatch hscale
  | negation of ih =>
    obtain ⟨a, ha, -⟩ := Option.bind_eq_some_iff.mp h
    exact ih ha
  | stored value =>
    obtain ⟨m, hm, -⟩ := Option.map_eq_some_iff.mp h
    exact Option.isSome_iff_exists.mpr ⟨m, hm⟩

/-- A construction gives a form if it is possible: the one with its coefficients. -/
theorem build?_eq_some_iff : c.build? = some e ↔ c.Possible ∧ ∀ v, e.coeff v = c.coeff v := by
  constructor
  · intro h
    have hc := possible_of_build? h
    obtain ⟨a, ha, hcoeff⟩ := exists_build? hc
    obtain rfl : a = e := Option.some.inj (ha.symm.trans h)
    exact ⟨hc, hcoeff⟩
  · rintro ⟨hc, hcoeff⟩
    obtain ⟨a, ha, hacoeff⟩ := exists_build? hc
    rw [ha, LinearForm.ext_coeff fun v => (hacoeff v).trans (hcoeff v).symm]

/-- Possible constructions give the same form if all their coefficients agree, and only then. -/
theorem build?_eq_iff (hc : c.Possible) (hd : d.Possible) :
    c.build? = d.build? ↔ ∀ v, c.coeff v = d.coeff v := by
  obtain ⟨a, ha, hacoeff⟩ := exists_build? hc
  obtain ⟨b, hb, hbcoeff⟩ := exists_build? hd
  rw [ha, hb, Option.some.injEq, LinearForm.eq_iff_coeff]
  simp only [hacoeff, hbcoeff]

/-- Forms are canonical. Every construction without a factor zero from lists of terms and stored
maps gives a form; it stores the coefficients of the construction that are not zero and no others,
and equals any other form with the same coefficients. The coefficients of lists of terms, sums,
multiples and changes of sign are the sums, multiples and changes of sign of coefficients. Therefore
sums of comparisons do not depend on order and association and have `0 = 0` for their zero,
multiples distribute over sums, and the multiple of a multiple is the one by the product of the
factors. -/
theorem canonical :
    (∀ c : Construction, c.Possible ↔ ∃ e, c.build? = some e) ∧
      (∀ (c : Construction) (e : LinearForm), c.build? = some e →
        (∀ v, e.coeff v = c.coeff v) ∧ ∀ v k, (v, k) ∈ e.terms ↔ c.coeff v = k ∧ k ≠ 0) ∧
      (∀ (c d : Construction) (a b : LinearForm), c.build? = some a → d.build? = some b →
        (a = b ↔ ∀ v, a.coeff v = b.coeff v) ∧ (a = b ↔ ∀ v, c.coeff v = d.coeff v)) ∧
      (∀ (terms : List (Nat × Int)) (v : Nat), (LinearForm.ofTerms terms).coeff v =
        ((terms.filter fun term => term.1 = v).map Prod.snd).sum) ∧
      (∀ (a b : LinearForm) (v : Nat), (a + b).coeff v = a.coeff v + b.coeff v) ∧
      (∀ (n : Nat) (a : LinearForm), 1 ≤ n →
        ∃ b, a.scale n = .ok b ∧ ∀ v, b.coeff v = n * a.coeff v) ∧
      (∀ (a : LinearForm) (v : Nat), (-a).coeff v = -a.coeff v) ∧
      (∀ c d : Comparison, c + d = d + c) ∧
      (∀ c d e : Comparison, c + d + e = c + (d + e)) ∧
      (∀ c : Comparison, .trivial + c = c ∧ c + .trivial = c) ∧
      (∀ (n : Nat) (c : Comparison), 1 ≤ n →
        ∃ d, c.scale n = .ok d ∧ d.rel = c.rel ∧ ∀ v, d.coeff v = n * c.coeff v) ∧
      (∀ (n : Nat) (c d : Comparison),
        (c + d).scale n = do return (← c.scale n) + (← d.scale n)) ∧
      ∀ (m n : Nat) (c : Comparison), (do (← c.scale m).scale n) = c.scale (m * n) := by
  refine ⟨fun c => ⟨fun hc => ?_, fun ⟨_, h⟩ => possible_of_build? h⟩, fun c e h => ?_,
    fun c d a b ha hb => ⟨LinearForm.eq_iff_coeff, ?_⟩,
    LinearForm.coeff_ofTerms_eq_sum, LinearForm.coeff_add, fun n a hn => ?_, LinearForm.coeff_neg, add_comm, add_assoc,
    fun c => ⟨zero_add c, add_zero c⟩, fun n c hn => ?_, Comparison.scale_add, Comparison.scale_scale⟩
  · obtain ⟨e, he, -⟩ := exists_build? hc
    exact ⟨e, he⟩
  · obtain ⟨-, hcoeff⟩ := build?_eq_some_iff.mp h
    exact ⟨hcoeff, fun v k => by rw [LinearForm.mem_terms_iff, hcoeff]⟩
  · rw [← build?_eq_iff (possible_of_build? ha) (possible_of_build? hb), ha, hb, Option.some.injEq]
  · exact ⟨n • a, LinearForm.scale_eq (Nat.one_le_iff_ne_zero.mp hn) a, LinearForm.coeff_nsmul n a⟩
  · have hne : n ≠ 0 := Nat.one_le_iff_ne_zero.mp hn
    exact ⟨n • c, Comparison.scale_eq hne c, Comparator.nsmul_of_ne_zero hne c.rel,
      LinearForm.coeff_nsmul n c.form⟩

/-- The sum of `5·x₂ + 3·x₀ - 3·x₂`, twice the stored form `x₀ - x₂`, which lists `x₁` with a zero,
and `-5·x₀`. Everything cancels, so it is the form of the empty list of terms. -/
theorem canonical_cancelling :
    let value : Json.Value := .object [
      (['0'], Json.Codec.encode (1 : Int)), (['1'], Json.Codec.encode (0 : Int)),
      (['2'], Json.Codec.encode (-1 : Int))]
    let c : Construction := .sum (.sum (.listed [(2, 5), (0, 3), (2, -3)]) (.multiple 2 (.stored value)))
      (.negation (.listed [(0, 5)]))
    c.Possible ∧ c.build? = some 0 ∧ (∀ v, c.coeff v = 0) ∧
      ∃ d, Comparison.scale 2 ⟨.lt, .ofTerms [(7, 3)]⟩ = .ok d ∧ d.rel = .lt ∧ d.coeff 7 = 6 := by
  intro value c
  obtain ⟨hpossible, hbuilt, -, -, -, -, -, -, -, -, hscale, -⟩ := canonical
  have hc : c.build? = some 0 := by decide +kernel
  obtain ⟨hcoeff, -⟩ := hbuilt c 0 hc
  obtain ⟨d, hd, hrel, hmultiple⟩ := hscale 2 ⟨.lt, .ofTerms [(7, 3)]⟩ (by decide)
  exact ⟨(hpossible c).mpr ⟨0, hc⟩, hc, fun v => (hcoeff v).symm, d, hd, hrel, hmultiple 7⟩

end Construction

end LinearRefutation
