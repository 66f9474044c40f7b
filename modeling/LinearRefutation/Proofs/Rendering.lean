import LinearRefutation.Derivation
import LinearRefutation.Hypothesis
import LinearRefutation.Comparison
import LinearRefutation.Proofs.Json.Lexing

/-!
# Texts tell what they render

Different derivations, comparisons and hypotheses have different texts (`render_eq_iff`).

Texts are composed of parts, so each part must show where it ends. A way of writing is `Delimited`
when the text, with anything after it that may follow such a text, determines both what was written
and what follows. A number ends at the first character that is not part of a word. A derivation that
is not a hypothesis is enclosed in brackets. The addends of a sum are separated by ` + `, so what
follows a sum must not begin like that: in comparisons and hypotheses it is a blank and a sign of
relation.
-/

namespace LinearRefutation

open Json

/-- Whether a text, followed by anything that may follow it, shows what was written and where it
ends. -/
def Delimited {α : Type} (write : α → List Char) (Ends : List Char → Prop) : Prop :=
  ∀ a b r s, Ends r → Ends s → write a ++ r = write b ++ s → a = b ∧ r = s

section Delimited

variable {α : Type} {write : α → List Char} {Ends : List Char → Prop}

theorem Delimited.injective (h : Delimited write Ends) (hnil : Ends []) : Function.Injective write := by
  intro a b hab
  exact (h a b [] [] hnil hnil (congrArg (· ++ []) hab)).1

/-- Words that tell what they stand for end where words end. -/
theorem delimited_word (hinj : Function.Injective write)
    (hword : ∀ a, ∀ c ∈ write a, isWordChar c = true) : Delimited write EndsWord := by
  intro a b r s hr hs h
  have hab : write a = write b := by
    rw [← takeWhile_word (hword a) hr, h, takeWhile_word (hword b) hs]
  rw [hab] at h
  exact ⟨hinj hab, List.append_cancel_left h⟩

end Delimited

/-! ## Numbers -/

namespace Json.Decimal

theorem delimited_write : Delimited write EndsWord :=
  delimited_word
    (fun m n h => Option.some.inj (by rw [← read?_write m, h, read?_write n]))
    fun _ _ => isWordChar_of_mem_write

theorem delimited_writeInt : Delimited writeInt EndsWord :=
  delimited_word
    (fun k l h => Option.some.inj (by rw [← readInt?_writeInt k, h, readInt?_writeInt l]))
    fun _ _ => isWordChar_of_mem_writeInt

theorem toList_toString_nat (n : Nat) : (toString n).toList = write n := Nat.toList_repr

theorem toList_toString_int (k : Int) : (toString k).toList = writeInt k := by
  rw [Int.toString_eq_repr, Int.repr_eq_if, writeInt]
  by_cases hneg : k < 0
  · have habs : (-k).toNat = k.natAbs := by omega
    rw [if_neg (Int.not_le.mpr hneg), if_pos hneg, String.toList_append, Nat.toList_repr, habs]
    rfl
  · have habs : k.toNat = k.natAbs := by omega
    rw [if_pos (Int.not_lt.mp hneg), if_neg hneg, Nat.toList_repr, habs]
    rfl

end Json.Decimal

open Json.Decimal

/-! ## Derivations -/

namespace Derivation

theorem toList_render_hypothesis (index : Nat) :
    (hypothesis index).render.toList = '#' :: write index := by
  rw [render, String.toList_append, toList_toString_nat]
  rfl

theorem toList_render_sum (left right : Derivation) : (sum left right).render.toList =
    '(' :: (left.render.toList ++ ' ' :: '+' :: ' ' :: (right.render.toList ++ [')'])) := by
  rw [render]
  simp only [String.toList_append, List.append_assoc]
  rfl

theorem toList_render_multiple (factor : Nat) (of : Derivation) : (multiple factor of).render.toList =
    '(' :: (write factor ++ ' ' :: '*' :: ' ' :: (of.render.toList ++ [')'])) := by
  rw [render]
  simp only [String.toList_append, List.append_assoc, toList_toString_nat]
  rfl

theorem exists_render_eq_cons (d : Derivation) :
    ∃ c rest, d.render.toList = c :: rest ∧ c.isDigit = false := by
  cases d with
  | hypothesis index => exact ⟨_, _, toList_render_hypothesis index, rfl⟩
  | sum left right => exact ⟨_, _, toList_render_sum left right, rfl⟩
  | multiple factor of => exact ⟨_, _, toList_render_multiple factor of, rfl⟩

/-- The text of a derivation does not begin like a number. -/
theorem render_append_ne_write (d : Derivation) (n : Nat) (rest rest' : List Char) :
    d.render.toList ++ rest ≠ write n ++ rest' := by
  obtain ⟨c, tail, hrender, hc⟩ := exists_render_eq_cons d
  obtain ⟨c', digits, hwrite, hc', -⟩ := exists_write_eq_cons n
  intro h
  rw [hrender, hwrite] at h
  rw [(List.cons.inj h).1, hc'] at hc
  exact Bool.noConfusion hc

/-- The text of a derivation shows the derivation and where it ends, unless a number goes on. -/
theorem delimited_render : Delimited (fun d : Derivation => d.render.toList) EndsWord := by
  intro d
  -- only a hypothesis begins with `#`; behind the `(` of a sum stands the text of a derivation,
  -- behind that of a multiple a number
  induction d with
  | hypothesis index =>
    intro e r s hr hs h
    cases e with
    | hypothesis index' =>
      simp only [toList_render_hypothesis, List.cons_append] at h
      obtain ⟨rfl, hrest⟩ := delimited_write _ _ _ _ hr hs (List.cons.inj h).2
      exact ⟨rfl, hrest⟩
    | sum left right =>
      simp [toList_render_hypothesis, toList_render_sum] at h
    | multiple factor of =>
      simp [toList_render_hypothesis, toList_render_multiple] at h
  | sum left right ihleft ihright =>
    intro e r s hr hs h
    cases e with
    | hypothesis index =>
      simp [toList_render_hypothesis, toList_render_sum] at h
    | sum left' right' =>
      simp only [toList_render_sum, List.cons_append, List.append_assoc] at h
      obtain ⟨rfl, hplus⟩ := ihleft _ _ _ (endsWord_cons rfl _) (endsWord_cons rfl _) (List.cons.inj h).2
      simp only [List.cons.injEq, true_and] at hplus
      obtain ⟨rfl, hclose⟩ := ihright _ _ _ (endsWord_cons rfl _) (endsWord_cons rfl _) hplus
      exact ⟨rfl, (List.cons.inj hclose).2⟩
    | multiple factor of =>
      simp only [toList_render_sum, toList_render_multiple, List.cons_append, List.append_assoc] at h
      exact absurd (List.cons.inj h).2 (render_append_ne_write left factor _ _)
  | multiple factor of ih =>
    intro e r s hr hs h
    cases e with
    | hypothesis index =>
      simp [toList_render_hypothesis, toList_render_multiple] at h
    | sum left right =>
      simp only [toList_render_sum, toList_render_multiple, List.cons_append, List.append_assoc] at h
      exact absurd (List.cons.inj h).2.symm (render_append_ne_write left factor _ _)
    | multiple factor' of' =>
      simp only [toList_render_multiple, List.cons_append, List.append_assoc] at h
      obtain ⟨rfl, htimes⟩ :=
        delimited_write _ _ _ _ (endsWord_cons rfl _) (endsWord_cons rfl _) (List.cons.inj h).2
      simp only [List.cons.injEq, true_and] at htimes
      obtain ⟨rfl, hclose⟩ := ih _ _ _ (endsWord_cons rfl _) (endsWord_cons rfl _) htimes
      exact ⟨rfl, (List.cons.inj hclose).2⟩

end Derivation

/-! ## Sums -/

/-- An addend of a sum that is written out: a variable with its coefficient, or a number. -/
inductive Addend where
  | term (term : Nat × Int)
  | constant (value : Int)

namespace Addend

/-- The term that an addend is, unless it is a constant. -/
def term? : Addend → Option (Nat × Int)
  | .term t => some t
  | .constant _ => none

/-- The text of an addend. -/
def render : Addend → String
  | .term t => LinearForm.renderTerm t
  | .constant k => toString k

/-- The text of a sum. -/
def renderSum (addends : List Addend) : String := " + ".intercalate (addends.map render)

/-- Whether a text is over or goes on with a blank. -/
def Spaced (rest : List Char) : Prop := ∀ c ∈ rest.head?, c = ' '

/-- Whether a text is over or goes on with a blank, but not with another addend. -/
def EndsSum (rest : List Char) : Prop := Spaced rest ∧ ∀ more, rest ≠ ' ' :: '+' :: more

theorem Spaced.endsWord {rest : List Char} (h : Spaced rest) : EndsWord rest := by
  intro c hc
  rw [h c hc]
  rfl

theorem toList_render_term (t : Nat × Int) :
    (render (.term t)).toList = writeInt t.2 ++ '*' :: 'x' :: write t.1 := by
  rw [render, LinearForm.renderTerm]
  simp only [String.toList_append, toList_toString_int, toList_toString_nat, List.append_assoc]
  rfl

theorem toList_render_constant (k : Int) : (render (.constant k)).toList = writeInt k :=
  toList_toString_int k

/-- A coefficient is followed by its variable, a constant is not. -/
theorem writeInt_append_ne {k l : Int} {rest r : List Char} (hr : Spaced r) :
    writeInt k ++ '*' :: rest ≠ writeInt l ++ r := by
  intro h
  obtain ⟨-, rfl⟩ := delimited_writeInt _ _ _ _ (endsWord_cons rfl _) hr.endsWord h
  exact absurd (hr '*' rfl) (by decide)

theorem delimited_render : Delimited (fun a : Addend => a.render.toList) Spaced := by
  intro a b r s hr hs h
  -- behind the number of a term stands `*`, where a constant ends
  cases a with
  | term t =>
    cases b with
    | term u =>
      simp only [toList_render_term, List.append_assoc, List.cons_append] at h
      obtain ⟨hcoeff, hvar⟩ := delimited_writeInt _ _ _ _ (endsWord_cons rfl _) (endsWord_cons rfl _) h
      simp only [List.cons.injEq, true_and] at hvar
      obtain ⟨hvar, hrest⟩ := delimited_write _ _ _ _ hr.endsWord hs.endsWord hvar
      exact ⟨congrArg term (Prod.ext hvar hcoeff), hrest⟩
    | constant l =>
      simp only [toList_render_term, toList_render_constant, List.append_assoc, List.cons_append] at h
      exact absurd h (writeInt_append_ne hs)
  | constant k =>
    cases b with
    | term u =>
      simp only [toList_render_term, toList_render_constant, List.append_assoc, List.cons_append] at h
      exact absurd h.symm (writeInt_append_ne hr)
    | constant l =>
      simp only [toList_render_constant] at h
      obtain ⟨rfl, hrest⟩ := delimited_writeInt _ _ _ _ hr.endsWord hs.endsWord h
      exact ⟨rfl, hrest⟩

theorem endsSum_nil : EndsSum [] :=
  ⟨(fun _ h => nomatch h), fun _ h => nomatch h⟩

theorem spaced_cons (rest : List Char) : Spaced (' ' :: rest) := by
  rintro _ ⟨⟩
  rfl

theorem endsSum_cons {c : Char} (hc : c ≠ '+') (rest : List Char) : EndsSum (' ' :: c :: rest) :=
  ⟨spaced_cons _, fun _ h => hc (List.cons.inj (List.cons.inj h).2).1⟩

theorem toList_renderSum_single (a : Addend) : (renderSum [a]).toList = a.render.toList := by
  rw [renderSum, List.map_singleton, String.intercalate_singleton]

theorem toList_renderSum_cons (a b : Addend) (l : List Addend) : (renderSum (a :: b :: l)).toList =
    a.render.toList ++ ' ' :: '+' :: ' ' :: (renderSum (b :: l)).toList := by
  rw [renderSum, List.map_cons, List.map_cons, String.intercalate_cons_cons, ← List.map_cons]
  simp only [String.toList_append, List.append_assoc]
  rfl

/-- The text of a sum of at least one addend shows the addends and where it ends. -/
theorem renderSum_append_inj {l m : List Addend} {r s : List Char} (hl : l ≠ []) (hm : m ≠ [])
    (hr : EndsSum r) (hs : EndsSum s) (h : (renderSum l).toList ++ r = (renderSum m).toList ++ s) :
    l = m ∧ r = s := by
  induction l generalizing m with
  | nil => exact absurd rfl hl
  | cons a l ih =>
    obtain ⟨b, m, rfl⟩ := List.exists_cons_of_ne_nil hm
    rcases l with _ | ⟨a', l⟩ <;> rcases m with _ | ⟨b', m⟩
    · rw [toList_renderSum_single, toList_renderSum_single] at h
      obtain ⟨rfl, hrest⟩ := delimited_render _ _ _ _ hr.1 hs.1 h
      exact ⟨rfl, hrest⟩
    · -- one sum is over where the other goes on
      simp only [toList_renderSum_single, toList_renderSum_cons, List.append_assoc,
        List.cons_append] at h
      exact absurd (delimited_render _ _ _ _ hr.1 (spaced_cons _) h).2 (hr.2 _)
    · simp only [toList_renderSum_single, toList_renderSum_cons, List.append_assoc,
        List.cons_append] at h
      exact absurd (delimited_render _ _ _ _ (spaced_cons _) hs.1 h).2.symm (hs.2 _)
    · simp only [toList_renderSum_cons, List.append_assoc, List.cons_append] at h
      obtain ⟨rfl, hplus⟩ := delimited_render _ _ _ _ (spaced_cons _) (spaced_cons _) h
      simp only [List.cons.injEq, true_and] at hplus
      obtain ⟨heq, hrest⟩ := ih (List.cons_ne_nil _ _) (List.cons_ne_nil _ _) hplus
      exact ⟨congrArg (a :: ·) heq, hrest⟩

end Addend

open Addend

namespace LinearForm

/-- The addends of a form: its terms, or the constant zero. -/
def addends (form : LinearForm) : List Addend :=
  if form.isZero then [.constant 0] else form.terms.toList.map .term

theorem render_eq_renderSum (form : LinearForm) : form.render = renderSum form.addends := by
  unfold render addends
  split
  · rfl
  · rw [renderSum, List.map_map]
    rfl

theorem addends_ne_nil (form : LinearForm) : form.addends ≠ [] := by
  unfold addends
  split
  next => exact List.cons_ne_nil _ _
  next h => exact fun hnil => h (List.isEmpty_iff.mpr (List.map_eq_nil_iff.mp hnil))

theorem filterMap_addends (form : LinearForm) : form.addends.filterMap term? = form.terms.toList := by
  unfold addends
  split
  next h => exact (List.isEmpty_iff.mp h).symm
  next =>
    rw [List.filterMap_map]
    exact List.filterMap_some

theorem delimited_render : Delimited (fun form : LinearForm => form.render.toList) EndsSum := by
  intro e f r s hr hs h
  simp only [render_eq_renderSum] at h
  obtain ⟨haddends, hrest⟩ := renderSum_append_inj e.addends_ne_nil f.addends_ne_nil hr hs h
  refine ⟨LinearForm.ext (Ascending.ext ?_), hrest⟩
  rw [← filterMap_addends e, haddends, filterMap_addends]

end LinearForm

namespace AffineExpr

/-- The addends of an expression: its terms and its constant. -/
def addends (e : AffineExpr) : List Addend := e.form.terms.toList.map .term ++ [.constant e.constant]

theorem render_eq_renderSum (e : AffineExpr) : e.render = renderSum e.addends := by
  unfold render addends renderSum
  rw [List.map_append, List.map_map, List.map_singleton]
  induction e.form.terms.toList with
  | nil => rfl
  | cons t terms ih =>
    rw [List.map_cons, String.join_cons, String.append_assoc, ih, List.map_cons, List.cons_append,
      String.intercalate_cons_of_ne_nil (List.append_ne_nil_of_right_ne_nil _ (List.cons_ne_nil _ _))]
    rfl

theorem delimited_render : Delimited (fun e : AffineExpr => e.render.toList) EndsSum := by
  intro e f r s hr hs h
  simp only [render_eq_renderSum] at h
  obtain ⟨haddends, hrest⟩ := renderSum_append_inj (List.concat_ne_nil _ _) (List.concat_ne_nil _ _) hr hs h
  obtain ⟨hterms, hconstant⟩ := List.append_inj' haddends rfl
  refine ⟨AffineExpr.ext ?_ (LinearForm.ext (Ascending.ext ?_)), hrest⟩
  · exact Addend.constant.inj (List.cons.inj hconstant).1
  · exact (List.map_inj_right fun _ _ => Addend.term.inj).mp hterms

end AffineExpr

/-! ## Comparisons and hypotheses -/

theorem Comparator.symbol_injective : Function.Injective symbol := by
  intro a b h
  cases a <;> cases b <;> simp_all [symbol]

theorem Comparator.endsSum_symbol (a : Comparator) (rest : List Char) :
    EndsSum (' ' :: (a.symbol.toList ++ rest)) := by
  cases a <;> exact endsSum_cons (by decide) _

theorem Relation.delimited_symbol : Delimited (fun R : Relation => R.symbol.toList) fun _ => True := by
  intro a b r s _ _ h
  cases a <;> cases b <;> simp_all [symbol]

theorem Relation.endsSum_symbol (R : Relation) (rest : List Char) :
    EndsSum (' ' :: (R.symbol.toList ++ rest)) := by
  cases R <;> exact endsSum_cons (by decide) _

theorem Comparison.toList_render (c : Comparison) : c.render.toList =
    c.form.render.toList ++ ' ' :: (c.rel.symbol.toList ++ [' ', '0']) := by
  rw [render]
  simp only [String.toList_append, List.append_assoc]
  rfl

theorem Comparison.render_injective : Function.Injective render := by
  intro c d h
  have hchars := congrArg String.toList h
  rw [toList_render, toList_render] at hchars
  obtain ⟨hform, hrest⟩ := LinearForm.delimited_render _ _ _ _ (c.rel.endsSum_symbol _)
    (d.rel.endsSum_symbol _) hchars
  have hsymbol := List.append_cancel_right (List.cons.inj hrest).2
  exact Comparison.ext (Comparator.symbol_injective (String.toList_inj.mp hsymbol)) hform

theorem Hypothesis.toList_render (g : Hypothesis) : g.render.toList =
    g.lhs.render.toList ++ ' ' :: (g.rel.symbol.toList ++ ' ' :: g.rhs.render.toList) := by
  rw [render]
  simp only [String.toList_append, List.append_assoc]
  rfl

theorem Hypothesis.render_injective : Function.Injective render := by
  intro g h heq
  have hchars := congrArg String.toList heq
  rw [toList_render, toList_render] at hchars
  obtain ⟨hlhs, hrest⟩ := AffineExpr.delimited_render _ _ _ _ (g.rel.endsSum_symbol _)
    (h.rel.endsSum_symbol _) hchars
  obtain ⟨hrel, hrest⟩ := Relation.delimited_symbol _ _ _ _ trivial trivial (List.cons.inj hrest).2
  have hrhs := AffineExpr.delimited_render.injective endsSum_nil (List.cons.inj hrest).2
  exact Hypothesis.ext hlhs hrel hrhs

/-- Derivations with the same text are the same, with all factors and brackets; so are comparisons
with the same text, and hypotheses with the same text. -/
theorem render_eq_iff :
    (∀ d e : Derivation, d.render = e.render ↔ d = e) ∧
      (∀ c d : Comparison, c.render = d.render ↔ c = d) ∧
        ∀ g h : Hypothesis, g.render = h.render ↔ g = h := by
  have hderivation : Function.Injective Derivation.render := fun d e h =>
    Derivation.delimited_render.injective endsWord_nil (congrArg String.toList h)
  exact ⟨fun _ _ => hderivation.eq_iff, fun _ _ => Comparison.render_injective.eq_iff,
    fun _ _ => Hypothesis.render_injective.eq_iff⟩

end LinearRefutation
