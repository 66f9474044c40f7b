import Mathlib.Data.List.TakeWhile
import LinearRefutation.Json.Decimal
import LinearRefutation.Json.Value

/-!
# Written tokens are read back

What the writer puts out is read token by token: a sign that stands for itself, a string up to its
closing quote, a word up to the first character that cannot continue it. A word is a name or a
number, so it must not be followed by another one. A list of tokens `Lexes` when its text, followed
by anything that does not continue a word, is read as these tokens and whatever the rest is read as
(`Lexes.append`).

Numbers are written as plain decimals, which are words and numbers of the JSON grammar
(`Decimal.isNumber_write`, `Decimal.isNumber_writeInt`); strings are written only where every
character is plain and stands for itself (`Escape.read?_of_plain`).
-/

namespace LinearRefutation.Json

/-! ## Decimal numbers -/

namespace Decimal

theorem isDigit_of_mem_write {n : Nat} {c : Char} (h : c ∈ write n) : c.isDigit = true :=
  Nat.isDigit_of_mem_toDigits (by omega) (by omega) h

theorem exists_write_eq_cons (n : Nat) :
    ∃ c rest, write n = c :: rest ∧ c.isDigit = true ∧ ∀ d ∈ rest, d.isDigit = true := by
  obtain ⟨c, rest, h⟩ : ∃ c rest, write n = c :: rest :=
    List.exists_cons_of_ne_nil Nat.toDigits_ne_nil
  have hdigits : ∀ d ∈ write n, d.isDigit = true := fun d => isDigit_of_mem_write
  rw [h, List.forall_mem_cons] at hdigits
  exact ⟨c, rest, h, hdigits⟩

theorem eq_zero_of_digitChar_eq_zero : ∀ d < 10, Nat.digitChar d = '0' → d = 0 := by decide

/-- Only zero has a plain form that begins with the digit zero. -/
theorem eq_zero_of_write_eq_cons {n : Nat} {rest : List Char} (h : write n = '0' :: rest) : n = 0 := by
  induction n using Nat.strong_induction_on generalizing rest with
  | _ n ih =>
    unfold write at h ih
    by_cases hlt : n < 10
    · rw [Nat.toDigits_of_lt_base hlt, List.cons.injEq] at h
      exact eq_zero_of_digitChar_eq_zero n hlt h.1
    · rw [Nat.toDigits_eq_if (by omega), if_neg hlt] at h
      obtain ⟨c, front, hfront, -⟩ := exists_write_eq_cons (n / 10)
      unfold write at hfront
      rw [hfront, List.cons_append, List.cons.injEq] at h
      obtain ⟨rfl, -⟩ := h
      have hzero : n / 10 = 0 := ih (n / 10) (by omega) hfront
      omega

/-- The whole part of a plain number is all of it. -/
theorem dropWhole?_write (n : Nat) : dropWhole? (write n) = some [] := by
  obtain ⟨c, rest, hwrite, hc, hrest⟩ := exists_write_eq_cons n
  by_cases hzero : c = '0'
  · subst hzero
    obtain rfl := eq_zero_of_write_eq_cons hwrite
    rfl
  · have hall : rest.dropWhile Char.isDigit = [] := List.dropWhile_eq_nil_iff.mpr hrest
    rw [hwrite, dropWhole?, dropDigits?, if_pos hc, hall]
    rintro _ ⟨⟩
    exact hzero rfl

theorem isNumber_write (n : Nat) : isNumber (write n) = true := by
  obtain ⟨c, rest, hwrite, hc, -⟩ := exists_write_eq_cons n
  have hsign : ∀ tail, write n ≠ '-' :: tail := by
    intro tail htail
    rw [hwrite, List.cons.injEq] at htail
    rw [htail.1] at hc
    exact absurd hc (by decide)
  unfold isNumber
  split
  next tail htail => exact absurd htail (hsign tail)
  next =>
    show decide (((dropWhole? (write n)).bind dropFraction?).bind dropExponent? = some []) = true
    rw [dropWhole?_write]
    rfl

theorem isNumber_writeInt (k : Int) : isNumber (writeInt k) = true := by
  unfold writeInt
  by_cases hneg : k < 0
  · rw [if_pos hneg]
    show decide (((dropWhole? (write k.natAbs)).bind dropFraction?).bind dropExponent? = some []) =
      true
    rw [dropWhole?_write]
    rfl
  · rw [if_neg hneg]
    exact isNumber_write k.natAbs

/-- An integer is read back from its plain form. -/
theorem readInt?_writeInt (k : Int) : readInt? (writeInt k) = some k := by
  unfold writeInt
  by_cases hneg : k < 0
  · have habs : k.natAbs ≠ 0 := by omega
    rw [if_pos hneg, readInt?, read?_write, Option.bind_some, if_neg habs]
    congr 1
    omega
  · obtain ⟨c, rest, hwrite, hc, -⟩ := exists_write_eq_cons k.natAbs
    -- the digits do not begin with a minus sign
    have hread : readInt? (write k.natAbs) = (read? (write k.natAbs)).map Int.ofNat := by
      rw [hwrite]
      unfold readInt?
      split
      next heq =>
        rw [List.cons.injEq] at heq
        rw [heq.1] at hc
        exact absurd hc (by decide)
      next => rfl
    rw [if_neg hneg, hread, read?_write, Option.map_some]
    congr 1
    show (k.natAbs : Int) = k
    omega

end Decimal

/-! ## Plain strings -/

namespace Escape

/-- Whether a string can be written as it is. -/
def Plain (body : List Char) : Prop := ∀ c ∈ body, c ≠ '"' ∧ c ≠ '\\' ∧ isControl c = false

instance (body : List Char) : Decidable (Plain body) := List.decidableBAll _ body

variable {body : List Char}

theorem units?_of_plain (h : Plain body) : units? body = some (body.map .char) := by
  induction body with
  | nil => rfl
  | cons c rest ih =>
    obtain ⟨⟨-, hescape, hcontrol⟩, hrest⟩ := List.forall_mem_cons.mp h
    have hplain : ¬ (c = '\\' ∨ isControl c = true) := by simp [hescape, hcontrol]
    unfold units?
    split
    next heq => exact nomatch heq
    next heq => exact absurd (List.cons.inj heq).1 hescape
    next heq => exact absurd (List.cons.inj heq).1 hescape
    next heq =>
      obtain ⟨rfl, rfl⟩ := List.cons.inj heq
      rw [if_neg hplain, ih hrest]
      rfl

theorem chars?_map_char (cs : List Char) : chars? (cs.map .char) = some cs := by
  induction cs with
  | nil => rfl
  | cons c rest ih =>
    rw [List.map_cons, chars?, ih]
    rfl

/-- A plain string stands for itself. -/
theorem read?_of_plain (h : Plain body) : read? body = some (String.ofList body) := by
  unfold read?
  rw [units?_of_plain h]
  show (do return String.ofList (← chars? (body.map .char))) = _
  rw [chars?_map_char]
  rfl

theorem plain_of_isDigit (h : ∀ c ∈ body, c.isDigit = true) : Plain body := by
  intro c hc
  have hdigit := h c hc
  rw [Char.isDigit_iff_toNat] at hdigit
  refine ⟨?_, ?_, ?_⟩
  · rintro rfl
    exact absurd hdigit (by decide)
  · rintro rfl
    exact absurd hdigit (by decide)
  · have hzero : '0'.toNat = 48 := rfl
    rw [isControl, decide_eq_false_iff_not]
    omega

end Escape

/-- A plain string ends at the quote after it. -/
theorem takeString?_of_plain {body : List Char} (h : Escape.Plain body) (rest : List Char) :
    takeString? (body ++ '"' :: rest) = some (body, rest) := by
  induction body with
  | nil => rfl
  | cons c tail ih =>
    obtain ⟨⟨hquote, hescape, -⟩, htail⟩ := List.forall_mem_cons.mp h
    rw [List.cons_append]
    unfold takeString?
    split
    next heq => exact nomatch heq
    next heq => exact absurd (List.cons.inj heq).1 hquote
    next heq => exact absurd (List.cons.inj heq).1 hescape
    next heq =>
      obtain ⟨rfl, rfl⟩ := List.cons.inj heq
      rw [ih htail]
      rfl

/-! ## Reading one token -/

/-- Whether a text is over or goes on with a character that cannot continue a word. -/
def EndsWord (rest : List Char) : Prop := ∀ c ∈ rest.head?, isWordChar c = false

theorem endsWord_nil : EndsWord [] := fun _ h => nomatch h

/-- A character that is not part of a word ends a word. -/
theorem endsWord_cons {c : Char} (h : isWordChar c = false) (rest : List Char) : EndsWord (c :: rest) := by
  rintro _ ⟨⟩
  exact h

theorem isWordChar_of_isDigit {c : Char} (h : c.isDigit = true) : isWordChar c = true := by
  simp [isWordChar, Char.isAlphanum, h]

theorem Decimal.isWordChar_of_mem_write {n : Nat} {c : Char} (h : c ∈ write n) : isWordChar c = true :=
  isWordChar_of_isDigit (isDigit_of_mem_write h)

theorem Decimal.isWordChar_of_mem_writeInt {k : Int} {c : Char} (h : c ∈ writeInt k) :
    isWordChar c = true := by
  unfold writeInt at h
  split at h
  · rcases List.mem_cons.mp h with rfl | h
    · decide
    · exact isWordChar_of_mem_write h
  · exact isWordChar_of_mem_write h

/-- A word is read up to where it ends. -/
theorem takeWhile_word {word rest : List Char} (hword : ∀ c ∈ word, isWordChar c = true)
    (hrest : EndsWord rest) : (word ++ rest).takeWhile isWordChar = word := by
  have hover : rest.takeWhile isWordChar = [] := by
    rcases rest with _ | ⟨d, more⟩
    · rfl
    · rw [List.takeWhile_cons, hrest d rfl]
      rfl
  rw [List.takeWhile_append_of_pos hword, hover, List.append_nil]

/-- What is left of a text without its first word is what follows it. -/
theorem dropWhile_word {word rest : List Char} (hword : ∀ c ∈ word, isWordChar c = true)
    (hrest : EndsWord rest) : (word ++ rest).dropWhile isWordChar = rest := by
  have happend := List.takeWhile_append_dropWhile (p := isWordChar) (l := word ++ rest)
  rw [takeWhile_word hword hrest] at happend
  exact List.append_cancel_left happend

/-- A character that is a token by itself neither separates nor opens or continues another token. -/
theorem not_special_of_ofChar? {c : Char} {token : Token} (h : Token.ofChar? c = some token) :
    isBlank c = false ∧ c ≠ '"' ∧ isWordChar c = false := by
  unfold Token.ofChar? at h
  split at h
  case h_7 => exact nomatch h
  all_goals exact ⟨rfl, by decide, rfl⟩

/-- No character of a word is a token by itself or stands between tokens. -/
theorem not_special_of_isWordChar {c : Char} (h : isWordChar c = true) :
    isBlank c = false ∧ c ≠ '"' ∧ Token.ofChar? c = none := by
  have hne : ∀ d, isWordChar d = false → c ≠ d := by
    rintro d hd rfl
    rw [h] at hd
    exact nomatch hd
  refine ⟨?_, hne '"' rfl, ?_⟩
  · simp [isBlank, hne ' ' rfl, hne '\n' rfl, hne '\t' rfl, hne '\r' rfl]
  · by_contra hsign
    obtain ⟨token, htoken⟩ := Option.ne_none_iff_exists'.mp hsign
    exact hne c (not_special_of_ofChar? htoken).2.2 rfl

/-- A character that is a token by itself is read as that token. -/
theorem tokens?_cons_of_ofChar? {c : Char} {token : Token} (h : Token.ofChar? c = some token)
    (rest : List Char) : tokens? (c :: rest) = (tokens? rest).map (token :: ·) := by
  obtain ⟨hblank, hquote, -⟩ := not_special_of_ofChar? h
  rw [tokens?]
  simp only [hblank, hquote, if_false, h]
  rfl

/-- A plain string between quotes is read as that string. -/
theorem tokens?_string {body : List Char} (h : Escape.Plain body) (rest : List Char) :
    tokens? ('"' :: (body ++ '"' :: rest)) = (tokens? rest).map (.scalar (.string body) :: ·) := by
  have htake := takeString?_of_plain h rest
  rw [tokens?, if_neg (by decide), if_pos rfl]
  split
  next hnone =>
    rw [htake] at hnone
    exact absurd hnone (Option.some_ne_none _)
  next text after hsome =>
    obtain ⟨rfl, rfl⟩ := Prod.mk.inj (Option.some.inj (htake.symm.trans hsome))
    rw [Escape.units?_of_plain h]
    rfl

/-- A word is read as the scalar that it is, where it ends. -/
theorem tokens?_word {word rest : List Char} {s : Scalar} (hne : word ≠ [])
    (hword : ∀ c ∈ word, isWordChar c = true) (hs : Scalar.ofWord? word = some s)
    (hrest : EndsWord rest) : tokens? (word ++ rest) = (tokens? rest).map (.scalar s :: ·) := by
  obtain ⟨c, tail, rfl⟩ := List.exists_cons_of_ne_nil hne
  obtain ⟨hc, htail⟩ := List.forall_mem_cons.mp hword
  obtain ⟨hblank, hquote, hsign⟩ := not_special_of_isWordChar hc
  rw [List.cons_append, tokens?]
  simp only [hblank, hquote, if_false, hsign, takeWhile_word htail hrest, dropWhile_word htail hrest,
    hs]
  rfl

end LinearRefutation.Json
