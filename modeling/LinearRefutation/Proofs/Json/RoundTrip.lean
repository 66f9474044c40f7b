import LinearRefutation.IndexMap.Lemmas
import LinearRefutation.LinearForm.Lemmas
import LinearRefutation.Json.Forms
import LinearRefutation.Proofs.Json.Parsing

/-!
# Stored values are read back

A codec is `Lawful` when what it writes is text that can be read, a value is read back from what is
written for it, and only values that can be stored are read. The last condition names the values of
the types with bounded indices: everything below `2 ^ 64` is stored, and nothing else is read.
Integers are stored whatever their size.

Digits, maps and records are lawful one after the other, each from its parts.
-/

namespace LinearRefutation.Json

/-! ## Lists read item by item -/

section MapM

variable {α β γ : Type}

/-- Images are read item by item if each of them can be read. -/
theorem mapM_map_eq_some {image : α → β} {read : β → Option γ} {value : α → γ} {l : List α}
    (h : ∀ a ∈ l, read (image a) = some (value a)) :
    (l.map image).mapM read = some (l.map value) := by
  induction l with
  | nil => rfl
  | cons a rest ih =>
    obtain ⟨ha, hrest⟩ := List.forall_mem_cons.mp h
    rw [List.map_cons, List.mapM_cons, ha, ih hrest]
    rfl

/-- Whatever is read item by item is read from one of the items. -/
theorem exists_of_mem_mapM {read : α → Option β} {l : List α} {values : List β}
    (h : l.mapM read = some values) {b : β} (hb : b ∈ values) : ∃ a ∈ l, read a = some b := by
  induction l generalizing values with
  | nil =>
    obtain rfl : [] = values := Option.some.inj h
    exact absurd hb List.not_mem_nil
  | cons a rest ih =>
    rw [List.mapM_cons] at h
    obtain ⟨first, hfirst, htail⟩ := Option.bind_eq_some_iff.mp h
    obtain ⟨others, hothers, heq⟩ := Option.bind_eq_some_iff.mp htail
    obtain rfl : first :: others = values := Option.some.inj heq
    rcases List.mem_cons.mp hb with rfl | hb
    · exact ⟨a, List.mem_cons_self, hfirst⟩
    · obtain ⟨a', ha', hread⟩ := ih hothers hb
      exact ⟨a', List.mem_cons_of_mem _ ha', hread⟩

end MapM

/-! ## Lawful codecs -/

namespace Codec

/-- What a codec owes to the values that can be stored: all that it writes is text, a value is read
back from its form, and no other values are read. -/
structure Lawful (α : Type) [Codec α] (Storable : α → Prop) : Prop where
  written : ∀ a : α, (encode a).Written
  decode?_encode : ∀ a : α, Storable a → decode? (encode a) = some a
  storable : ∀ (value : Value) (a : α), decode? value = some a → Storable a

variable {α : Type} [Codec α] {Storable : α → Prop}

/-- What is read from a text is read from the value of the text. -/
theorem read?_eq_some_iff {text : String} {a : α} :
    read? text = some a ↔
      ∃ value, Value.parse? text.toList = some value ∧ decode? value = some a :=
  Option.bind_eq_some_iff

/-- A value that can be stored is read back from its text. -/
theorem Lawful.read?_write (h : Lawful α Storable) {a : α} (ha : Storable a) :
    read? (write a) = some a := by
  unfold read? write
  rw [String.toList_ofList, Value.parse?_text (h.written a), Option.bind_some, h.decode?_encode a ha]

/-- What is read from a text can be stored. -/
theorem Lawful.storable_of_read? (h : Lawful α Storable) {text : String} {a : α}
    (hread : read? text = some a) : Storable a := by
  obtain ⟨value, -, hvalue⟩ := read?_eq_some_iff.mp hread
  exact h.storable value a hvalue

end Codec

/-! ## Numbers -/

namespace Value

theorem written_natural (n : Nat) : (natural n).Written :=
  .scalar ⟨Decimal.isNumber_write n, fun _ => Decimal.isWordChar_of_mem_write⟩

theorem natural?_natural {limit n : Nat} (h : n < limit) : natural? limit (natural n) = some n := by
  show (Decimal.read? (Decimal.write n)).filter (· < limit) = some n
  rw [Decimal.read?_write, Option.filter_some, if_pos (decide_eq_true h)]

theorem lt_of_natural? {limit n : Nat} {value : Value} (h : natural? limit value = some n) :
    n < limit := by
  unfold natural? at h
  split at h
  next => exact of_decide_eq_true (Option.filter_eq_some_iff.mp h).2
  next => exact nomatch h

theorem written_integer (k : Int) : (integer k).Written :=
  .scalar ⟨Decimal.isNumber_writeInt k, fun _ => Decimal.isWordChar_of_mem_writeInt⟩

end Value

theorem lt_of_mem_digits {n d : Nat} (h : d ∈ digits n) : d < base := by
  fun_induction digits n with
  | case1 => exact absurd h List.not_mem_nil
  | case2 n _ _ ih =>
    rcases List.mem_cons.mp h with rfl | h
    · exact Nat.mod_lt n (by decide)
    · exact ih h

/-- A number is the value of its digits. -/
theorem ofDigits_digits (n : Nat) : ofDigits (digits n) = n := by
  fun_induction digits n with
  | case1 => rfl
  | case2 n _ _ ih =>
    show n % base + base * ofDigits (digits (n / base)) = n
    rw [ih, Nat.mod_add_div]

/-- Natural numbers of any size are stored. -/
theorem lawful_nat : Codec.Lawful Nat fun _ => True where
  written n := .array fun item hitem => by
    obtain ⟨d, -, rfl⟩ := List.mem_map.mp hitem
    exact Value.written_natural d
  decode?_encode n _ := by
    show (((digits n).map Value.natural).mapM (Value.natural? base)).map ofDigits = some n
    rw [mapM_map_eq_some fun d hd => Value.natural?_natural (lt_of_mem_digits hd), Option.map_some,
      List.map_id', ofDigits_digits]
  storable _ _ _ := trivial

/-- Integers of any size are stored. -/
theorem lawful_int : Codec.Lawful Int fun _ => True where
  written k := .array (List.forall_mem_cons.mpr ⟨Value.written_integer k.sign,
    List.forall_mem_singleton.mpr (lawful_nat.written k.natAbs)⟩)
  decode?_encode k _ := by
    have hsign : k.sign = -1 ∨ k.sign = 0 ∨ k.sign = 1 := by
      rcases Int.lt_trichotomy k 0 with hneg | rfl | hpos
      · exact .inl (Int.sign_eq_neg_one_of_neg hneg)
      · exact .inr (.inl rfl)
      · exact .inr (.inr (Int.sign_eq_one_of_pos hpos))
    have hinteger : Value.integer? (Value.integer k.sign) = some k.sign :=
      Decimal.readInt?_writeInt k.sign
    show (do
      let sign ← Value.integer? (Value.integer k.sign)
      let magnitude : Nat ← Codec.decode? (Codec.encode k.natAbs)
      if sign = -1 ∨ sign = 0 ∨ sign = 1 then some (sign * (magnitude : Int)) else none) = some k
    rw [hinteger, lawful_nat.decode?_encode k.natAbs trivial]
    show (if k.sign = -1 ∨ k.sign = 0 ∨ k.sign = 1 then some (k.sign * (k.natAbs : Int))
      else none) = _
    rw [if_pos hsign, Int.sign_mul_natAbs]
  storable _ _ _ := trivial

/-! ## Maps -/

section Maps

variable {β : Type} [Codec β]

/-- The entry that a member of an object is. -/
def readEntry (member : List Char × Value) : Option (Nat × β) := do
  let index ← (Decimal.read? member.1).filter (· < indexLimit)
  return (index, ← Codec.decode? member.2)

theorem readEntry_eq_some_iff {member : List Char × Value} {entry : Nat × β} :
    readEntry member = some entry ↔
      (Decimal.read? member.1 = some entry.1 ∧ entry.1 < indexLimit) ∧
        Codec.decode? member.2 = some entry.2 := by
  have hindex (i : Nat) : (Decimal.read? member.1).filter (· < indexLimit) = some i ↔
      Decimal.read? member.1 = some i ∧ i < indexLimit := by
    rw [Option.filter_eq_some_iff, decide_eq_true_iff]
  unfold readEntry
  constructor
  · intro h
    obtain ⟨i, hi, hvalue⟩ := Option.bind_eq_some_iff.mp h
    obtain ⟨b, hb, heq⟩ := Option.bind_eq_some_iff.mp hvalue
    obtain rfl : (i, b) = entry := Option.some.inj heq
    exact ⟨(hindex i).mp hi, hb⟩
  · rintro ⟨hi, hb⟩
    exact Option.bind_eq_some_iff.mpr
      ⟨entry.1, (hindex entry.1).mpr hi, Option.bind_eq_some_iff.mpr ⟨entry.2, hb, rfl⟩⟩

/-- A map is read from an object only, entry by entry. -/
theorem decode?_map_eq_some_iff {value : Value} {m : IndexMap β} :
    Codec.decode? value = some m ↔
      ∃ members entries, value = .object members ∧ members.mapM readEntry = some entries ∧
        m = Ascending.ofList entries := by
  constructor
  · intro h
    cases value with
    | scalar s => exact nomatch h
    | array items => exact nomatch h
    | object members =>
      obtain ⟨entries, hentries, heq⟩ := Option.bind_eq_some_iff.mp h
      exact ⟨members, entries, rfl, hentries, (Option.some.inj heq).symm⟩
  · rintro ⟨members, entries, rfl, hentries, rfl⟩
    exact Option.bind_eq_some_iff.mpr ⟨entries, hentries, rfl⟩

/-- A map can be stored if its indices are below the limit. -/
def IndicesBelowLimit {β : Type} (m : IndexMap β) : Prop := ∀ entry ∈ m, entry.1 < indexLimit

/-- Maps are stored if their values are, whatever these are. -/
theorem lawful_indexMap (hβ : Codec.Lawful β fun _ => True) :
    Codec.Lawful (IndexMap β) IndicesBelowLimit where
  written m := by
    refine .object (fun member hmember => ?_) fun member hmember => ?_
    · obtain ⟨entry, -, rfl⟩ := List.mem_map.mp hmember
      exact Escape.plain_of_isDigit fun _ => Decimal.isDigit_of_mem_write
    · obtain ⟨entry, -, rfl⟩ := List.mem_map.mp hmember
      exact hβ.written entry.2
  decode?_encode m hm := by
    have hentry : ∀ entry ∈ m.toList,
        readEntry (Decimal.write entry.1, Codec.encode entry.2) = some (id entry) :=
      fun entry hentry => readEntry_eq_some_iff.mpr
        ⟨⟨Decimal.read?_write entry.1, hm entry hentry⟩, hβ.decode?_encode entry.2 trivial⟩
    refine decode?_map_eq_some_iff.mpr ⟨_, m.toList, rfl, ?_, (Ascending.ofList_toList m).symm⟩
    rw [mapM_map_eq_some hentry, List.map_id]
  storable value m hread := by
    obtain ⟨members, entries, rfl, hentries, rfl⟩ := decode?_map_eq_some_iff.mp hread
    intro entry hentry
    have hmem : entry ∈ entries :=
      (Ascending.mem_of_mem_foldl_insert hentry).resolve_left (Ascending.not_mem_empty entry)
    obtain ⟨member, -, hmember⟩ := exists_of_mem_mapM hentries hmem
    exact (readEntry_eq_some_iff.mp hmember).1.2

end Maps

/-! ## Records -/

/-- The field of a list of fields with distinct names that has the name of one of them. -/
theorem filter_fst_eq_singleton {α : Type} {fields : List (String × α)}
    (distinct : (fields.map Prod.fst).Nodup) {field : String × α} (h : field ∈ fields) :
    fields.filter (·.1 = field.1) = [field] := by
  induction fields with
  | nil => exact absurd h List.not_mem_nil
  | cons first rest ih =>
    obtain ⟨hfirst, hrest⟩ := List.nodup_cons.mp distinct
    rcases List.mem_cons.mp h with rfl | h
    · have hnone : rest.filter (·.1 = field.1) = [] := by
        rw [List.filter_eq_nil_iff]
        intro other hother hname
        exact hfirst (of_decide_eq_true hname ▸ List.mem_map_of_mem hother)
      rw [List.filter_cons, if_pos (decide_eq_true rfl), hnone]
    · have hne : ¬ first.1 = field.1 := fun heq => hfirst (heq ▸ List.mem_map_of_mem h)
      rw [List.filter_cons_of_neg (by rwa [decide_eq_true_iff]), ih hrest h]

/-- Names that can be written and told apart. -/
def FieldNames (names : List String) : Prop :=
  names.Nodup ∧ ∀ name ∈ names, Escape.Plain name.toList

instance (names : List String) : Decidable (FieldNames names) := inferInstanceAs (Decidable (_ ∧ _))

namespace Value

variable {fields : List (String × Value)} {names : List String}

/-- The fields of a record are found by their names. -/
theorem fields?_record (h : FieldNames names) (hfields : fields.map Prod.fst = names) :
    (record fields).fields? names = some (fields.map fun field => some field.2) := by
  subst hfields
  obtain ⟨distinct, plain⟩ := h
  have hmembers : (fields.map fun field => (field.1.toList, field.2)).mapM
      (fun member : List Char × Value => do return (← Escape.read? member.1, member.2)) =
        some (fields.map id) := by
    refine mapM_map_eq_some fun field hfield => ?_
    rw [Escape.read?_of_plain (plain field.1 (List.mem_map_of_mem hfield)), String.ofList_toList]
    rfl
  show ((fields.map fun field => (field.1.toList, field.2)).mapM
    (fun member : List Char × Value => do return (← Escape.read? member.1, member.2)) >>= _) = _
  rw [hmembers, List.map_id]
  refine mapM_map_eq_some fun field hfield => ?_
  rw [filter_fst_eq_singleton distinct hfield]

theorem written_record (h : FieldNames names) (hfields : fields.map Prod.fst = names)
    (written : ∀ value ∈ fields.map Prod.snd, value.Written) : (record fields).Written := by
  subst hfields
  refine .object (List.forall_mem_map.mpr fun field hfield => ?_)
    (List.forall_mem_map.mpr fun field hfield => ?_)
  · exact h.2 field.1 (List.mem_map_of_mem hfield)
  · exact written field.2 (List.mem_map_of_mem hfield)

/-- A field that must be there is there. -/
theorem required?_eq_some {α : Type} {decode? : Value → Option α} {field : Option Value} {a : α}
    (h : required? decode? field = some a) : ∃ value, field = some value ∧ decode? value = some a :=
  Option.bind_eq_some_iff.mp h

end Value

/-! ## The domain -/

/-- Comparators are stored. -/
theorem lawful_comparator : Codec.Lawful Comparator fun _ => True where
  written rel := .scalar (show Escape.Plain rel.name.toList by cases rel <;> decide)
  decode?_encode rel _ := by cases rel <;> rfl
  storable _ _ _ := trivial

/-- The coefficients of a form that is read are those of a map, less the zeros. -/
theorem exists_map_of_decode? {value : Value} {form : LinearForm}
    (h : Codec.decode? value = some form) :
    ∃ m : IndexMap Int, Codec.decode? value = some m ∧ form.terms = IndexMap.without m 0 := by
  obtain ⟨m, hm, rfl⟩ := Option.map_eq_some_iff.mp h
  exact ⟨m, hm, LinearForm.terms_ofTerms m⟩

/-- Forms are stored by their coefficients. -/
theorem lawful_linearForm : Codec.Lawful LinearForm fun form => IndicesBelowLimit form.terms where
  written form := (lawful_indexMap lawful_int).written form.terms
  decode?_encode form hform := by
    show (Codec.decode? (Codec.encode form.terms)).map
      (fun m : IndexMap Int => LinearForm.ofTerms m.toList) = some form
    rw [(lawful_indexMap lawful_int).decode?_encode form.terms hform, Option.map_some]
    congr 1
    exact LinearForm.ext_coeff fun v => by rw [LinearForm.coeff_ofTerms, LinearForm.coeffSum_terms]
  storable value form hread := by
    obtain ⟨m, hm, hterms⟩ := exists_map_of_decode? hread
    intro entry hentry
    rw [hterms] at hentry
    exact (lawful_indexMap lawful_int).storable value m hm entry (IndexMap.mem_without.mp hentry).1

/-- A comparison is read field by field. -/
theorem exists_fields_of_decode? {value : Value} {c : Comparison} (h : Codec.decode? value = some c) :
    ∃ rel coeffs, value.fields? ["ineq", "coeffs"] = some [some rel, some coeffs] ∧
      Codec.decode? coeffs = some c.form := by
  obtain ⟨fields, hfields, hmatch⟩ := Option.bind_eq_some_iff.mp h
  split at hmatch
  next relField formField =>
    obtain ⟨r, hr, hrest⟩ := Option.bind_eq_some_iff.mp hmatch
    obtain ⟨f, hf, heq⟩ := Option.bind_eq_some_iff.mp hrest
    obtain rfl : Comparison.mk r f = c := Option.some.inj heq
    obtain ⟨rel, rfl, -⟩ := Value.required?_eq_some hr
    obtain ⟨coeffs, rfl, hcoeffs⟩ := Value.required?_eq_some hf
    exact ⟨rel, coeffs, hfields, hcoeffs⟩
  next => exact nomatch hmatch

/-- Comparisons are stored by their coefficients. -/
theorem lawful_comparison : Codec.Lawful Comparison fun c => IndicesBelowLimit c.form.terms where
  written c := by
    refine Value.written_record (by decide) (rfl : _ = ["ineq", "coeffs"]) ?_
    exact List.forall_mem_cons.mpr ⟨lawful_comparator.written c.rel,
      List.forall_mem_singleton.mpr (lawful_linearForm.written c.form)⟩
  decode?_encode c hc := by
    have hfields : (Codec.encode c).fields? ["ineq", "coeffs"] =
        some [some (Codec.encode c.rel), some (Codec.encode c.form)] :=
      Value.fields?_record (by decide) rfl
    show ((Codec.encode c).fields? ["ineq", "coeffs"] >>= _) = some c
    rw [hfields]
    show (do
      return (⟨← Codec.decode? (Codec.encode c.rel), ← Codec.decode? (Codec.encode c.form)⟩ :
        Comparison)) = some c
    rw [lawful_comparator.decode?_encode c.rel trivial, lawful_linearForm.decode?_encode c.form hc]
    rfl
  storable value c hread := by
    obtain ⟨-, coeffs, -, hcoeffs⟩ := exists_fields_of_decode? hread
    exact lawful_linearForm.storable coeffs c.form hcoeffs

/-- Certificates are stored by their multiplicities, those that are zero included. -/
theorem lawful_certificate :
    Codec.Lawful Certificate fun cert => IndicesBelowLimit cert.multipliers where
  written cert := by
    refine Value.written_record (by decide) (rfl : _ = ["multipliers"]) ?_
    exact List.forall_mem_singleton.mpr ((lawful_indexMap lawful_nat).written cert.multipliers)
  decode?_encode cert hcert := by
    have hfields : (Codec.encode cert).fields? ["multipliers"] =
        some [some (Codec.encode cert.multipliers)] :=
      Value.fields?_record (by decide) rfl
    show ((Codec.encode cert).fields? ["multipliers"] >>= _) = some cert
    rw [hfields]
    show (do return (⟨← Codec.decode? (Codec.encode cert.multipliers)⟩ : Certificate)) = some cert
    rw [(lawful_indexMap lawful_nat).decode?_encode cert.multipliers hcert]
    rfl
  storable value cert hread := by
    obtain ⟨fields, -, hmatch⟩ := Option.bind_eq_some_iff.mp hread
    split at hmatch
    next multipliers =>
      obtain ⟨m, hm, heq⟩ := Option.bind_eq_some_iff.mp hmatch
      obtain rfl : Certificate.mk m = cert := Option.some.inj heq
      obtain ⟨mapValue, -, hmap⟩ := Value.required?_eq_some hm
      exact (lawful_indexMap lawful_nat).storable mapValue m hmap
    next => exact nomatch hmatch

/-- Combinations are stored by their coefficients, those that are zero included. -/
theorem lawful_combination :
    Codec.Lawful Combination fun comb => IndicesBelowLimit comb.coefficients where
  written comb := by
    refine Value.written_record (by decide) (rfl : _ = ["coefficients", "positivity"]) ?_
    exact List.forall_mem_cons.mpr ⟨(lawful_indexMap lawful_int).written comb.coefficients,
      List.forall_mem_singleton.mpr (lawful_nat.written comb.positivity)⟩
  decode?_encode comb hcomb := by
    have hfields : (Codec.encode comb).fields? ["coefficients", "positivity"] =
        some [some (Codec.encode comb.coefficients), some (Codec.encode comb.positivity)] :=
      Value.fields?_record (by decide) rfl
    show ((Codec.encode comb).fields? ["coefficients", "positivity"] >>= _) = some comb
    rw [hfields]
    show (do return (⟨← Codec.decode? (Codec.encode comb.coefficients),
      ← Codec.decode? (Codec.encode comb.positivity)⟩ : Combination)) = some comb
    rw [(lawful_indexMap lawful_int).decode?_encode comb.coefficients hcomb,
      lawful_nat.decode?_encode comb.positivity trivial]
    rfl
  storable value comb hread := by
    obtain ⟨fields, -, hmatch⟩ := Option.bind_eq_some_iff.mp hread
    split at hmatch
    next coefficients positivity =>
      obtain ⟨m, hm, hrest⟩ := Option.bind_eq_some_iff.mp hmatch
      obtain ⟨k, -, heq⟩ := Option.bind_eq_some_iff.mp hrest
      obtain rfl : Combination.mk m k = comb := Option.some.inj heq
      obtain ⟨mapValue, -, hmap⟩ := Value.required?_eq_some hm
      exact (lawful_indexMap lawful_int).storable mapValue m hmap
    next => exact nomatch hmatch

/-- A limit can be stored if it is below that of the indices, or absent. -/
def LimitStorable (limit : Option Nat) : Prop := ∀ n, limit = some n → n < indexLimit

/-- The reading of an optional limit. -/
def limit? : Value → Option (Option Nat) := Value.optional? (Value.natural? indexLimit)

theorem written_limit (limit : Option Nat) : (Value.optional .natural limit).Written := by
  cases limit with
  | none => exact .scalar True.intro
  | some n => exact Value.written_natural n

theorem limit?_optional {limit : Option Nat} (h : LimitStorable limit) :
    limit? (Value.optional .natural limit) = some limit := by
  cases limit with
  | none => rfl
  | some n =>
    show (Value.natural? indexLimit (Value.natural n)).map some = some (some n)
    rw [Value.natural?_natural (h n rfl), Option.map_some]

theorem limitStorable_of_limit? {value : Value} {limit : Option Nat} (h : limit? value = some limit) :
    LimitStorable limit := by
  rintro n rfl
  unfold limit? Value.optional? at h
  split at h
  next => exact nomatch Option.some.inj h
  next =>
    obtain ⟨m, hm, heq⟩ := Option.map_eq_some_iff.mp h
    obtain rfl : m = n := Option.some.inj heq
    exact Value.lt_of_natural? hm

/-- A limit that is read, or its default, can be stored. -/
theorem limitStorable_of_field? {default limit : Option Nat} {field : Option Value}
    (hdefault : LimitStorable default) (h : Value.field? default limit? field = some limit) :
    LimitStorable limit := by
  rcases field with _ | value
  · obtain rfl : default = limit := Option.some.inj h
    exact hdefault
  · exact limitStorable_of_limit? h

/-- The defaults of the limits can be stored. -/
theorem limitStorable_default :
    LimitStorable ({} : Config).maxWorkingSet ∧ LimitStorable ({} : Config).maxPairs := by
  constructor
  · intro n hn
    rw [← Option.some.inj hn]
    decide
  · exact fun _ hn => nomatch hn

/-- Configs are stored, with their limits if these can be stored. -/
theorem lawful_config : Codec.Lawful Config fun config =>
    LimitStorable config.maxWorkingSet ∧ LimitStorable config.maxPairs where
  written config := by
    refine Value.written_record (by decide)
      (rfl : _ = ["max_working_set", "max_pairs", "prune_non_minimal"]) ?_
    exact List.forall_mem_cons.mpr ⟨written_limit config.maxWorkingSet,
      List.forall_mem_cons.mpr ⟨written_limit config.maxPairs,
        List.forall_mem_singleton.mpr (.scalar True.intro)⟩⟩
  decode?_encode config hconfig := by
    have hfields : (Codec.encode config).fields? ["max_working_set", "max_pairs", "prune_non_minimal"] =
        some [some (.optional .natural config.maxWorkingSet),
          some (.optional .natural config.maxPairs), some (.truth config.prune)] :=
      Value.fields?_record (by decide) rfl
    show ((Codec.encode config).fields? _ >>= _) = some config
    rw [hfields]
    show (do return (⟨← limit? (.optional .natural config.maxWorkingSet),
      ← limit? (.optional .natural config.maxPairs), ← Value.truth? (.truth config.prune)⟩ :
        Config)) = some config
    rw [limit?_optional hconfig.1, limit?_optional hconfig.2]
    rfl
  storable value config hread := by
    obtain ⟨hworkingSet, hpairs⟩ := limitStorable_default
    obtain ⟨fields, -, hmatch⟩ := Option.bind_eq_some_iff.mp hread
    split at hmatch
    next maxWorkingSet maxPairs prune =>
      obtain ⟨w, hw, hrest⟩ := Option.bind_eq_some_iff.mp hmatch
      obtain ⟨p, hp, hlast⟩ := Option.bind_eq_some_iff.mp hrest
      obtain ⟨b, -, heq⟩ := Option.bind_eq_some_iff.mp hlast
      obtain rfl : Config.mk w p b = config := Option.some.inj heq
      exact ⟨limitStorable_of_field? hworkingSet hw, limitStorable_of_field? hpairs hp⟩
    next => exact nomatch hmatch

/-! ## Texts -/

/-- Values that can be stored are read back from their texts, and a value read from any text can be
stored and is read back from the text written for it. -/
structure Codec.RoundTrips (α : Type) [Codec α] (Storable : α → Prop) : Prop where
  read?_write : ∀ a : α, Storable a → Codec.read? (Codec.write a) = some a
  storable : ∀ (text : String) (a : α), Codec.read? text = some a → Storable a
  reread : ∀ (text : String) (a : α), Codec.read? text = some a →
    Codec.read? (Codec.write a) = some a

theorem Codec.Lawful.roundTrips {α : Type} [Codec α] {Storable : α → Prop}
    (h : Codec.Lawful α Storable) : Codec.RoundTrips α Storable where
  read?_write _ ha := h.read?_write ha
  storable _ _ hread := h.storable_of_read? hread
  reread _ _ hread := h.read?_write (h.storable_of_read? hread)

/-- Whatever is stored is read back: configs, comparators, forms, comparisons, certificates and
combinations with indices below the limit, numbers of any size, and entries that are zero where the
type has them. Whatever is read, from any text, can be stored again. A form, by itself or in a
comparison, holds no zeros: it keeps those entries of the map it is read from that are not zero. -/
theorem texts_round_trip :
    (Codec.RoundTrips Config fun config =>
        LimitStorable config.maxWorkingSet ∧ LimitStorable config.maxPairs) ∧
      (Codec.RoundTrips Comparator fun _ => True) ∧
      (Codec.RoundTrips LinearForm fun form => IndicesBelowLimit form.terms) ∧
      (Codec.RoundTrips Comparison fun c => IndicesBelowLimit c.form.terms) ∧
      (Codec.RoundTrips Certificate fun cert => IndicesBelowLimit cert.multipliers) ∧
      (Codec.RoundTrips Combination fun comb => IndicesBelowLimit comb.coefficients) ∧
      (∀ (text : String) (form : LinearForm), Codec.read? text = some form →
        (∀ term ∈ form.terms, term.2 ≠ 0) ∧
          ∃ m : IndexMap Int, Codec.read? text = some m ∧ form.terms = IndexMap.without m 0) ∧
      ∀ (text : String) (c : Comparison), Codec.read? text = some c →
        (∀ term ∈ c.form.terms, term.2 ≠ 0) ∧
          ∃ value rel coeffs, Value.parse? text.toList = some value ∧
            value.fields? ["ineq", "coeffs"] = some [some rel, some coeffs] ∧
              ∃ m : IndexMap Int, Codec.decode? coeffs = some m ∧
                c.form.terms = IndexMap.without m 0 := by
  refine ⟨lawful_config.roundTrips, lawful_comparator.roundTrips, lawful_linearForm.roundTrips,
    lawful_comparison.roundTrips, lawful_certificate.roundTrips, lawful_combination.roundTrips,
    fun text form hread => ⟨form.nonzero, ?_⟩, fun text c hread => ⟨c.form.nonzero, ?_⟩⟩
  · obtain ⟨value, hparse, hvalue⟩ := Codec.read?_eq_some_iff.mp hread
    obtain ⟨m, hm, hterms⟩ := exists_map_of_decode? hvalue
    exact ⟨m, Codec.read?_eq_some_iff.mpr ⟨value, hparse, hm⟩, hterms⟩
  · obtain ⟨value, hparse, hvalue⟩ := Codec.read?_eq_some_iff.mp hread
    obtain ⟨rel, coeffs, hfields, hcoeffs⟩ := exists_fields_of_decode? hvalue
    exact ⟨value, rel, coeffs, hparse, hfields, exists_map_of_decode? hcoeffs⟩

/-- A certificate with a multiplicity zero and one of two digits for the largest index; a form and a
comparison from texts that list a zero, digits in excess, an index twice or the fields without
names. -/
theorem texts_round_trip_zeros :
    let cert : Certificate := ⟨.ofList [(0, 0), (18446744073709551615, 4294967296)]⟩
    let text := "\x7b\"1\":[0,[7]], \"0\":[1,[5]], \"0\":[-1,[2,0]]\x7d"
    let form : LinearForm := .ofTerms [(0, -2)]
    let record := "[\"Lt\", \x7b\"1\":[0,[7]], \"0\":[-1,[2,0]]\x7d]"
    (IndicesBelowLimit cert.multipliers ∧ Codec.read? (Codec.write cert) = some cert) ∧
      (Codec.read? text = some form ∧ Codec.read? (Codec.write form) = some form ∧
        ∃ m : IndexMap Int, Codec.read? text = some m ∧ form.terms = IndexMap.without m 0) ∧
      Codec.read? record = some (Comparison.mk .lt form) ∧
        Codec.read? (Codec.write (Comparison.mk .lt form)) = some (Comparison.mk .lt form) := by
  intro cert text form record
  have hcert : IndicesBelowLimit cert.multipliers := by
    unfold IndicesBelowLimit
    decide
  have hform : Codec.read? text = some form := by decide +kernel
  have hrecord : Codec.read? record = some (Comparison.mk .lt form) := by decide +kernel
  obtain ⟨-, -, forms, comparisons, certificates, -, hterms, -⟩ := texts_round_trip
  exact ⟨⟨hcert, certificates.read?_write cert hcert⟩,
    ⟨hform, forms.reread text form hform, (hterms text form hform).2⟩,
    hrecord, comparisons.reread record _ hrecord⟩

end LinearRefutation.Json
