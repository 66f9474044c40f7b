import LinearRefutation.Proofs.Json.Lexing

/-!
# Written values are read back

A value is `Written` when the writer can put it out: its numbers are words and numbers of the JSON
grammar, its strings and names are plain. The text of a written value is read as its tokens
(`Value.Written.lexes`), and from its tokens the machine builds the value again, whatever arrays and
objects are open around it (`Value.Written.reads`), so that the text is read as the value
(`Value.parse?_text`).
-/

namespace LinearRefutation.Json

/-! ## From text to tokens -/

/-- Whether the text of tokens, up to anything that does not continue a word, is read as these
tokens. -/
def Lexes (tokens : List Token) : Prop :=
  ∀ rest, EndsWord rest →
    tokens? (tokens.flatMap Token.text ++ rest) = (tokens? rest).map (tokens ++ ·)

/-- Whether a token is one of the signs that stand for themselves. -/
def Token.isSign : Token → Bool
  | .scalar _ => false
  | _ => true

theorem Token.exists_char_of_isSign {token : Token} (h : token.isSign = true) :
    ∃ c, token.text = [c] ∧ Token.ofChar? c = some token := by
  cases token with
  | scalar => exact nomatch h
  | openArray => exact ⟨'[', rfl, rfl⟩
  | closeArray => exact ⟨']', rfl, rfl⟩
  | openObject => exact ⟨'\x7b', rfl, rfl⟩
  | closeObject => exact ⟨'\x7d', rfl, rfl⟩
  | colon => exact ⟨':', rfl, rfl⟩
  | comma => exact ⟨',', rfl, rfl⟩

/-- Whether a scalar can be written. -/
def Scalar.Written : Scalar → Prop
  | .null => True
  | .bool _ => True
  | .number text => isNumber text = true ∧ ∀ c ∈ text, isWordChar c = true
  | .string body => Escape.Plain body

section Lexes

variable {tokens rest : List Token} {token : Token}

theorem lexes_nil : Lexes [] := by
  intro rest _
  rw [List.flatMap_nil, List.nil_append]
  exact (Option.map_id' (x := tokens? rest)).symm

/-- Tokens are read one after the other, unless a word runs into the next one. -/
theorem Lexes.append (h : Lexes tokens) (hrest : Lexes rest)
    (hends : ∀ text, EndsWord text → EndsWord (rest.flatMap Token.text ++ text)) :
    Lexes (tokens ++ rest) := by
  intro text htext
  rw [List.flatMap_append, List.append_assoc, h _ (hends text htext), hrest text htext,
    Option.map_map]
  congr 1
  funext tail
  exact (List.append_assoc tokens rest tail).symm

theorem Lexes.cons_sign (hsign : token.isSign = true) (h : Lexes tokens) : Lexes (token :: tokens) := by
  obtain ⟨c, htext, hc⟩ := Token.exists_char_of_isSign hsign
  intro text hends
  rw [List.flatMap_cons, htext, List.append_assoc, List.singleton_append,
    tokens?_cons_of_ofChar? hc, h text hends, Option.map_map]
  rfl

theorem Lexes.cons_string {body : List Char} (hbody : Escape.Plain body) (h : Lexes tokens) :
    Lexes (.scalar (.string body) :: tokens) := by
  intro text hends
  have htext : (Token.scalar (.string body) :: tokens).flatMap Token.text ++ text =
      '"' :: (body ++ '"' :: (tokens.flatMap Token.text ++ text)) := by
    simp [Token.text, Scalar.text]
  rw [htext, tokens?_string hbody, h text hends, Option.map_map]
  rfl

/-- Nothing that begins with a sign continues a word. -/
theorem endsWord_of_isSign (hsign : token.isSign = true) (text : List Char) :
    EndsWord ((token :: tokens).flatMap Token.text ++ text) := by
  obtain ⟨c, htext, hc⟩ := Token.exists_char_of_isSign hsign
  rw [List.flatMap_cons, htext]
  exact endsWord_cons (not_special_of_ofChar? hc).2.2 _

theorem lexes_word {s : Scalar} (hne : s.text ≠ []) (hword : ∀ c ∈ s.text, isWordChar c = true)
    (hs : Scalar.ofWord? s.text = some s) : Lexes [.scalar s] := by
  intro text hends
  show tokens? (s.text ++ [] ++ text) = _
  rw [List.append_nil, tokens?_word hne hword hs hends]
  rfl

/-- A number is no name. -/
theorem Scalar.ofWord?_number {text : List Char} (h : isNumber text = true) :
    ofWord? text = some (.number text) := by
  have hne : ∀ name, isNumber name = false → text ≠ name := by
    rintro name hname rfl
    rw [h] at hname
    exact nomatch hname
  unfold ofWord?
  rw [if_neg (hne _ (by decide)), if_neg (hne _ (by decide)), if_neg (hne _ (by decide)), if_pos h]

/-- A written scalar is one token. -/
theorem Scalar.Written.lexes {s : Scalar} (h : s.Written) : Lexes [.scalar s] := by
  cases s with
  | null => exact lexes_word (by decide) (List.all_eq_true.mp (by decide)) rfl
  | bool b => cases b <;> exact lexes_word (by decide) (List.all_eq_true.mp (by decide)) rfl
  | number text =>
    refine lexes_word (?_ : text ≠ []) h.2 (Scalar.ofWord?_number h.1)
    rintro rfl
    exact nomatch h.1
  | string body => exact lexes_nil.cons_string h

/-- Elements of an array or object after the first, each with its comma, and the closing sign. -/
theorem lexes_elements {elements : List (List Token)} (h : ∀ element ∈ elements, Lexes element)
    (hclose : token.isSign = true) :
    Lexes (elements.flatMap (.comma :: ·) ++ [token]) ∧
      ∀ text, EndsWord ((elements.flatMap (.comma :: ·) ++ [token]).flatMap Token.text ++ text) := by
  induction elements with
  | nil => exact ⟨lexes_nil.cons_sign hclose, endsWord_of_isSign hclose⟩
  | cons element more ih =>
    obtain ⟨hfirst, hmore⟩ := List.forall_mem_cons.mp h
    obtain ⟨hlexes, hends⟩ := ih hmore
    rw [List.flatMap_cons, List.cons_append, List.cons_append, List.append_assoc]
    exact ⟨(hfirst.append hlexes fun text _ => hends text).cons_sign rfl, endsWord_of_isSign rfl⟩

/-- Elements with commas between them. -/
def separated : List (List Token) → List Token
  | [] => []
  | first :: rest => first ++ rest.flatMap (.comma :: ·)

/-- An array or object: its elements between an opening and a closing sign. -/
theorem lexes_container {elements : List (List Token)} {opening closing : Token}
    (h : ∀ element ∈ elements, Lexes element) (hopen : opening.isSign = true)
    (hclose : closing.isSign = true) : Lexes (opening :: (separated elements ++ [closing])) := by
  apply Lexes.cons_sign hopen
  rcases elements with _ | ⟨first, rest⟩
  · exact lexes_nil.cons_sign hclose
  · obtain ⟨hfirst, hrest⟩ := List.forall_mem_cons.mp h
    obtain ⟨hlexes, hends⟩ := lexes_elements hrest hclose
    rw [separated, List.append_assoc]
    exact hfirst.append hlexes fun text _ => hends text

end Lexes

namespace Value

/-- The values that the writer puts out. -/
inductive Written : Value → Prop
  | scalar {s} (written : s.Written) : Written (.scalar s)
  | array {items} (written : ∀ item ∈ items, Written item) : Written (.array items)
  | object {members} (plain : ∀ member ∈ members, Escape.Plain member.1)
    (written : ∀ member ∈ members, Written member.2) : Written (.object members)

/-- The tokens of a member of an object. -/
def entryTokens (member : List Char × Value) : List Token :=
  .scalar (.string member.1) :: .colon :: tokens member.2

theorem moreItemTokens_eq (items : List Value) :
    moreItemTokens items = (items.map tokens).flatMap (.comma :: ·) := by
  induction items with
  | nil => rfl
  | cons item rest ih => rw [moreItemTokens, ih, List.map_cons, List.flatMap_cons, List.cons_append]

theorem moreMemberTokens_eq (members : List (List Char × Value)) :
    moreMemberTokens members = (members.map entryTokens).flatMap (.comma :: ·) := by
  induction members with
  | nil => rfl
  | cons member rest ih =>
    rw [moreMemberTokens, ih, List.map_cons, List.flatMap_cons, entryTokens]
    simp

theorem itemTokens_cons (item : Value) (rest : List Value) :
    itemTokens (item :: rest) = item.tokens ++ moreItemTokens rest := rfl

theorem memberTokens_cons (member : List Char × Value) (rest : List (List Char × Value)) :
    memberTokens (member :: rest) = entryTokens member ++ moreMemberTokens rest := by
  rw [memberTokens, entryTokens, List.cons_append, List.cons_append]

theorem itemTokens_eq (items : List Value) : itemTokens items = separated (items.map tokens) := by
  cases items with
  | nil => rfl
  | cons item rest =>
    rw [itemTokens_cons, moreItemTokens_eq]
    rfl

theorem memberTokens_eq (members : List (List Char × Value)) :
    memberTokens members = separated (members.map entryTokens) := by
  cases members with
  | nil => rfl
  | cons member rest =>
    rw [memberTokens_cons, moreMemberTokens_eq]
    rfl

/-- The text of a written value is read as its tokens. -/
theorem Written.lexes {v : Value} (h : v.Written) : Lexes v.tokens := by
  induction h with
  | scalar hs => exact hs.lexes
  | @array items _ ih =>
    show Lexes (.openArray :: (itemTokens items ++ [.closeArray]))
    rw [itemTokens_eq]
    exact lexes_container (List.forall_mem_map.mpr ih) rfl rfl
  | @object members plain _ ih =>
    show Lexes (.openObject :: (memberTokens members ++ [.closeObject]))
    rw [memberTokens_eq]
    refine lexes_container (List.forall_mem_map.mpr fun member hmember => ?_) rfl rfl
    exact ((ih member hmember).cons_sign rfl).cons_string (plain member hmember)

end Value

/-! ## From tokens to values -/

namespace Machine

/-- Whether a machine comes to another by taking tokens. -/
def Reads (m : Machine) (tokens : List Token) (m' : Machine) : Prop :=
  tokens.foldlM step m = some m'

variable {m m' m'' : Machine} {tokens tokens' : List Token}

theorem Reads.cons {token : Token} (h : step m token = some m') (hrest : Reads m' tokens m'') :
    Reads m (token :: tokens) m'' := by
  unfold Reads
  rw [List.foldlM_cons, h]
  exact hrest

theorem Reads.append (h : Reads m tokens m') (hrest : Reads m' tokens' m'') :
    Reads m (tokens ++ tokens') m'' := by
  unfold Reads
  rw [List.foldlM_append, h]
  exact hrest

/-- Where an array may end a value may begin. -/
theorem Reads.firstItem {token : Token} {frames : List Frame} (hne : token ≠ .closeArray)
    (h : Reads (.value, .array [] :: frames) (token :: tokens) m) :
    Reads (.firstItem, frames) (token :: tokens) m := by
  have hstep : step (.firstItem, frames) token = step (.value, .array [] :: frames) token := by
    cases token with
    | closeArray => exact absurd rfl hne
    | _ => rfl
  unfold Reads at h ⊢
  rw [List.foldlM_cons] at h ⊢
  rwa [hstep]

end Machine

namespace Value

open Machine

/-- Whether the tokens of a value are read as that value, whatever is open. -/
def Reads (v : Value) : Prop :=
  ∀ frames, Machine.Reads (.value, frames) v.tokens (.following v, frames)

theorem exists_tokens_eq_cons (v : Value) :
    ∃ token rest, v.tokens = token :: rest ∧ token ≠ .closeArray := by
  cases v with
  | scalar s => exact ⟨.scalar s, [], rfl, Token.noConfusion⟩
  | array items => exact ⟨.openArray, _, rfl, Token.noConfusion⟩
  | object members => exact ⟨.openObject, _, rfl, Token.noConfusion⟩

variable {frames : List Frame}

/-- Further items are read, after those that have been read already, up to the end of the array. -/
theorem reads_moreItems {items : List Value} (h : ∀ item ∈ items, item.Reads) (item : Value)
    (before : List Value) :
    Machine.Reads (.following item, .array before :: frames) (moreItemTokens items ++ [.closeArray])
      (.following (.array (before.reverse ++ item :: items)), frames) := by
  induction items generalizing item before with
  | nil =>
    rw [← List.reverse_cons]
    exact Reads.cons rfl rfl
  | cons next rest ih =>
    obtain ⟨hnext, hrest⟩ := List.forall_mem_cons.mp h
    have hmore := ih hrest next (item :: before)
    rw [List.reverse_cons, List.append_assoc, List.singleton_append] at hmore
    rw [moreItemTokens, List.cons_append, List.append_assoc]
    exact Reads.cons rfl ((hnext _).append hmore)

/-- Further members are read, after those that have been read already, up to the end of the
object. -/
theorem reads_moreMembers {members : List (List Char × Value)}
    (h : ∀ member ∈ members, member.2.Reads) (name : List Char) (value : Value)
    (before : List (List Char × Value)) :
    Machine.Reads (.following value, .object before name :: frames)
      (moreMemberTokens members ++ [.closeObject])
      (.following (.object (before.reverse ++ (name, value) :: members)), frames) := by
  induction members generalizing name value before with
  | nil =>
    rw [← List.reverse_cons]
    exact Reads.cons rfl rfl
  | cons next rest ih =>
    obtain ⟨hnext, hrest⟩ := List.forall_mem_cons.mp h
    have hmore := ih hrest next.1 next.2 ((name, value) :: before)
    rw [List.reverse_cons, List.append_assoc, List.singleton_append] at hmore
    rw [moreMemberTokens, List.cons_append, List.cons_append, List.cons_append, List.append_assoc]
    exact Reads.cons rfl (Reads.cons rfl (Reads.cons rfl ((hnext _).append hmore)))

/-- From the tokens of a value the value is built again. -/
theorem Written.reads {v : Value} (h : v.Written) : v.Reads := by
  induction h with
  | scalar => exact fun _ => rfl
  | @array items _ ih =>
    intro frames
    have hopen : step (.value, frames) .openArray = some (.firstItem, frames) := rfl
    refine Reads.cons hopen ?_
    rcases items with _ | ⟨item, rest⟩
    · rfl
    · obtain ⟨hfirst, hrest⟩ := List.forall_mem_cons.mp ih
      obtain ⟨token, tail, htokens, hne⟩ := exists_tokens_eq_cons item
      -- the array could end here as well, but no value begins with its closing bracket
      have hitem : Machine.Reads (.firstItem, frames) item.tokens
          (.following item, .array [] :: frames) := by
        have hvalue := hfirst (.array [] :: frames)
        rw [htokens] at hvalue ⊢
        exact hvalue.firstItem hne
      rw [itemTokens_cons, List.append_assoc]
      exact hitem.append (reads_moreItems hrest item [])
  | @object members _ _ ih =>
    intro frames
    have hopen : step (.value, frames) .openObject = some (.firstName, frames) := rfl
    refine Reads.cons hopen ?_
    rcases members with _ | ⟨⟨name, value⟩, rest⟩
    · rfl
    · obtain ⟨hfirst, hrest⟩ := List.forall_mem_cons.mp ih
      rw [memberTokens_cons, List.append_assoc]
      exact Reads.cons rfl (Reads.cons rfl ((hfirst _).append (reads_moreMembers hrest name value [])))

/-- The text of a written value is read as that value. -/
theorem parse?_text {v : Value} (h : v.Written) : parse? v.text = some v := by
  have htokens : tokens? v.text = some v.tokens := by
    have hlexes := h.lexes [] (fun _ hc => nomatch hc)
    rw [List.append_nil] at hlexes
    unfold text
    rw [hlexes, tokens?, Option.map_some, List.append_nil]
  have hreads : v.tokens.foldlM step (.value, []) = some (.following v, []) := h.reads []
  unfold parse? ofTokens?
  rw [htokens, Option.bind_some, hreads]

end Value

end LinearRefutation.Json
