import JsonStencil.Proofs.Numerals

/-!
# Compact texts are read in one way

Two compact texts that begin a common text end at the same place. A literal
ends at the first quote that is not escaped; a number ends where no character
of numbers follows; an array or an object ends at the mark that closes it,
which stands for nothing else because everything between is told apart in
turn. So the text of an array tells the texts of its items, and the text of
an object tells its keys and the texts under them.

Two numbers with the same text are not told apart. What is read off a text is
therefore stated of the texts of the parts.

Main definitions:

* `Json.unquote?` — the first character inside a literal.
* `Json.Opening` — what the first character of a text tells.
* `Json.EndsAmong` — a text that ends at one place, compared with some others.

Main results:

* `escaped_append_inj` — literals.
* `text_endsAmong` — the texts of all values.
* `array_text_inj` / `object_text_inj` — what the text of an array or of an
  object tells.
-/

namespace JsonStencil.Json

open Grammar

/-! ## Literals -/

/-- The value of a lower-case hexadecimal digit. -/
def hexValue (c : Char) : Nat := if c.isDigit then c.toNat - 48 else c.toNat - 87

/-- The first character inside a literal and what stands behind it; none at
the closing quote. -/
def unquote? : List Char → Option (Char × List Char)
  | '\\' :: 'u' :: '0' :: '0' :: high :: low :: rest =>
    some (Char.ofNat (16 * hexValue high + hexValue low), rest)
  | '\\' :: letter :: rest =>
    match letter with
    | 'b' => some ('\x08', rest)
    | 't' => some ('\t', rest)
    | 'n' => some ('\n', rest)
    | 'f' => some ('\x0c', rest)
    | 'r' => some ('\r', rest)
    | other => some (other, rest)
  | '"' :: _ => none
  | c :: rest => some (c, rest)
  | [] => none

/-- A character can be read back off its escape. -/
theorem unquote?_escapeChar (c : Char) (rest : List Char) :
    unquote? (escapeChar c ++ rest) = some (c, rest) := by
  -- one case for each of the short escapes, one for the other control characters, and one
  -- for the characters that stand for themselves
  unfold escapeChar
  split
  · next h => rw [h]; rfl
  split
  · next h => rw [h]; rfl
  split
  · next h => rw [h]; rfl
  split
  · next h => rw [h]; rfl
  split
  · next h => rw [h]; rfl
  split
  · next h => rw [h]; rfl
  split
  · next h => rw [h]; rfl
  split
  · next hLow =>
    -- a control character is told by its two digits
    have hSmall : c.toNat < 0x20 := hLow
    have hDigits : ∀ n < 32,
        16 * hexValue (hexDigit (n / 16)) + hexValue (hexDigit (n % 16)) = n := by
      decide
    simp only [List.cons_append, List.nil_append, unquote?]
    rw [hDigits c.toNat hSmall, Char.ofNat_toNat]
  · next hQuote hBack _ _ _ _ _ _ =>
    -- the character is none of those that `unquote?` looks for
    rw [List.singleton_append]
    unfold unquote?
    split <;> simp_all

/-- Literals end at the same place and are those of one string. -/
theorem flatMap_escapeChar_inj {cs ds x y : List Char}
    (h : cs.flatMap escapeChar ++ '"' :: x = ds.flatMap escapeChar ++ '"' :: y) :
    cs = ds ∧ x = y := by
  have hEnd (rest : List Char) : unquote? ('"' :: rest) = none := rfl
  have hStep (c : Char) (rest more : List Char) :
      unquote? ((c :: rest).flatMap escapeChar ++ more) =
        some (c, rest.flatMap escapeChar ++ more) := by
    rw [List.flatMap_cons, List.append_assoc, unquote?_escapeChar]
  -- by the characters of one string, reading the first one off both literals
  induction cs generalizing ds with
  | nil =>
    cases ds with
    | nil => exact ⟨rfl, List.tail_eq_of_cons_eq h⟩
    | cons d ds =>
      -- one literal has ended, and the other goes on with a character
      have hFirst := congrArg unquote? h
      rw [hStep, List.flatMap_nil, List.nil_append, hEnd] at hFirst
      cases hFirst
  | cons c cs ih =>
    have hFirst := congrArg unquote? h
    rw [hStep] at hFirst
    cases ds with
    | nil =>
      rw [List.flatMap_nil, List.nil_append, hEnd] at hFirst
      cases hFirst
    | cons d ds =>
      rw [hStep, Option.some.injEq, Prod.mk.injEq] at hFirst
      obtain ⟨rfl, hRest⟩ := hFirst
      obtain ⟨rfl, hBehind⟩ := ih hRest
      exact ⟨rfl, hBehind⟩

/-- Literals in front of any text end at the same place and are those of one
string. -/
theorem escaped_append_inj {s t : String} {x y : List Char}
    (h : (escaped s).toList ++ x = (escaped t).toList ++ y) : s = t ∧ x = y := by
  rw [escaped, escaped, enclosed, enclosed, String.toList_ofList, String.toList_ofList,
    List.cons_append, List.cons_append, List.append_assoc, List.append_assoc] at h
  obtain ⟨hChars, hBehind⟩ := flatMap_escapeChar_inj (List.tail_eq_of_cons_eq h)
  exact ⟨String.toList_inj.mp hChars, hBehind⟩

/-! ## Numbers -/

/-- What may stand behind a value: nothing, a comma, or a mark that closes an
array or an object. -/
def Closes (rest : List Char) : Prop := ∀ c, rest.head? = some c → c ∈ [',', ']', '\x7d']

/-- A text may stand behind a value if its first character may. -/
theorem closes_cons {c : Char} {rest : List Char} :
    Closes (c :: rest) ↔ c ∈ [',', ']', '\x7d'] :=
  ⟨fun h => h c rfl, fun h _ hHead => Option.some.inj hHead ▸ h⟩

/-- No number goes on with a mark. -/
theorem not_isNumeral_of_closes {c : Char} {rest : List Char} (h : Closes (c :: rest)) :
    ¬ IsNumeral c := by
  simp only [closes_cons, List.mem_cons, List.not_mem_nil, or_false] at h
  rcases h with rfl | rfl | rfl <;> (unfold IsNumeral; decide)

/-- Characters of numbers end where others follow. -/
theorem numerals_append_inj {a b x y : List Char} (ha : ∀ c ∈ a, IsNumeral c)
    (hb : ∀ c ∈ b, IsNumeral c) (hx : Closes x) (hy : Closes y) (h : a ++ x = b ++ y) :
    a = b ∧ x = y := by
  induction a generalizing b with
  | nil =>
    cases b with
    | nil => exact ⟨rfl, h⟩
    | cons c b =>
      rw [List.nil_append, List.cons_append] at h
      -- one number has ended where the other goes on, but no mark is a part of it
      exact absurd (hb c (List.mem_cons_self ..)) (not_isNumeral_of_closes (h ▸ hx))
  | cons c a ih =>
    cases b with
    | nil =>
      rw [List.nil_append, List.cons_append] at h
      exact absurd (ha c (List.mem_cons_self ..)) (not_isNumeral_of_closes (h ▸ hy))
    | cons d b =>
      rw [List.cons_append, List.cons_append, List.cons.injEq] at h
      obtain ⟨rfl, hRest⟩ := h
      obtain ⟨rfl, hBehind⟩ := ih (fun e he => ha e (List.mem_cons_of_mem _ he))
        (fun e he => hb e (List.mem_cons_of_mem _ he)) hRest
      exact ⟨rfl, hBehind⟩

/-- The text of a number is one of the grammar, whichever kind it is of. -/
theorem Number.text_isNumber (n : Number) : IsNumber n.text.toList := by
  cases n with
  | integer value => exact integerText_isNumber value
  | float value => exact value.text_isNumber

/-! ## What the first character tells -/

/-- The kinds of values, as the first characters of their texts tell them
apart, and the marks that no value begins with. -/
inductive Opening where
  | null
  | bool
  | number
  | string
  | array
  | object
  | mark
deriving DecidableEq, Repr

/-- What the first character of a text tells. -/
def Opening.ofChar (c : Char) : Opening :=
  if c = 'n' then .null
  else if c = 't' ∨ c = 'f' then .bool
  else if c = '"' then .string
  else if c = '[' then .array
  else if c = '\x7b' then .object
  else if c ∈ [',', ']', '\x7d'] then .mark
  else .number

/-- The kind of a value. -/
def opening : Json → Opening
  | .null => .null
  | .bool _ => .bool
  | .number _ => .number
  | .string _ => .string
  | .array _ => .array
  | .object _ => .object

/-- Every character of a number tells a number. -/
theorem Opening.ofChar_of_isNumeral {c : Char} (h : IsNumeral c) : ofChar c = .number := by
  have hOther : ∀ d ∈ ['n', 't', 'f', '"', '[', '\x7b'], c ≠ d := by
    rintro d hd rfl
    simp only [List.mem_cons, List.not_mem_nil, or_false] at hd
    unfold IsNumeral at h
    rcases hd with rfl | rfl | rfl | rfl | rfl | rfl <;> revert h <;> decide
  have hMark : c ∉ [',', ']', '\x7d'] := fun hMark =>
    not_isNumeral_of_closes (closes_cons.mpr hMark : Closes [c]) h
  simp only [List.forall_mem_cons] at hOther
  obtain ⟨hn, ht, hf, hQuote, hBracket, hBrace, -⟩ := hOther
  -- all tests fail, and numbers are what is left
  rw [ofChar, if_neg hn, if_neg (not_or.mpr ⟨ht, hf⟩), if_neg hQuote, if_neg hBracket,
    if_neg hBrace, if_neg hMark]

/-- What may stand behind a value begins with a mark. -/
theorem Opening.ofChar_of_closes {c : Char} {rest : List Char} (h : Closes (c :: rest)) :
    ofChar c = .mark := by
  simp only [closes_cons, List.mem_cons, List.not_mem_nil, or_false] at h
  rcases h with rfl | rfl | rfl <;> rfl

/-- A text begins with a character that tells the kind of its value. -/
theorem exists_text_cons (j : Json) :
    ∃ c rest, j.text.toList = c :: rest ∧ Opening.ofChar c = j.opening := by
  cases j with
  | null => exact ⟨'n', _, rfl, rfl⟩
  | bool value =>
    cases value with
    | true => exact ⟨'t', _, rfl, rfl⟩
    | false => exact ⟨'f', _, rfl, rfl⟩
  | number n =>
    -- a sign or a digit
    obtain ⟨hSome, hAll⟩ := n.text_isNumber.isNumeral
    obtain ⟨c, rest, hText⟩ := List.exists_cons_of_ne_nil hSome
    refine ⟨c, rest, hText, Opening.ofChar_of_isNumeral (hAll c ?_)⟩
    rw [hText]
    exact List.mem_cons_self ..
  | string s => exact ⟨'"', _, by rw [text, escaped, enclosed, String.toList_ofList]; rfl, rfl⟩
  | array items => exact ⟨'[', _, by rw [text, toList_bracketed], rfl⟩
  | object members => exact ⟨'\x7b', _, by rw [text, toList_braced], rfl⟩

/-- No value begins with a mark. -/
theorem not_closes_text (j : Json) (rest : List Char) : ¬ Closes (j.text.toList ++ rest) := by
  obtain ⟨c, more, hText, hOpening⟩ := j.exists_text_cons
  rw [hText, List.cons_append]
  intro h
  rw [Opening.ofChar_of_closes h] at hOpening
  cases j <;> cases hOpening

/-- Texts that begin a common text are those of values of one kind. -/
theorem opening_eq_of_append {a b : Json} {x y : List Char}
    (h : a.text.toList ++ x = b.text.toList ++ y) : a.opening = b.opening := by
  obtain ⟨c, restA, hTextA, hA⟩ := a.exists_text_cons
  obtain ⟨d, restB, hTextB, hB⟩ := b.exists_text_cons
  rw [hTextA, hTextB, List.cons_append, List.cons_append, List.cons.injEq] at h
  rw [← hA, ← hB, h.1]

/-! ## Texts that end at one place -/

/-- Wherever this text and another one of the kind begin a common text, with
what may stand behind a value behind them, they are the same text. -/
def EndsAmong (Kind : List Char → Prop) (p : List Char) : Prop :=
  ∀ q, Kind q → ∀ x y, Closes x → Closes y → p ++ x = q ++ y → p = q ∧ x = y

/-- A kind of texts none of which begins with a mark. -/
def Unmarked (Kind : List Char → Prop) : Prop := ∀ p, Kind p → ∀ rest, ¬ Closes (p ++ rest)

section Separated

variable {Kind : List Char → Prop} {close : Char} {x y : List Char}

/-- The tail of a list of texts, a comma in front of each of them. -/
def commaTail (ps : List (List Char)) : List Char := ps.flatMap (',' :: ·)

/-- The first text stands alone, and each other one behind its comma. -/
theorem separated_cons (p : List Char) (ps : List (List Char)) :
    separated (p :: ps) = p ++ commaTail ps := by
  induction ps generalizing p with
  | nil => rw [separated_singleton, commaTail, List.flatMap_nil, List.append_nil]
  | cons q rest ih => rw [separated_cons_cons, ih]; rfl

/-- Behind an item there is a comma or the closing mark. -/
theorem closes_commaTail (hClose : close ∈ [']', '\x7d']) (ps : List (List Char)) :
    Closes (commaTail ps ++ close :: x) := by
  cases ps with
  | nil => exact closes_cons.mpr (List.mem_cons_of_mem _ hClose)
  | cons p rest => exact closes_cons.mpr (List.mem_cons_self ..)

/-- Behind the first text, the others are told apart up to the closing
mark. -/
theorem commaTail_inj (hClose : close ∈ [']', '\x7d']) {ps qs : List (List Char)}
    (hps : ∀ p ∈ ps, EndsAmong Kind p) (hqs : ∀ q ∈ qs, Kind q)
    (h : commaTail ps ++ close :: x = commaTail qs ++ close :: y) : ps = qs ∧ x = y := by
  have hComma : close ≠ ',' := by
    rintro rfl
    revert hClose
    decide
  -- by the texts on one side; behind each one there is a comma or the mark
  induction ps generalizing qs with
  | nil =>
    cases qs with
    | nil => exact ⟨rfl, List.tail_eq_of_cons_eq h⟩
    | cons q rest => exact absurd (List.head_eq_of_cons_eq h) hComma
  | cons p rest ih =>
    cases qs with
    | nil => exact absurd (List.head_eq_of_cons_eq h).symm hComma
    | cons q others =>
      simp only [commaTail, List.flatMap_cons, List.cons_append, List.append_assoc,
        List.cons.injEq, true_and] at h
      -- the two first texts are followed by something that closes, so they are the same
      obtain ⟨rfl, hRest⟩ := hps p (List.mem_cons_self ..) q (hqs q (List.mem_cons_self ..)) _ _
        (closes_commaTail hClose rest) (closes_commaTail hClose others) h
      obtain ⟨rfl, hBehind⟩ := ih (fun r hr => hps r (List.mem_cons_of_mem _ hr))
        (fun r hr => hqs r (List.mem_cons_of_mem _ hr)) hRest
      exact ⟨rfl, hBehind⟩

/-- Texts with commas between are told apart up to the closing mark. -/
theorem separated_inj (hKind : Unmarked Kind) (hClose : close ∈ [']', '\x7d'])
    {ps qs : List (List Char)} (hps : ∀ p ∈ ps, Kind p ∧ EndsAmong Kind p)
    (hqs : ∀ q ∈ qs, Kind q) (h : separated ps ++ close :: x = separated qs ++ close :: y) :
    ps = qs ∧ x = y := by
  have hMark (rest : List Char) : Closes (close :: rest) :=
    closes_cons.mpr (List.mem_cons_of_mem _ hClose)
  cases ps with
  | nil =>
    cases qs with
    | nil => exact ⟨rfl, List.tail_eq_of_cons_eq h⟩
    | cons q others =>
      -- a text on one side would have to begin with the closing mark
      rw [separated_nil, List.nil_append, separated_cons, List.append_assoc] at h
      exact absurd (h ▸ hMark x) (hKind q (hqs q (List.mem_cons_self ..)) _)
  | cons p rest =>
    cases qs with
    | nil =>
      rw [separated_nil, List.nil_append, separated_cons, List.append_assoc] at h
      exact absurd (h ▸ hMark y) (hKind p (hps p (List.mem_cons_self ..)).1 _)
    | cons q others =>
      rw [separated_cons, separated_cons, List.append_assoc, List.append_assoc] at h
      obtain ⟨rfl, hRest⟩ := (hps p (List.mem_cons_self ..)).2 q (hqs q (List.mem_cons_self ..))
        _ _ (closes_commaTail hClose rest) (closes_commaTail hClose others) h
      obtain ⟨rfl, hBehind⟩ := commaTail_inj hClose
        (fun r hr => (hps r (List.mem_cons_of_mem _ hr)).2)
        (fun r hr => hqs r (List.mem_cons_of_mem _ hr)) hRest
      exact ⟨rfl, hBehind⟩

end Separated

/-! ## Values -/

/-- The texts of values. -/
def IsTextOf (p : List Char) : Prop := ∃ j : Json, p = j.text.toList

/-- The texts of members. -/
def IsMemberText (p : List Char) : Prop :=
  ∃ (key : String) (j : Json), p = (escaped key).toList ++ ':' :: j.text.toList

/-- No value begins with a mark. -/
theorem unmarked_isTextOf : Unmarked IsTextOf := by
  rintro p ⟨j, rfl⟩ rest
  exact j.not_closes_text rest

/-- No member begins with a mark, but with the quote of its key. -/
theorem unmarked_isMemberText : Unmarked IsMemberText := by
  intro p hText rest hCloses
  obtain ⟨key, j, hText⟩ := hText
  rw [hText, List.append_assoc] at hCloses
  exact not_closes_text (.string key) _ hCloses

theorem toList_memberText (key : String) (j : Json) :
    (escaped key ++ ":" ++ j.text).toList = (escaped key).toList ++ ':' :: j.text.toList := by
  rw [String.toList_append, String.toList_append, List.append_assoc]
  rfl

/-- A member ends where its value does. -/
theorem memberText_endsAmong (key : String) {j : Json} (h : EndsAmong IsTextOf j.text.toList) :
    EndsAmong IsMemberText ((escaped key).toList ++ ':' :: j.text.toList) := by
  intro q hOther x y hx hy hAppend
  obtain ⟨other, k, hOther⟩ := hOther
  rw [hOther, List.append_assoc, List.append_assoc] at hAppend
  -- first the key, then the value behind the colon
  obtain ⟨hKey, hValue⟩ := escaped_append_inj hAppend
  rw [List.cons_append, List.cons_append, List.cons.injEq] at hValue
  obtain ⟨hText, hBehind⟩ := h _ ⟨k, rfl⟩ x y hx hy hValue.2
  exact ⟨by rw [hOther, hKey, hText], hBehind⟩

/-- Items are written as the values that they are. -/
theorem isTextOf_of_mem_itemTexts {items : List Json} :
    ∀ p ∈ (itemTexts items).map String.toList, IsTextOf p := by
  induction items with
  | nil =>
    rw [itemTexts]
    exact fun _ h => absurd h List.not_mem_nil
  | cons item rest ih =>
    rw [itemTexts, List.map_cons]
    exact List.forall_mem_cons.mpr ⟨⟨item, rfl⟩, ih⟩

/-- Members are written with their keys. -/
theorem isMemberText_of_mem_memberTexts {members : List (String × Json)} :
    ∀ p ∈ (memberTexts members).map String.toList, IsMemberText p := by
  induction members with
  | nil =>
    rw [memberTexts]
    exact fun _ h => absurd h List.not_mem_nil
  | cons entry rest ih =>
    obtain ⟨key, value⟩ := entry
    rw [memberTexts, List.map_cons]
    exact List.forall_mem_cons.mpr ⟨⟨key, value, toList_memberText key value⟩, ih⟩

/-- What the text of an array tells, if its items end at one place. -/
theorem array_append_inj {items others : List Json}
    (hItems : ∀ p ∈ (itemTexts items).map String.toList, EndsAmong IsTextOf p) {x y : List Char}
    (h : (Json.array items).text.toList ++ x = (Json.array others).text.toList ++ y) :
    itemTexts items = itemTexts others ∧ x = y := by
  rw [text, text, toList_bracketed, toList_bracketed, List.cons_append, List.cons_append,
    List.append_assoc, List.append_assoc] at h
  obtain ⟨hTexts, hBehind⟩ := separated_inj unmarked_isTextOf (by decide)
    (fun p hp => ⟨isTextOf_of_mem_itemTexts p hp, hItems p hp⟩) isTextOf_of_mem_itemTexts
    (List.tail_eq_of_cons_eq h)
  exact ⟨(List.map_inj_right fun _ _ => String.toList_inj.mp).mp hTexts, hBehind⟩

/-- What the text of an object tells, if its members end at one place. -/
theorem object_append_inj {members others : List (String × Json)}
    (hMembers : ∀ p ∈ (memberTexts members).map String.toList, EndsAmong IsMemberText p)
    {x y : List Char}
    (h : (Json.object members).text.toList ++ x = (Json.object others).text.toList ++ y) :
    memberTexts members = memberTexts others ∧ x = y := by
  rw [text, text, toList_braced, toList_braced, List.cons_append, List.cons_append,
    List.append_assoc, List.append_assoc] at h
  obtain ⟨hTexts, hBehind⟩ := separated_inj unmarked_isMemberText (by decide)
    (fun p hp => ⟨isMemberText_of_mem_memberTexts p hp, hMembers p hp⟩)
    isMemberText_of_mem_memberTexts (List.tail_eq_of_cons_eq h)
  exact ⟨(List.map_inj_right fun _ _ => String.toList_inj.mp).mp hTexts, hBehind⟩

/-- A text ends at one place if it does so among the texts of values of its
kind. -/
theorem endsAmong_of_opening {j : Json}
    (h : ∀ k : Json, j.opening = k.opening → ∀ x y, Closes x → Closes y →
      j.text.toList ++ x = k.text.toList ++ y → j.text = k.text ∧ x = y) :
    EndsAmong IsTextOf j.text.toList := by
  intro q hOther x y hx hy hAppend
  obtain ⟨k, hOther⟩ := hOther
  rw [hOther] at hAppend
  obtain ⟨hText, hBehind⟩ := h k (opening_eq_of_append hAppend) x y hx hy hAppend
  exact ⟨by rw [hOther, hText], hBehind⟩

mutual

/-- The text of a value ends at one place. -/
theorem text_endsAmong : ∀ j : Json, EndsAmong IsTextOf j.text.toList
  | .null => endsAmong_of_opening fun k hKind x y _ _ h => by
    cases k with
    | null => exact ⟨rfl, List.append_cancel_left h⟩
    | _ => cases hKind
  | .bool value => endsAmong_of_opening fun k hKind x y _ _ h => by
    cases k with
    | bool other =>
      -- the two words begin with different letters
      cases value <;> cases other
      · exact ⟨rfl, List.append_cancel_left h⟩
      · exact absurd (List.head_eq_of_cons_eq h : 'f' = 't') (by decide)
      · exact absurd (List.head_eq_of_cons_eq h : 't' = 'f') (by decide)
      · exact ⟨rfl, List.append_cancel_left h⟩
    | _ => cases hKind
  | .number n => endsAmong_of_opening fun k hKind x y hx hy h => by
    cases k with
    | number m =>
      rw [text, text] at h ⊢
      -- a number is followed by a mark, or by nothing
      obtain ⟨hText, hBehind⟩ := numerals_append_inj n.text_isNumber.isNumeral.2
        m.text_isNumber.isNumeral.2 hx hy h
      exact ⟨String.toList_inj.mp hText, hBehind⟩
    | _ => cases hKind
  | .string s => endsAmong_of_opening fun k hKind x y _ _ h => by
    cases k with
    | string t =>
      rw [text, text] at h
      obtain ⟨hString, hBehind⟩ := escaped_append_inj h
      exact ⟨by rw [hString], hBehind⟩
    | _ => cases hKind
  | .array items => endsAmong_of_opening fun k hKind x y _ _ h => by
    cases k with
    | array others =>
      obtain ⟨hTexts, hBehind⟩ := array_append_inj (itemTexts_endAmong items) h
      exact ⟨by rw [text, text, hTexts], hBehind⟩
    | _ => cases hKind
  | .object members => endsAmong_of_opening fun k hKind x y _ _ h => by
    cases k with
    | object others =>
      obtain ⟨hTexts, hBehind⟩ := object_append_inj (memberTexts_endAmong members) h
      exact ⟨by rw [text, text, hTexts], hBehind⟩
    | _ => cases hKind

/-- The text of an item ends at one place. -/
theorem itemTexts_endAmong : ∀ items : List Json,
    ∀ p ∈ (itemTexts items).map String.toList, EndsAmong IsTextOf p
  | [] => by
    rw [itemTexts]
    exact fun _ h => absurd h List.not_mem_nil
  | item :: rest => by
    rw [itemTexts, List.map_cons]
    exact List.forall_mem_cons.mpr ⟨text_endsAmong item, itemTexts_endAmong rest⟩

/-- The text of a member ends at one place. -/
theorem memberTexts_endAmong : ∀ members : List (String × Json),
    ∀ p ∈ (memberTexts members).map String.toList, EndsAmong IsMemberText p
  | [] => by
    rw [memberTexts]
    exact fun _ h => absurd h List.not_mem_nil
  | (key, value) :: rest => by
    rw [memberTexts, List.map_cons, toList_memberText]
    exact List.forall_mem_cons.mpr
      ⟨memberText_endsAmong key (text_endsAmong value), memberTexts_endAmong rest⟩

end

/-! ## What a text tells -/

/-- The text of a string tells the string. -/
theorem string_text_inj {s t : String} (h : (Json.string s).text = (Json.string t).text) :
    s = t := by
  rw [text, text] at h
  have hAppend : (escaped s).toList ++ [] = (escaped t).toList ++ [] := by rw [h]
  exact (escaped_append_inj hAppend).1

/-- The text of an array tells the texts of its items. -/
theorem array_text_inj {items others : List Json}
    (h : (Json.array items).text = (Json.array others).text) :
    itemTexts items = itemTexts others :=
  (array_append_inj (itemTexts_endAmong items) (congrArg (fun text => text.toList ++ []) h)).1

/-- The keys of members with the texts under them. -/
def textsByKey (members : List (String × Json)) : List (String × String) :=
  members.map fun entry => (entry.1, entry.2.text)

theorem keys_textsByKey (members : List (String × Json)) :
    Fields.keys (textsByKey members) = Fields.keys members := by
  rw [Fields.keys, textsByKey, List.map_map]
  rfl

theorem textsByKey_append (members others : List (String × Json)) :
    textsByKey (members ++ others) = textsByKey members ++ textsByKey others :=
  List.map_append

/-- The texts of members tell their keys and the texts under them. -/
theorem textsByKey_of_memberTexts {members others : List (String × Json)}
    (h : memberTexts members = memberTexts others) : textsByKey members = textsByKey others := by
  induction members generalizing others with
  | nil =>
    cases others with
    | nil => rfl
    | cons entry rest => rw [memberTexts, memberTexts] at h; cases h
  | cons entry rest ih =>
    obtain ⟨key, value⟩ := entry
    cases others with
    | nil => rw [memberTexts, memberTexts] at h; cases h
    | cons other more =>
      obtain ⟨name, item⟩ := other
      rw [memberTexts, memberTexts, List.cons.injEq] at h
      -- the key is told by its literal, and the rest is the text of the value
      have hField := congrArg String.toList h.1
      rw [toList_memberText, toList_memberText] at hField
      obtain ⟨rfl, hValue⟩ := escaped_append_inj hField
      have hText : value.text = item.text := String.toList_inj.mp (List.tail_eq_of_cons_eq hValue)
      rw [textsByKey, textsByKey, List.map_cons, List.map_cons, hText]
      exact congrArg _ (ih h.2)

/-- The text of an object tells its keys and the texts under them. -/
theorem object_text_inj {members others : List (String × Json)}
    (h : (Json.object members).text = (Json.object others).text) :
    textsByKey members = textsByKey others :=
  textsByKey_of_memberTexts
    (object_append_inj (memberTexts_endAmong members)
      (congrArg (fun text => text.toList ++ []) h)).1

end JsonStencil.Json
