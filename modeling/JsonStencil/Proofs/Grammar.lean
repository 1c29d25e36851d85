import JsonStencil.Json.Compact

/-!
# The grammar of JSON texts

The grammar of RFC 8259, production by production, over lists of characters.
What may stand around a structural character is left open: blanks in general,
nothing in a compact text. A compact value is a value, and it holds no
control character, which a value in general may have among its blanks.

The grammar has no case for a missing item. An array with nothing between two
commas is no value.

Main definitions:

* `Grammar.IsNumber` / `IsString` / `IsValue` — the productions.
* `Grammar.IsText` — a value with blanks around it.
* `Grammar.Compact` — values without blanks.

Main results:

* `IsValue.mono` — a grammar with more blanks has more values.
* `Compact.noControl` — compact values hold no control character.
* `compact_bracketed` / `compact_braced` — arrays and objects of texts.
-/

namespace JsonStencil.Grammar

/-! ## Blanks -/

/-- The characters of `ws = *( %x20 / %x09 / %x0A / %x0D )`. -/
def isBlank (c : Char) : Bool := c == ' ' || c == '\t' || c == '\n' || c == '\r'

/-- `ws`. -/
def Blanks (cs : List Char) : Prop := ∀ c ∈ cs, isBlank c = true

/-- No blank at all. -/
def NoBlanks (cs : List Char) : Prop := cs = []

/-! ## Numbers -/

/-- `1*DIGIT`. -/
def IsDigits (cs : List Char) : Prop := cs ≠ [] ∧ ∀ c ∈ cs, c.isDigit = true

/-- `int = zero / ( digit1-9 *DIGIT )`. -/
def IsWhole (cs : List Char) : Prop := cs = ['0'] ∨ (IsDigits cs ∧ cs.head? ≠ some '0')

/-- `[ frac ]` with `frac = decimal-point 1*DIGIT`. -/
def IsFraction (cs : List Char) : Prop := cs = [] ∨ ∃ digits, IsDigits digits ∧ cs = '.' :: digits

/-- `[ exp ]` with `exp = e [ minus / plus ] 1*DIGIT`. -/
def IsExponent (cs : List Char) : Prop :=
  cs = [] ∨ ∃ e sign digits, (e = 'e' ∨ e = 'E') ∧ (sign = [] ∨ sign = ['-'] ∨ sign = ['+']) ∧
    IsDigits digits ∧ cs = e :: (sign ++ digits)

/-- `int [ frac ] [ exp ]`, a number but for its sign. -/
inductive IsMagnitude : List Char → Prop where
  | intro {whole fraction exponent : List Char} (isWhole : IsWhole whole)
    (isFraction : IsFraction fraction) (isExponent : IsExponent exponent) :
    IsMagnitude (whole ++ (fraction ++ exponent))

/-- `number = [ minus ] int [ frac ] [ exp ]`. -/
inductive IsNumber : List Char → Prop where
  | intro {sign magnitude : List Char} (signed : sign = [] ∨ sign = ['-'])
    (isMagnitude : IsMagnitude magnitude) : IsNumber (sign ++ magnitude)

/-- The characters of numbers. -/
def IsNumeral (c : Char) : Prop := c.isDigit = true ∨ c ∈ ['-', '+', '.', 'e', 'E']

/-- Digits are characters of numbers. -/
theorem IsDigits.isNumeral {cs : List Char} (h : IsDigits cs) : ∀ c ∈ cs, IsNumeral c :=
  fun c hc => Or.inl (h.2 c hc)

theorem isDigits_zero : IsDigits ['0'] :=
  ⟨List.cons_ne_nil _ _, List.forall_mem_singleton.mpr rfl⟩

/-- The part before the point is made of digits. -/
theorem IsWhole.isDigits {cs : List Char} (h : IsWhole cs) : IsDigits cs := by
  rcases h with rfl | ⟨hDigits, -⟩
  · exact isDigits_zero
  · exact hDigits

/-- A number is made of its characters alone, and there is one at least. -/
theorem IsNumber.isNumeral {cs : List Char} (h : IsNumber cs) :
    cs ≠ [] ∧ ∀ c ∈ cs, IsNumeral c := by
  obtain ⟨hSign, hWhole, hFraction, hExponent⟩ := h
  have hDigits := hWhole.isDigits
  refine ⟨fun hNil => ?_, ?_⟩
  · exact hDigits.1 (List.append_eq_nil_iff.mp (List.append_eq_nil_iff.mp hNil).2).1
  simp only [List.forall_mem_append]
  -- the sign, the digits, the fraction and the exponent
  refine ⟨?_, hDigits.isNumeral, ?_, ?_⟩
  · rcases hSign with rfl | rfl
    · exact fun _ hc => absurd hc List.not_mem_nil
    · exact List.forall_mem_singleton.mpr (Or.inr (by decide))
  · rcases hFraction with rfl | ⟨digits, hPlaces, rfl⟩
    · exact fun _ hc => absurd hc List.not_mem_nil
    · exact List.forall_mem_cons.mpr ⟨Or.inr (by decide), hPlaces.isNumeral⟩
  · rcases hExponent with rfl | ⟨e, sign, digits, hLetter, hSign, hPlaces, rfl⟩
    · exact fun _ hc => absurd hc List.not_mem_nil
    · refine List.forall_mem_cons.mpr ⟨?_, List.forall_mem_append.mpr ⟨?_, hPlaces.isNumeral⟩⟩
      · rcases hLetter with rfl | rfl <;> exact Or.inr (by decide)
      · rcases hSign with rfl | rfl | rfl
        · exact fun _ hc => absurd hc List.not_mem_nil
        · exact List.forall_mem_singleton.mpr (Or.inr (by decide))
        · exact List.forall_mem_singleton.mpr (Or.inr (by decide))

/-! ## Strings -/

/-- `HEXDIG`, of either case. -/
def isHex (c : Char) : Bool :=
  c.isDigit || ('a' ≤ c && c ≤ 'f') || ('A' ≤ c && c ≤ 'F')

/-- `*char`. -/
inductive IsBody : List Char → Prop where
  | nil : IsBody []
  /-- `unescaped = %x20-21 / %x23-5B / %x5D-10FFFF`. -/
  | plain {c : Char} {rest : List Char} (low : ¬ c.val < 0x20) (quote : c ≠ '"')
    (back : c ≠ '\\') (body : IsBody rest) : IsBody (c :: rest)
  /-- `escape` with one of the letters for a character of its own. -/
  | letter {c : Char} {rest : List Char} (known : c ∈ ['"', '\\', '/', 'b', 'f', 'n', 'r', 't'])
    (body : IsBody rest) : IsBody ('\\' :: c :: rest)
  /-- `escape %x75 4HEXDIG`. -/
  | code {a b c d : Char} {rest : List Char} (hex : ∀ x ∈ [a, b, c, d], isHex x = true)
    (body : IsBody rest) : IsBody ('\\' :: 'u' :: a :: b :: c :: d :: rest)

/-- `string = quotation-mark *char quotation-mark`. -/
inductive IsString : List Char → Prop where
  | intro {body : List Char} (isBody : IsBody body) : IsString ('"' :: (body ++ ['"']))

/-! ## Values -/

/-- Characters with others around them. -/
structure Placed where
  before : List Char
  chars : List Char
  after : List Char

/-- All of them in order. -/
def Placed.whole (p : Placed) : List Char := p.before ++ (p.chars ++ p.after)

/-- A member of an object: the name, a colon and the value. -/
structure Member where
  name : Placed
  value : Placed

/-- The characters of a member. -/
def Member.whole (m : Member) : List Char := m.name.whole ++ ':' :: m.value.whole

/-- Characters in order with a comma between neighbours. -/
def separated (parts : List (List Char)) : List Char := [','].intercalate parts

/-- What stands around the characters is made of the blanks that are
allowed. -/
def Placed.Inside (Blank : List Char → Prop) (p : Placed) : Prop := Blank p.before ∧ Blank p.after

/-- `value = false / null / true / object / array / number / string`, with
given blanks around structural characters. -/
inductive IsValue (Blank : List Char → Prop) : List Char → Prop where
  | word {cs : List Char} (known : cs ∈ ["false".toList, "null".toList, "true".toList]) :
    IsValue Blank cs
  | number {cs : List Char} (isNumber : IsNumber cs) : IsValue Blank cs
  | string {cs : List Char} (isString : IsString cs) : IsValue Blank cs
  | emptyArray {blank : List Char} (allowed : Blank blank) : IsValue Blank ('[' :: (blank ++ [']']))
  | array {items : List Placed} (some : items ≠ []) (inside : ∀ item ∈ items, item.Inside Blank)
    (values : ∀ item ∈ items, IsValue Blank item.chars) :
    IsValue Blank ('[' :: (separated (items.map Placed.whole) ++ [']']))
  | emptyObject {blank : List Char} (allowed : Blank blank) :
    IsValue Blank ('\x7b' :: (blank ++ ['\x7d']))
  | object {members : List Member} (some : members ≠ [])
    (inside : ∀ m ∈ members, m.name.Inside Blank ∧ m.value.Inside Blank)
    (names : ∀ m ∈ members, IsString m.name.chars)
    (values : ∀ m ∈ members, IsValue Blank m.value.chars) :
    IsValue Blank ('\x7b' :: (separated (members.map Member.whole) ++ ['\x7d']))

/-- `JSON-text = ws value ws`. -/
inductive IsText : List Char → Prop where
  | intro {p : Placed} (inside : p.Inside Blanks) (value : IsValue Blanks p.chars) :
    IsText p.whole

/-- A value without any blank. -/
def Compact (cs : List Char) : Prop := IsValue NoBlanks cs

/-- What may stand around characters may do so where more is allowed. -/
theorem Placed.Inside.mono {Few Many : List Char → Prop} (hMore : ∀ cs, Few cs → Many cs)
    {p : Placed} (h : p.Inside Few) : p.Inside Many :=
  ⟨hMore _ h.1, hMore _ h.2⟩

/-- Where more blanks are allowed, a value is still a value. -/
theorem IsValue.mono {Few Many : List Char → Prop} (hMore : ∀ cs, Few cs → Many cs)
    {cs : List Char} (h : IsValue Few cs) : IsValue Many cs := by
  -- only the productions with a structural character mention blanks
  induction h with
  | word known => exact .word known
  | number isNumber => exact .number isNumber
  | string isString => exact .string isString
  | emptyArray allowed => exact .emptyArray (hMore _ allowed)
  | array some inside _ ih =>
    exact .array some (fun item hItem => (inside item hItem).mono hMore) ih
  | emptyObject allowed => exact .emptyObject (hMore _ allowed)
  | object some inside names _ ih =>
    refine .object some (fun m hm => ?_) names ih
    exact ⟨(inside m hm).1.mono hMore, (inside m hm).2.mono hMore⟩

/-- Nothing at all is blanks. -/
theorem blanks_of_noBlanks (cs : List Char) (h : NoBlanks cs) : Blanks cs := by
  rw [h]
  exact fun _ hc => absurd hc List.not_mem_nil

/-- A compact value is a text. -/
theorem Compact.isText {cs : List Char} (h : Compact cs) : IsText cs := by
  have hWhole : (Placed.mk [] cs []).whole = cs := List.append_nil cs
  rw [← hWhole]
  exact .intro ⟨blanks_of_noBlanks [] rfl, blanks_of_noBlanks [] rfl⟩ (h.mono blanks_of_noBlanks)

/-! ## Control characters -/

/-- No character is a control character below U+0020. -/
def NoControl (cs : List Char) : Prop := ∀ c ∈ cs, ¬ c.val < 0x20

theorem noControl_append {first second : List Char} :
    NoControl (first ++ second) ↔ NoControl first ∧ NoControl second :=
  List.forall_mem_append

theorem noControl_cons {c : Char} {rest : List Char} :
    NoControl (c :: rest) ↔ ¬ c.val < 0x20 ∧ NoControl rest :=
  List.forall_mem_cons

theorem noControl_nil : NoControl [] := fun _ hc => absurd hc List.not_mem_nil

@[simp] theorem separated_nil : separated [] = [] := rfl

@[simp] theorem separated_singleton (part : List Char) : separated [part] = part :=
  List.intercalate_singleton

/-- A comma stands behind every part but the last. -/
theorem separated_cons_cons (part next : List Char) (rest : List (List Char)) :
    separated (part :: next :: rest) = part ++ ',' :: separated (next :: rest) := by
  rw [separated, List.intercalate_cons_cons, List.append_assoc]
  rfl

theorem noControl_singleton {c : Char} (h : ¬ c.val < 0x20) : NoControl [c] :=
  noControl_cons.mpr ⟨h, noControl_nil⟩

/-- Between two marks. -/
theorem noControl_enclosed {cs : List Char} (h : NoControl cs) {first last : Char}
    (hFirst : ¬ first.val < 0x20) (hLast : ¬ last.val < 0x20) :
    NoControl (first :: (cs ++ [last])) :=
  noControl_cons.mpr ⟨hFirst, noControl_append.mpr ⟨h, noControl_singleton hLast⟩⟩

/-- A comma is no control character. -/
theorem noControl_separated {parts : List (List Char)} (h : ∀ part ∈ parts, NoControl part) :
    NoControl (separated parts) := by
  induction parts with
  | nil => exact noControl_nil
  | cons part rest ih =>
    have hPart := h part (List.mem_cons_self ..)
    have hRest := ih fun other hOther => h other (List.mem_cons_of_mem _ hOther)
    cases rest with
    | nil =>
      rw [separated_singleton]
      exact hPart
    | cons next rest =>
      rw [separated_cons_cons]
      exact noControl_append.mpr ⟨hPart, noControl_cons.mpr ⟨by decide, hRest⟩⟩

/-- A digit is none either. -/
theorem noControl_of_isDigit {c : Char} (h : c.isDigit = true) : ¬ c.val < 0x20 := by
  rw [Char.isDigit, Bool.and_eq_true, decide_eq_true_eq] at h
  intro hLow
  exact absurd (UInt32.lt_of_le_of_lt h.1 hLow) (by decide)

/-- So numbers hold none. -/
theorem IsNumber.noControl {cs : List Char} (h : IsNumber cs) : NoControl cs := by
  intro c hc
  rcases h.isNumeral.2 c hc with hDigit | hMark
  · exact noControl_of_isDigit hDigit
  · simp only [List.mem_cons, List.not_mem_nil, or_false] at hMark
    rcases hMark with rfl | rfl | rfl | rfl | rfl <;> decide

/-- Hex digits are no control characters. -/
theorem noControl_of_isHex {c : Char} (h : isHex c = true) : ¬ c.val < 0x20 := by
  simp only [isHex, Bool.or_eq_true, Bool.and_eq_true, decide_eq_true_eq] at h
  rcases h with (hDigit | ⟨hLower, -⟩) | ⟨hUpper, -⟩
  · exact noControl_of_isDigit hDigit
  · exact fun hLow => absurd (UInt32.lt_of_le_of_lt hLower hLow) (by decide)
  · exact fun hLow => absurd (UInt32.lt_of_le_of_lt hUpper hLow) (by decide)

/-- The body of a string holds none: they are escaped there. -/
theorem IsBody.noControl {cs : List Char} (h : IsBody cs) : NoControl cs := by
  induction h with
  | nil => exact noControl_nil
  -- a character that stands for itself is none by its production
  | plain low _ _ _ ih => exact noControl_cons.mpr ⟨low, ih⟩
  | letter known _ ih =>
    refine noControl_cons.mpr ⟨by decide, noControl_cons.mpr ⟨?_, ih⟩⟩
    simp only [List.mem_cons, List.not_mem_nil, or_false] at known
    rcases known with rfl | rfl | rfl | rfl | rfl | rfl | rfl | rfl <;> decide
  | code hex _ ih =>
    simp only [List.forall_mem_cons] at hex
    obtain ⟨hA, hB, hC, hD, -⟩ := hex
    refine noControl_cons.mpr ⟨by decide, noControl_cons.mpr ⟨by decide, ?_⟩⟩
    -- the four digits behind the backslash and the letter
    refine noControl_cons.mpr ⟨noControl_of_isHex hA, noControl_cons.mpr ⟨?_, ?_⟩⟩
    · exact noControl_of_isHex hB
    · exact noControl_cons.mpr ⟨noControl_of_isHex hC,
        noControl_cons.mpr ⟨noControl_of_isHex hD, ih⟩⟩

/-- A string holds none, quotes included. -/
theorem IsString.noControl {cs : List Char} (h : IsString cs) : NoControl cs := by
  obtain ⟨hBody⟩ := h
  exact noControl_enclosed hBody.noControl (by decide) (by decide)

/-- Where no blanks are allowed, there is nothing around the characters. -/
theorem Placed.whole_of_noBlanks {p : Placed} (h : p.Inside NoBlanks) : p.whole = p.chars := by
  rw [whole, h.1, h.2, List.nil_append, List.append_nil]

/-- A compact value holds no control character. -/
theorem Compact.noControl {cs : List Char} (h : Compact cs) : NoControl cs := by
  induction h with
  | word known =>
    have hWord (word : String) (h : word.toList.all fun c => !(c.val < 0x20)) :
        NoControl word.toList := by
      intro c hc hLow
      have hKept := List.all_eq_true.mp h c hc
      rw [decide_eq_true hLow] at hKept
      cases hKept
    simp only [List.mem_cons, List.not_mem_nil, or_false] at known
    rcases known with rfl | rfl | rfl
    · exact hWord "false" (by decide)
    · exact hWord "null" (by decide)
    · exact hWord "true" (by decide)
  | number isNumber => exact isNumber.noControl
  | string isString => exact isString.noControl
  -- around structural characters there is nothing, so only the parts count
  | emptyArray allowed =>
    rw [allowed]
    exact noControl_enclosed noControl_nil (by decide) (by decide)
  | array _ inside _ ih =>
    refine noControl_enclosed (noControl_separated fun part hPart => ?_) (by decide) (by decide)
    obtain ⟨item, hItem, rfl⟩ := List.mem_map.mp hPart
    rw [Placed.whole_of_noBlanks (inside item hItem)]
    exact ih item hItem
  | emptyObject allowed =>
    rw [allowed]
    exact noControl_enclosed noControl_nil (by decide) (by decide)
  | object _ inside names _ ih =>
    refine noControl_enclosed (noControl_separated fun part hPart => ?_) (by decide) (by decide)
    obtain ⟨m, hm, rfl⟩ := List.mem_map.mp hPart
    rw [Member.whole, Placed.whole_of_noBlanks (inside m hm).1,
      Placed.whole_of_noBlanks (inside m hm).2]
    exact noControl_append.mpr ⟨(names m hm).noControl, noControl_cons.mpr ⟨by decide, ih m hm⟩⟩

/-! ## Arrays and objects of texts -/

/-- The characters of texts with commas between. -/
theorem toList_commaSep (texts : List String) :
    (commaSep texts).toList = separated (texts.map String.toList) := by
  induction texts with
  | nil => rfl
  | cons text rest ih =>
    cases rest with
    | nil => rw [commaSep, List.map_cons, List.map_nil, separated_singleton]
    | cons next rest =>
      rw [List.map_cons] at ih
      rw [commaSep, String.toList_append, String.toList_append, ih, List.map_cons, List.map_cons,
        separated_cons_cons, List.append_assoc]
      rfl

theorem toList_bracketed (texts : List String) :
    (bracketed texts).toList = '[' :: (separated (texts.map String.toList) ++ [']']) := by
  rw [bracketed, String.toList_append, String.toList_append, toList_commaSep]
  rfl

theorem toList_braced (texts : List String) :
    (braced texts).toList = '\x7b' :: (separated (texts.map String.toList) ++ ['\x7d']) := by
  rw [braced, String.toList_append, String.toList_append, toList_commaSep]
  rfl

/-- Characters with no blank around them. -/
def Placed.bare (cs : List Char) : Placed := ⟨[], cs, []⟩

/-- There is nothing around them. -/
theorem Placed.bare_inside (cs : List Char) : (bare cs).Inside NoBlanks := ⟨rfl, rfl⟩

/-- And nothing but them. -/
theorem Placed.whole_bare (cs : List Char) : (bare cs).whole = cs :=
  whole_of_noBlanks (bare_inside cs)

/-- Compact values between brackets are a compact value. -/
theorem compact_bracketed {texts : List String} (h : ∀ text ∈ texts, Compact text.toList) :
    Compact (bracketed texts).toList := by
  rw [toList_bracketed]
  cases texts with
  | nil => exact .emptyArray rfl
  | cons text rest =>
    -- the items as the grammar has them, each with nothing around it
    have hItems : ((text :: rest).map fun text => Placed.bare text.toList).map Placed.whole =
        (text :: rest).map String.toList := by
      rw [List.map_map]
      exact List.map_congr_left fun text _ => Placed.whole_bare text.toList
    rw [← hItems]
    refine .array (List.cons_ne_nil _ _) ?_ ?_
    · intro item hItem
      obtain ⟨text, -, rfl⟩ := List.mem_map.mp hItem
      exact Placed.bare_inside _
    · intro item hItem
      obtain ⟨text, hText, rfl⟩ := List.mem_map.mp hItem
      exact h text hText

/-- A text that is a member of an object: a name, a colon and a value. -/
def IsField (text : String) : Prop :=
  ∃ name value, IsString name ∧ Compact value ∧ text.toList = name ++ ':' :: value

/-- Fields are the texts of members without blanks. -/
theorem exists_members {fields : List String} (h : ∀ field ∈ fields, IsField field) :
    ∃ members : List Member, members.map Member.whole = fields.map String.toList ∧
      ∀ m ∈ members, (m.name.Inside NoBlanks ∧ m.value.Inside NoBlanks) ∧
        IsString m.name.chars ∧ Compact m.value.chars := by
  induction fields with
  | nil => exact ⟨[], rfl, fun _ hm => absurd hm List.not_mem_nil⟩
  | cons field rest ih =>
    obtain ⟨name, value, hName, hValue, hField⟩ := h field (List.mem_cons_self ..)
    obtain ⟨members, hMembers, hAll⟩ :=
      ih fun other hOther => h other (List.mem_cons_of_mem _ hOther)
    -- no blanks are around the name or the value
    refine ⟨⟨.bare name, .bare value⟩ :: members, ?_, ?_⟩
    · rw [List.map_cons, List.map_cons, hMembers, hField, Member.whole, Placed.whole_bare,
        Placed.whole_bare]
    · intro m hm
      rcases List.mem_cons.mp hm with rfl | hRest
      · exact ⟨⟨Placed.bare_inside name, Placed.bare_inside value⟩, hName, hValue⟩
      · exact hAll m hRest

/-- Fields between braces are a compact value. -/
theorem compact_braced {fields : List String} (h : ∀ field ∈ fields, IsField field) :
    Compact (braced fields).toList := by
  rw [toList_braced]
  obtain ⟨members, hMembers, hAll⟩ := exists_members h
  -- an object without fields has a form of its own
  cases hSome : members with
  | nil =>
    rw [← hMembers, hSome]
    exact .emptyObject rfl
  | cons first rest =>
    rw [← hMembers]
    refine .object ?_ (fun m hm => (hAll m hm).1) (fun m hm => (hAll m hm).2.1)
      (fun m hm => (hAll m hm).2.2)
    rw [hSome]
    exact List.cons_ne_nil _ _

end JsonStencil.Grammar
