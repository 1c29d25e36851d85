import JsonStencil.Proofs.Grammar

/-!
# Gaps in arrays

A comma right behind the bracket that opens an array leaves a gap where an
item should be, and no text of the grammar has one outside of its strings. A
scan from the left finds it: it keeps track of strings and escapes, and of
whether an array has just been opened. Once a gap has been found nothing that
follows mends it.

Main definitions:

* `Scan` / `scan` — the state of the scan.
* `Passes` / `Settles` / `Breaks` — characters behind which the scan stands
  after a value, outside of strings, or behind a gap.

Main results:

* `IsValue.passes` — a value of the grammar has no gap.
* `breaks_separated` — a gap in one part is a gap in the whole.
* `breaks_of_empty_items` — an array of missing items has a gap.
-/

namespace JsonStencil.Grammar

/-! ## Scanning -/

/-- Where a scan stands: outside of strings, and whether right behind the
bracket that opens an array; inside a string; behind a backslash in one; or
behind a gap. -/
inductive Scan where
  | plain (opened : Bool)
  | inside
  | escaped
  | broken

/-- The state behind one more character. -/
def Scan.next : Scan → Char → Scan
  | .broken, _ => .broken
  | .escaped, _ => .inside
  | .inside, c => if c = '"' then .plain false else if c = '\\' then .escaped else .inside
  | .plain opened, c =>
    if c = '"' then .inside
    else if c = '[' then .plain true
    else if c = ',' then if opened then .broken else .plain false
    else if isBlank c then .plain opened
    else .plain false

/-- The state behind some characters. -/
def scan (state : Scan) (cs : List Char) : Scan := cs.foldl Scan.next state

theorem scan_cons (state : Scan) (c : Char) (rest : List Char) :
    scan state (c :: rest) = scan (state.next c) rest := rfl

/-- A scan goes on from where it stood. -/
theorem scan_append (state : Scan) (first second : List Char) :
    scan state (first ++ second) = scan (scan state first) second :=
  List.foldl_append

/-- A gap stays. -/
theorem scan_broken (cs : List Char) : scan .broken cs = .broken := by
  induction cs with
  | nil => rfl
  | cons c rest ih => exact ih

/-! ## Values pass -/

/-- Behind these characters the scan stands as behind a value. -/
def Passes (cs : List Char) : Prop := ∀ opened, scan (.plain opened) cs = .plain false

/-- Blanks leave the scan where it is. -/
theorem scan_blanks {cs : List Char} (h : Blanks cs) (opened : Bool) :
    scan (.plain opened) cs = .plain opened := by
  have hNext {c : Char} (hBlank : isBlank c = true) :
      (Scan.plain opened).next c = .plain opened := by
    simp only [isBlank, Bool.or_eq_true, beq_iff_eq] at hBlank
    rcases hBlank with ((rfl | rfl) | rfl) | rfl <;> rfl
  induction cs with
  | nil => rfl
  | cons c rest ih =>
    rw [scan_cons, hNext (h c (List.mem_cons_self ..))]
    exact ih fun d hd => h d (List.mem_cons_of_mem _ hd)

/-- A character that means nothing to the scan. -/
def Ordinary (c : Char) : Prop := ∀ opened, (Scan.plain opened).next c = .plain false

/-- Characters that mean nothing pass, if there are any. -/
theorem passes_of_ordinary {cs : List Char} (hSome : cs ≠ []) (h : ∀ c ∈ cs, Ordinary c) :
    Passes cs := by
  -- the scan forgets that an array was opened with the first of them
  have hScan : ∀ opened, ∀ rest : List Char, (∀ c ∈ rest, Ordinary c) →
      scan (.plain opened) rest = .plain (opened && rest.isEmpty) := by
    intro opened rest
    induction rest generalizing opened with
    | nil =>
      intro _
      rw [List.isEmpty_nil, Bool.and_true]
      rfl
    | cons c rest ih =>
      intro hRest
      rw [scan_cons, hRest c (List.mem_cons_self ..) opened,
        ih false fun d hd => hRest d (List.mem_cons_of_mem _ hd), Bool.false_and,
        List.isEmpty_cons, Bool.and_false]
  intro opened
  rw [hScan opened cs h, List.isEmpty_eq_false_iff.mpr hSome, Bool.and_false]

/-- The characters of a number mean nothing to the scan. -/
theorem ordinary_of_isNumeral {c : Char} (h : IsNumeral c) : Ordinary c := by
  -- a digit is none of the characters that the scan looks at
  rcases h with hDigit | hMark
  · have hNot {d : Char} (hd : d.isDigit = false) : c ≠ d := by
      rintro rfl
      rw [hDigit] at hd
      cases hd
    have hBlank : isBlank c = false := by
      rw [isBlank, beq_eq_false_iff_ne.mpr (hNot rfl), beq_eq_false_iff_ne.mpr (hNot rfl),
        beq_eq_false_iff_ne.mpr (hNot rfl), beq_eq_false_iff_ne.mpr (hNot rfl)]
      rfl
    intro opened
    rw [Scan.next, if_neg (hNot rfl), if_neg (hNot rfl), if_neg (hNot rfl), hBlank]
    rfl
  · simp only [List.mem_cons, List.not_mem_nil, or_false] at hMark
    rcases hMark with rfl | rfl | rfl | rfl | rfl <;> exact fun _ => rfl

/-- Inside a string the scan stays until its quote. -/
theorem scan_body {body : List Char} (h : IsBody body) : scan .inside body = .inside := by
  induction h with
  | nil => rfl
  | plain _ quote back _ ih =>
    rw [scan_cons, Scan.next, if_neg quote, if_neg back]
    exact ih
  | letter _ _ ih => exact ih
  -- the four hex digits behind a backslash and a `u` are no quote and no backslash
  | @code a b c d rest hex _ ih =>
    have hHex {x : Char} (h : isHex x = true) : Scan.inside.next x = .inside := by
      have hQuote : x ≠ '"' := by
        rintro rfl
        exact absurd h (by decide)
      have hBack : x ≠ '\\' := by
        rintro rfl
        exact absurd h (by decide)
      rw [Scan.next, if_neg hQuote, if_neg hBack]
    simp only [List.forall_mem_cons] at hex
    obtain ⟨hA, hB, hC, hD, -⟩ := hex
    show scan ((((Scan.inside.next a).next b).next c).next d) rest = .inside
    rw [hHex hA, hHex hB, hHex hC, hHex hD]
    exact ih

/-- A string passes, whatever commas and brackets it holds. -/
theorem IsString.passes {cs : List Char} (h : IsString cs) : Passes cs := by
  obtain ⟨hBody⟩ := h
  intro opened
  show scan .inside (_ ++ ['"']) = _
  rw [scan_append, scan_body hBody]
  rfl

/-- Blanks around a value do no harm. -/
theorem Placed.passes {p : Placed} (hInside : p.Inside Blanks) (h : Passes p.chars) :
    Passes p.whole := by
  intro opened
  rw [whole, scan_append, scan_append, scan_blanks hInside.1, h opened, scan_blanks hInside.2]

/-- Values with commas between pass. -/
theorem passes_separated {parts : List (List Char)} (hSome : parts ≠ [])
    (h : ∀ part ∈ parts, Passes part) : Passes (separated parts) := by
  intro opened
  -- behind a value and a comma the scan is outside of an opening bracket
  induction parts generalizing opened with
  | nil => exact absurd rfl hSome
  | cons part rest ih =>
    have hPart := h part (List.mem_cons_self ..)
    cases rest with
    | nil =>
      rw [separated_singleton]
      exact hPart opened
    | cons next rest =>
      rw [separated_cons_cons, scan_append, hPart opened]
      exact ih (List.cons_ne_nil _ _) (fun other hOther => h other (List.mem_cons_of_mem _ hOther))
        false

/-- A member passes if its value does. -/
theorem Member.passes {m : Member} (hName : m.name.Inside Blanks) (hValue : m.value.Inside Blanks)
    (hString : IsString m.name.chars) (h : Passes m.value.chars) : Passes m.whole := by
  intro opened
  rw [whole, scan_append, m.name.passes hName hString.passes opened]
  exact m.value.passes hValue h false

/-- A value has no gap. -/
theorem IsValue.passes {cs : List Char} (h : IsValue Blanks cs) : Passes cs := by
  -- only an array makes the scan look out for a comma, and its first item stops that
  induction h with
  | word known =>
    simp only [List.mem_cons, List.not_mem_nil, or_false] at known
    -- a word is known, and the scan goes through it
    rcases known with rfl | rfl | rfl <;> exact fun _ => rfl
  | number isNumber =>
    obtain ⟨hSome, hAll⟩ := isNumber.isNumeral
    exact passes_of_ordinary hSome fun c hc => ordinary_of_isNumeral (hAll c hc)
  | string isString => exact isString.passes
  | emptyArray allowed =>
    intro opened
    show scan (.plain true) (_ ++ [']']) = _
    rw [scan_append, scan_blanks allowed]
    rfl
  | @array items some inside _ ih =>
    have hParts : ∀ part ∈ items.map Placed.whole, Passes part := by
      intro part hPart
      obtain ⟨item, hItem, rfl⟩ := List.mem_map.mp hPart
      exact item.passes (inside item hItem) (ih item hItem)
    intro opened
    show scan (.plain true) (_ ++ [']']) = _
    rw [scan_append, passes_separated (fun hNil => some (List.map_eq_nil_iff.mp hNil)) hParts]
    rfl
  | emptyObject allowed =>
    intro opened
    show scan (.plain false) (_ ++ ['\x7d']) = _
    rw [scan_append, scan_blanks allowed]
    rfl
  | @object members some inside names _ ih =>
    -- behind a brace no comma is looked out for
    have hParts : ∀ part ∈ members.map Member.whole, Passes part := by
      intro part hPart
      obtain ⟨m, hm, rfl⟩ := List.mem_map.mp hPart
      exact m.passes (inside m hm).1 (inside m hm).2 (names m hm) (ih m hm)
    intro opened
    show scan (.plain false) (_ ++ ['\x7d']) = _
    rw [scan_append, passes_separated (fun hNil => some (List.map_eq_nil_iff.mp hNil)) hParts]
    rfl

/-- A text of the grammar has no gap. -/
theorem IsText.passes {cs : List Char} (h : IsText cs) : Passes cs := by
  obtain ⟨inside, value⟩ := h
  exact Placed.passes inside value.passes

/-! ## Gaps break -/

/-- Behind these characters the scan stands outside of strings, or behind a
gap. -/
def Settles (cs : List Char) : Prop :=
  ∀ opened, scan (.plain opened) cs = .broken ∨ ∃ later, scan (.plain opened) cs = .plain later

/-- Somewhere in these characters is a gap. -/
def Breaks (cs : List Char) : Prop := ∀ opened, scan (.plain opened) cs = .broken

/-- Behind a value the scan is outside of strings. -/
theorem Passes.settles {cs : List Char} (h : Passes cs) : Settles cs :=
  fun opened => Or.inr ⟨false, h opened⟩

/-- What passes has no gap. -/
theorem Passes.not_breaks {cs : List Char} (h : Passes cs) : ¬ Breaks cs := by
  intro hBreaks
  exact nomatch (h false).symm.trans (hBreaks false)

/-- Where nothing is read the scan stays outside of strings. -/
theorem settles_nil : Settles [] := fun opened => Or.inr ⟨opened, rfl⟩

/-- No character but a quote leads into a string. -/
theorem settles_cons {c : Char} {rest : List Char} (hQuote : c ≠ '"') (h : Settles rest) :
    Settles (c :: rest) := by
  intro opened
  rw [scan_cons, Scan.next, if_neg hQuote]
  -- an opening bracket, a comma, a blank, or another character
  split
  · exact h true
  split
  · split
    · exact Or.inl (scan_broken rest)
    · exact h false
  split
  · exact h opened
  · exact h false

/-- Two parts that settle, one behind the other. -/
theorem settles_append {first second : List Char} (h : Settles first) (hSecond : Settles second) :
    Settles (first ++ second) := by
  intro opened
  rw [scan_append]
  rcases h opened with hGap | ⟨later, hPlain⟩
  · rw [hGap]
    exact Or.inl (scan_broken second)
  · rw [hPlain]
    exact hSecond later

/-- A gap is not mended by what comes behind it. -/
theorem breaks_append_left {first : List Char} (h : Breaks first) (second : List Char) :
    Breaks (first ++ second) := by
  intro opened
  rw [scan_append, h opened, scan_broken]

/-- A gap is found behind what leaves the scan outside of strings. -/
theorem breaks_append_right {first second : List Char} (h : Settles first)
    (hBreaks : Breaks second) : Breaks (first ++ second) := by
  intro opened
  rw [scan_append]
  rcases h opened with hGap | ⟨later, hPlain⟩
  · rw [hGap, scan_broken]
  · rw [hPlain, hBreaks later]

/-- Parts that settle, with commas between them. -/
theorem settles_separated {parts : List (List Char)} (h : ∀ part ∈ parts, Settles part) :
    Settles (separated parts) := by
  induction parts with
  | nil => exact settles_nil
  | cons part rest ih =>
    have hPart := h part (List.mem_cons_self ..)
    -- a comma settles what stands in front of it
    cases rest with
    | nil =>
      rw [separated_singleton]
      exact hPart
    | cons next rest =>
      rw [separated_cons_cons]
      exact settles_append hPart (settles_cons (by decide)
        (ih fun other hOther => h other (List.mem_cons_of_mem _ hOther)))

/-- A gap in one part is a gap in the whole. -/
theorem breaks_separated {parts : List (List Char)} (h : ∀ part ∈ parts, Settles part)
    {part : List Char} (hMem : part ∈ parts) (hBreaks : Breaks part) :
    Breaks (separated parts) := by
  induction parts with
  | nil => exact absurd hMem List.not_mem_nil
  | cons first rest ih =>
    have hFirst := h first (List.mem_cons_self ..)
    have hComma : Settles [','] := settles_cons (by decide) settles_nil
    cases rest with
    | nil =>
      rw [separated_singleton, ← List.mem_singleton.mp hMem]
      exact hBreaks
    | cons next rest =>
      rw [separated_cons_cons]
      rcases List.mem_cons.mp hMem with rfl | hRest
      · -- behind the gap nothing counts any more
        exact breaks_append_left hBreaks _
      · have hTail := ih (fun other hOther => h other (List.mem_cons_of_mem _ hOther)) hRest
        exact breaks_append_right hFirst (breaks_append_right hComma hTail)

/-- An array of two or more missing items has a gap. -/
theorem breaks_of_empty_items {parts : List (List Char)} (hEmpty : ∀ part ∈ parts, part = [])
    (hTwo : 2 ≤ parts.length) : Breaks ('[' :: (separated parts ++ [']'])) := by
  -- with no first item the comma comes right behind the bracket
  obtain _ | ⟨first, _ | ⟨second, rest⟩⟩ := parts
  · exact absurd hTwo (by decide)
  · exact absurd hTwo (Nat.not_le_of_gt (Nat.lt_succ_self 1))
  · intro opened
    rw [separated_cons_cons, hEmpty first (List.mem_cons_self ..), List.nil_append]
    exact scan_broken _

/-! ## Arrays and objects of texts -/

section Texts

variable {texts : List String}

/-- The characters of texts that settle. -/
theorem settles_parts (h : ∀ text ∈ texts, Settles text.toList) :
    ∀ part ∈ texts.map String.toList, Settles part := by
  intro part hPart
  obtain ⟨text, hText, rfl⟩ := List.mem_map.mp hPart
  exact h text hText

/-- An array of such texts settles. -/
theorem settles_bracketed (h : ∀ text ∈ texts, Settles text.toList) :
    Settles (bracketed texts).toList := by
  rw [toList_bracketed]
  exact settles_cons (by decide) (settles_append (settles_separated (settles_parts h))
    (settles_cons (by decide) settles_nil))

/-- So does an object. -/
theorem settles_braced (h : ∀ text ∈ texts, Settles text.toList) :
    Settles (braced texts).toList := by
  rw [toList_braced]
  exact settles_cons (by decide) (settles_append (settles_separated (settles_parts h))
    (settles_cons (by decide) settles_nil))

/-- A gap in an item is a gap in the array. -/
theorem breaks_bracketed (h : ∀ text ∈ texts, Settles text.toList) {text : String}
    (hMem : text ∈ texts) (hBreaks : Breaks text.toList) : Breaks (bracketed texts).toList := by
  have hItems := breaks_separated (settles_parts h) (List.mem_map_of_mem hMem) hBreaks
  have hOpen : Settles ['['] := settles_cons (by decide) settles_nil
  rw [toList_bracketed]
  exact breaks_append_right hOpen (breaks_append_left hItems [']'])

/-- A gap in a field is a gap in the object. -/
theorem breaks_braced (h : ∀ text ∈ texts, Settles text.toList) {text : String}
    (hMem : text ∈ texts) (hBreaks : Breaks text.toList) : Breaks (braced texts).toList := by
  have hFields := breaks_separated (settles_parts h) (List.mem_map_of_mem hMem) hBreaks
  have hOpen : Settles ['\x7b'] := settles_cons (by decide) settles_nil
  rw [toList_braced]
  exact breaks_append_right hOpen (breaks_append_left hFields ['\x7d'])

end Texts

end JsonStencil.Grammar
