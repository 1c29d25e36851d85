import JsonStencil.Proofs.Grammar

/-!
# Numerals are numbers

The text of every number is a number of the grammar. For integers this comes
down to the first digit, which is no zero unless the integer is zero. For
binary64 numbers it comes down to the shortest digits: positional notation
puts zeros behind them, so they must not be zero themselves unless there is
nothing to put. The search for the digits looks at the interval of a number
other than zero, to which zero does not belong, and trimming stops before the
last digit is gone.

Main results:

* `toDigits_isWhole` / `integerText_isNumber` — integers.
* `shortest_ne_zero` — the shortest digits are not zero.
* `text_isNumber` — binary64 numbers.
-/

namespace JsonStencil

open Grammar

/-! ## Digits -/

/-- A natural number is written with digits. -/
theorem toDigits_isDigits (n : Nat) : IsDigits (Nat.toDigits 10 n) :=
  ⟨Nat.toDigits_ne_nil, fun _ hc => Nat.isDigit_of_mem_toDigits (by decide) (by decide) hc⟩

/-- The digits of a positive number begin with no zero. -/
theorem head_toDigits_ne_zero {n : Nat} (h : n ≠ 0) : (Nat.toDigits 10 n).head? ≠ some '0' := by
  induction n using Nat.strongRecOn with
  | ind n ih =>
    rcases Nat.lt_or_ge n 10 with hSmall | hLarge
    · rw [Nat.toDigits_of_lt_base hSmall]
      have hDigit : ∀ d < 10, d ≠ 0 → [Nat.digitChar d].head? ≠ some '0' := by decide
      exact hDigit n hSmall h
    · -- the last digit stands behind the digits of the rest, which is not zero
      have hFront : n / 10 ≠ 0 := by omega
      have hHead := ih (n / 10) (by omega) hFront
      rw [Nat.toDigits_of_base_le (by decide) hLarge]
      cases hDigits : Nat.toDigits 10 (n / 10) with
      | nil => exact absurd hDigits Nat.toDigits_ne_nil
      | cons c rest =>
        rw [hDigits] at hHead
        exact hHead

/-- The digits of a natural number have no leading zero. -/
theorem toDigits_isWhole (n : Nat) : IsWhole (Nat.toDigits 10 n) := by
  by_cases h : n = 0
  · rw [h]
    exact Or.inl (Nat.toDigits_zero 10)
  · exact Or.inr ⟨toDigits_isDigits n, head_toDigits_ne_zero h⟩

/-- The text of an integer is a number without a fraction and an
exponent. -/
theorem integerText_isNumber (value : Int) : IsNumber (integerText value).toList := by
  have hMagnitude (n : Nat) : IsMagnitude (Nat.toDigits 10 n) := by
    have h := IsMagnitude.intro (toDigits_isWhole n) (Or.inl rfl) (Or.inl rfl)
    rwa [List.append_nil, List.append_nil] at h
  cases value with
  | ofNat n =>
    rw [integerText, String.toList_ofList]
    exact .intro (Or.inl rfl) (hMagnitude n)
  | negSucc n =>
    rw [integerText, String.toList_ofList]
    exact .intro (Or.inr rfl) (hMagnitude (n + 1))

namespace Binary64

/-! ## The shortest digits -/

/-- Zero lies below the interval. -/
def Interval.Positive (i : Interval) : Prop := 0 < i.low

/-- It stays above zero when the decimal point is shifted. -/
theorem Interval.Positive.shift {i : Interval} (h : i.Positive) (power : Int) :
    (i.shift power).Positive := by
  rw [Interval.shift]
  split
  · exact Nat.mul_pos h (Nat.pow_pos (by decide))
  · exact h

/-- Zero is not in the interval then. -/
theorem Interval.Positive.holds_zero {i : Interval} (h : i.Positive) : i.holds 0 = false := by
  have hLow : ¬ i.low ≤ 0 * i.den := by
    rw [Nat.zero_mul]
    exact Nat.not_le_of_gt h
  rw [Interval.holds]
  split
  · rw [decide_eq_false hLow, Bool.false_and]
  · rw [decide_eq_false fun hLess => hLow (Nat.le_of_lt hLess), Bool.false_and]

/-- Rounding goes up, if anywhere, from the whole part. -/
theorem nearest_ge (num den : Nat) : num / den ≤ nearest num den := by
  rw [nearest]
  split
  · exact Nat.le_succ _
  · exact Nat.le_refl _

/-- What is found in an interval above zero is not zero. -/
theorem Interval.Positive.nearest?_ne_zero {i : Interval} (h : i.Positive) {n : Nat}
    (hFound : i.nearest? = some n) : n ≠ 0 := by
  have hFloor (hHolds : i.holds (i.value / i.den) = true) : i.value / i.den ≠ 0 := by
    intro hZero
    rw [hZero, h.holds_zero] at hHolds
    cases hHolds
  rw [Interval.nearest?] at hFound
  -- both neighbours in the interval, the lower one, the upper one, or none
  split at hFound
  · next hLow _ =>
    cases hFound
    have hPositive := Nat.pos_of_ne_zero (hFloor hLow)
    exact Nat.ne_of_gt (Nat.lt_of_lt_of_le hPositive (nearest_ge i.value i.den))
  · next hLow _ =>
    cases hFound
    exact hFloor hLow
  · cases hFound
    exact Nat.succ_ne_zero _
  · cases hFound

/-- The search ends with digits other than zero, or with nothing to put
behind them. -/
theorem firstGrid_ne_zero {i : Interval} (h : i.Positive) (leading : Int) (left count : Nat) :
    (firstGrid i leading left count).1 ≠ 0 ∨ firstGrid i leading left count = (0, 0) := by
  -- one more digit on each grid that holds no number of the interval
  induction left generalizing count with
  | zero => exact Or.inr rfl
  | succ left ih =>
    rw [firstGrid]
    split
    · next hFound => exact Or.inl ((h.shift _).nearest?_ne_zero hFound)
    · exact ih (count + 1)

/-- Trimming takes zeros from the end of what is not zero. -/
theorem trimZeros_ne_zero (fuel : Nat) {digits : Nat} (h : digits ≠ 0) (exponent : Int) :
    (trimZeros fuel digits exponent).1 ≠ 0 := by
  induction fuel generalizing digits exponent with
  | zero => exact h
  | succ fuel ih =>
    rw [trimZeros]
    split
    · next hTrim =>
      -- the last digit is a zero, so the others are not all zero
      have hFront : digits / 10 ≠ 0 := by
        obtain ⟨hDigits, hLast⟩ := hTrim
        omega
      exact ih hFront _
    · exact h

/-- The interval of a number other than zero lies above zero. -/
theorem interval_positive {x : Binary64} (h : x.mantissa ≠ 0) : x.interval.Positive := by
  have hUnit (exponent : Int) : 0 < (inUnits 1 1 exponent).1 := by
    rw [inUnits]
    split
    · exact Nat.one_pos
    · exact Nat.mul_pos Nat.one_pos (Nat.pow_pos (by decide))
  show 0 < _ * (inUnits 1 1 (2 - x.exponent)).1
  refine Nat.mul_pos ?_ (hUnit _)
  split <;> omega

/-- The shortest digits of a number other than zero are not zero, or there is
nothing to put behind them. -/
theorem shortest_ne_zero {x : Binary64} (h : x.mantissa ≠ 0) :
    x.shortest.1 ≠ 0 ∨ x.shortest = (0, 0) := by
  rw [shortest]
  rcases firstGrid_ne_zero (interval_positive h) (leadingExponent x.interval.value x.interval.den)
    17 1 with hFound | hNone
  · exact Or.inl (trimZeros_ne_zero 20 hFound _)
  · rw [hNone]
    exact Or.inr rfl

/-! ## Layouts -/

/-- Digits behind digits. -/
theorem isDigits_append {first second : List Char} (h : IsDigits first)
    (hRest : ∀ c ∈ second, c.isDigit = true) : IsDigits (first ++ second) := by
  refine ⟨fun hNil => h.1 (List.append_eq_nil_iff.mp hNil).1, fun c hc => ?_⟩
  rcases List.mem_append.mp hc with hFirst | hSecond
  · exact h.2 c hFirst
  · exact hRest c hSecond

/-- Digits with a fraction behind them are a number. -/
theorem isMagnitude_fraction {whole fraction : List Char} (hWhole : IsWhole whole)
    (hFraction : IsDigits fraction) : IsMagnitude (whole ++ '.' :: fraction) := by
  have h := IsMagnitude.intro hWhole (Or.inr ⟨fraction, hFraction, rfl⟩) (Or.inl rfl)
  rwa [List.append_nil] at h

/-- The zeros that are filled in are digits. -/
theorem isDigit_of_mem_replicate {n : Nat} {c : Char} (h : c ∈ List.replicate n '0') :
    c.isDigit = true := by
  rw [List.eq_of_mem_replicate h]
  rfl

/-- Digits without a leading zero are a number in positional notation. -/
theorem positional_isMagnitude {digits : List Char} {exponent : Int} (hDigits : IsDigits digits)
    (hHead : digits.head? ≠ some '0' ∨ exponent = 0 ∧ digits = ['0']) :
    IsMagnitude (positional digits exponent) := by
  rw [positional]
  split
  · -- an integer, with one place after the point
    have hWhole : IsWhole (digits ++ List.replicate exponent.toNat '0') := by
      rcases hHead with hHead | ⟨rfl, rfl⟩
      · refine Or.inr ⟨isDigits_append hDigits fun c hc => isDigit_of_mem_replicate hc, ?_⟩
        cases digits with
        | nil => exact absurd rfl hDigits.1
        | cons c rest => exact hHead
      · exact Or.inl rfl
    exact isMagnitude_fraction hWhole isDigits_zero
  · next hNegative =>
    have hPlaces : 0 < (-exponent).toNat := by omega
    have hNonzero : digits.head? ≠ some '0' :=
      hHead.elim id fun h => absurd (Int.le_of_eq h.1.symm) hNegative
    generalize (-exponent).toNat = places at hPlaces
    show IsMagnitude (if places < digits.length then _ else _)
    split
    · next hShort =>
      -- the point falls among the digits
      have hFront : IsWhole (digits.take (digits.length - places)) := by
        refine Or.inr ⟨⟨?_, fun c hc => hDigits.2 c (List.mem_of_mem_take hc)⟩, ?_⟩
        · rw [Ne, List.take_eq_nil_iff]
          rintro (hNone | hEmpty)
          · omega
          · exact hDigits.1 hEmpty
        · rw [List.head?_take, if_neg (by omega)]
          exact hNonzero
      have hBack : IsDigits (digits.drop (digits.length - places)) := by
        refine ⟨?_, fun c hc => hDigits.2 c (List.mem_of_mem_drop hc)⟩
        rw [Ne, List.drop_eq_nil_iff]
        omega
      exact isMagnitude_fraction hFront hBack
    · -- zeros fill the places between the point and the digits
      have hZeros : IsDigits (List.replicate (places - digits.length) '0' ++ digits) := by
        refine ⟨fun hNil => hDigits.1 (List.append_eq_nil_iff.mp hNil).2, fun c hc => ?_⟩
        rcases List.mem_append.mp hc with hZero | hDigit
        · exact isDigit_of_mem_replicate hZero
        · exact hDigits.2 c hDigit
      exact isMagnitude_fraction (Or.inl rfl) hZeros

/-- Digits are a number in scientific notation. -/
theorem scientific_isMagnitude {digits : List Char} (hDigits : IsDigits digits) (leading : Int) :
    IsMagnitude (scientific digits leading) := by
  -- one digit in front of the point
  have hFirst : IsWhole (digits.take 1) := by
    cases digits with
    | nil => exact absurd rfl hDigits.1
    | cons c rest =>
      by_cases hZero : c = '0'
      · exact Or.inl (by rw [hZero]; rfl)
      · refine Or.inr ⟨⟨List.cons_ne_nil _ _, fun d hd => ?_⟩, fun h => hZero (Option.some.inj h)⟩
        exact hDigits.2 d (List.mem_of_mem_take hd)
  -- the others behind it, if there are any
  have hFraction : IsFraction (if digits.length ≤ 1 then [] else '.' :: digits.drop 1) := by
    split
    · exact Or.inl rfl
    · next hLong =>
      refine Or.inr ⟨digits.drop 1, ⟨?_, fun c hc => hDigits.2 c (List.mem_of_mem_drop hc)⟩, rfl⟩
      rw [Ne, List.drop_eq_nil_iff]
      exact hLong
  -- and the exponent with its sign
  have hExponent : IsExponent ('e' :: (if leading < 0 then '-' else '+') ::
      Nat.toDigits 10 leading.natAbs) := by
    refine Or.inr ⟨'e', [if leading < 0 then '-' else '+'], _, Or.inl rfl, Or.inr ?_,
      toDigits_isDigits leading.natAbs, rfl⟩
    split
    · exact Or.inl rfl
    · exact Or.inr rfl
  have h := IsMagnitude.intro hFirst hFraction hExponent
  rw [← List.append_assoc] at h
  exact h

/-- The digits of a number other than zero do not begin with a zero, unless
there is nothing to put behind them. -/
theorem magnitudeText_isMagnitude {x : Binary64} (h : x.mantissa ≠ 0) (layout : Layout) :
    IsMagnitude (magnitudeText layout x) := by
  have hDigits := toDigits_isDigits x.shortest.1
  rw [magnitudeText]
  split
  · refine positional_isMagnitude hDigits ?_
    rcases shortest_ne_zero h with hNonzero | hNone
    · exact Or.inl (head_toDigits_ne_zero hNonzero)
    · -- no digits were found, and there is nothing to put behind the zero
      rw [hNone]
      exact Or.inr ⟨rfl, Nat.toDigits_zero 10⟩
  · exact scientific_isMagnitude hDigits _

/-- The text of a binary64 number is a number. -/
theorem text_isNumber (x : Binary64) : IsNumber x.text.toList := by
  rw [text, String.toList_ofList]
  refine .intro ?_ ?_
  · split
    · exact Or.inr rfl
    · exact Or.inl rfl
  · split
    · exact isMagnitude_fraction (Or.inl rfl) isDigits_zero
    · next hNonzero =>
      rw [isZero, beq_iff_eq] at hNonzero
      exact magnitudeText_isMagnitude hNonzero layout

end Binary64

end JsonStencil
