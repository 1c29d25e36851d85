/-!
# Finite binary64 numbers

A JSON number with a fraction or an exponent is held as a finite binary64
number `± mantissa · 2 ^ exponent`. The pair is kept canonical, so two
numbers are the same structure exactly when they have the same sign and the
same magnitude. All arithmetic is exact arithmetic on natural numbers
followed by one rounding to the nearest grid point, ties to the even one; no
machine float takes part, and every step can be computed by the kernel.

Main definitions:

* `Binary64.ofRatio?` — the number nearest to a quotient, or none when it
  is too large to be finite.
* `Binary64.mul?` / `Binary64.div?` — correctly rounded product and
  quotient.
* `Binary64.ofDecimal?` — the number nearest to `digits · 10 ^ exponent`.
-/

namespace JsonStencil

/-- The least mantissa of 53 bits, which is 2 ^ 52. -/
def Binary64.leadingBit : Nat := 4503599627370496

/-- The pairs that stand for a magnitude: at most 53 bits, an exponent in
range, and a leading bit unless the exponent is the least one. -/
def Binary64.Canonical (mantissa : Nat) (exponent : Int) : Prop :=
  mantissa < 2 * leadingBit ∧ -1074 ≤ exponent ∧ exponent ≤ 971 ∧
    (leadingBit ≤ mantissa ∨ exponent = -1074)

instance (mantissa : Nat) (exponent : Int) :
    Decidable (Binary64.Canonical mantissa exponent) :=
  inferInstanceAs (Decidable (_ ∧ _ ∧ _ ∧ (_ ∨ _)))

/-- A finite binary64 number `± mantissa · 2 ^ exponent`. -/
structure Binary64 where
  negative : Bool
  mantissa : Nat
  exponent : Int
  canonical : Binary64.Canonical mantissa exponent
deriving DecidableEq, Repr

namespace Binary64

/-! ## Values -/

/-- Zero of either sign. -/
def zero (negative : Bool) : Binary64 := ⟨negative, 0, -1074, by decide⟩

instance : Inhabited Binary64 := ⟨zero false⟩

/-- Both signs of zero are zero. -/
def isZero (x : Binary64) : Bool := x.mantissa == 0

/-- Equality of values, for which the two zeros are one. -/
def same (x y : Binary64) : Bool := x == y || (x.isZero && y.isZero)

/-- The magnitude as a quotient of natural numbers. -/
def ratio (x : Binary64) : Nat × Nat :=
  if 0 ≤ x.exponent then (x.mantissa * Nat.pow 2 x.exponent.toNat, 1)
  else (x.mantissa, Nat.pow 2 (-x.exponent).toNat)

/-- The same magnitude under the other sign. -/
def neg (x : Binary64) : Binary64 := { x with negative := !x.negative }

/-! ## Rounding -/

/-- The integer nearest to `num / den`; a half goes to the even neighbour. -/
def nearest (num den : Nat) : Nat :=
  let quotient := num / den
  let twice := 2 * (num % den)
  if den < twice ∨ (twice = den ∧ quotient % 2 = 1) then quotient + 1
  else quotient

/-- The quotient `num / den` counted in units of `2 ^ exponent`. -/
def inUnits (num den : Nat) (exponent : Int) : Nat × Nat :=
  if 0 ≤ exponent then (num, den * Nat.pow 2 exponent.toNat)
  else (num * Nat.pow 2 (-exponent).toNat, den)

/-- The exponent of the grid that `num / den` is rounded to: the one on
which the quotient has 53 bits, but never below the least exponent. -/
def gridExponent (num den : Nat) : Int :=
  let low : Int := (num.log2 : Int) - den.log2 - 53
  let scaled := inUnits num den low
  let full := if 2 * leadingBit * scaled.2 ≤ scaled.1 then low + 1 else low
  if num = 0 then -1074 else max full (-1074)

/-- The number nearest to `± num / den`, none when it is too large. -/
def ofRatio? (negative : Bool) (num den : Nat) : Option Binary64 :=
  let exponent := gridExponent num den
  let scaled := inUnits num den exponent
  let mantissa := nearest scaled.1 scaled.2
  -- rounding up to 54 bits halves the mantissa without a loss
  if h : Canonical mantissa exponent then some ⟨negative, mantissa, exponent, h⟩
  else if h : Canonical (mantissa / 2) (exponent + 1) then
    some ⟨negative, mantissa / 2, exponent + 1, h⟩
  else none

/-! ## Arithmetic -/

/-- The number nearest to a natural number. -/
def ofNat? (n : Nat) : Option Binary64 := ofRatio? false n 1

/-- The rounded product, none when it is too large. -/
def mul? (x y : Binary64) : Option Binary64 :=
  ofRatio? (x.negative ^^ y.negative) (x.ratio.1 * y.ratio.1) (x.ratio.2 * y.ratio.2)

/-- The rounded quotient by a number other than zero, none when it is too
large. -/
def div? (x y : Binary64) : Option Binary64 :=
  ofRatio? (x.negative ^^ y.negative) (x.ratio.1 * y.ratio.2) (x.ratio.2 * y.ratio.1)

/-- The number nearest to `± digits · 10 ^ exponent`, none when it is too
large. Exponents far outside the range are decided without the power. -/
def ofDecimal? (negative : Bool) (digits : Nat) (exponent : Int) : Option Binary64 :=
  let magnitude : Int := (Nat.toDigits 10 digits).length + exponent
  if digits = 0 ∨ magnitude < -400 then some (zero negative)
  else if 400 < magnitude then none
  else if 0 ≤ exponent then ofRatio? negative (digits * Nat.pow 10 exponent.toNat) 1
  else ofRatio? negative digits (Nat.pow 10 (-exponent).toNat)

/-- The number nearest to a power of ten that has a finite one. -/
def powerOfTen? (n : Nat) : Option Binary64 :=
  if n ≤ 308 then ofDecimal? false 1 n else none

end Binary64

end JsonStencil
