import JsonStencil.Binary64.Shortest

/-!
# The text of a binary64 number

A number is written with its shortest digits. Between two bounds of the
decimal exponent it is written positionally and keeps at least one place
after the point (`1.0`, `0.00001`); outside them in scientific form with the
sign of the exponent always written and no point after a single digit
(`1e+16`, `2.5e-7`). The sign of a zero is kept.

Reading goes the other way: a decimal text gives the nearest number.

Main definitions:

* `Binary64.Layout` — the two bounds of positional notation.
* `Binary64.text` — the text of a number.
* `Binary64.ofText?` — the number nearest to a decimal text.
-/

namespace JsonStencil.Binary64

/-- Where positional notation starts and ends, by the exponent of the first
digit. -/
structure Layout where
  least : Int
  greatest : Int

/-- Positional from `0.00001` up to below `10 ^ 16`. -/
def layout : Layout := ⟨-5, 15⟩

/-- The text of the digits `d` with exponent `k` in positional notation. -/
def positional (digits : List Char) (exponent : Int) : List Char :=
  if 0 ≤ exponent then digits ++ List.replicate exponent.toNat '0' ++ ['.', '0']
  else
    let places := (-exponent).toNat
    if places < digits.length then
      digits.take (digits.length - places) ++ '.' :: digits.drop (digits.length - places)
    else '0' :: '.' :: List.replicate (places - digits.length) '0' ++ digits

/-- The text of the digits with the point after the first one and the
exponent of the first digit behind. -/
def scientific (digits : List Char) (leading : Int) : List Char :=
  let sign := if leading < 0 then '-' else '+'
  let fraction := if digits.length ≤ 1 then [] else '.' :: digits.drop 1
  digits.take 1 ++ fraction ++ 'e' :: sign :: Nat.toDigits 10 leading.natAbs

/-- The text of a magnitude other than zero. -/
def magnitudeText (layout : Layout) (x : Binary64) : List Char :=
  let decimal := x.shortest
  let digits := Nat.toDigits 10 decimal.1
  let leading : Int := decimal.2 + digits.length - 1
  if layout.least ≤ leading ∧ leading ≤ layout.greatest then positional digits decimal.2
  else scientific digits leading

/-- The text of a number. -/
def text (x : Binary64) : String :=
  let sign := if x.negative then ['-'] else []
  let magnitude := if x.isZero then ['0', '.', '0'] else magnitudeText layout x
  String.ofList (sign ++ magnitude)

/-! ## Reading -/

/-- The sign in front of a decimal text, and the text behind it. -/
def splitSign : List Char → Bool × List Char
  | '-' :: rest => (true, rest)
  | '+' :: rest => (false, rest)
  | rest => (false, rest)

/-- A whole number behind an optional sign, made of digits alone. -/
def exponentOf? (text : List Char) : Option Int :=
  let signed := splitSign text
  if signed.2.isEmpty || !signed.2.all Char.isDigit then none
  else
    let size : Int := Nat.ofDigitChars 10 signed.2 0
    some (if signed.1 then -size else size)

/-- The number nearest to a decimal text: digits with an optional sign, an
optional point and an optional exponent, at least one digit among them. None
for any other text, and for one whose number is not finite. -/
def ofText? (text : String) : Option Binary64 :=
  let signed := splitSign text.toList
  let mantissa := signed.2.takeWhile fun c => c != 'e' && c != 'E'
  let whole := mantissa.takeWhile (· != '.')
  let fraction := (mantissa.drop whole.length).drop 1
  let digits := whole ++ fraction
  let exponent := match signed.2.drop mantissa.length with
    | [] => some 0
    | _ :: rest => exponentOf? rest
  if digits.isEmpty || !digits.all Char.isDigit then none
  else match exponent with
    | none => none
    | some exponent =>
      ofDecimal? signed.1 (Nat.ofDigitChars 10 digits 0) (exponent - fraction.length)

end JsonStencil.Binary64
