import JsonStencil.Json.Basic
import JsonStencil.Json.Cursor

/-!
# Reading numbers

A number without fraction and exponent is an integer as long as it fits 64
bits. Any other number becomes a binary64 number in two steps: its digits are
gathered into a significand of 64 bits, and the significand is then scaled
once by a power of ten. Digits that no longer fit the significand only raise
the exponent when they stand before the point, and are dropped behind it. The
result may therefore differ in its last place from the number nearest to the
decimal. A number too large to be finite is a fault, one too small is zero.

Main definitions:

* `Json.Significand` — the digits gathered so far.
* `Json.scale?` — a significand times a power of ten.
* `Json.readNumber` — a number behind its sign.
* `Json.skipNumber` — passing over a number.
-/

namespace JsonStencil.Json

/-! ## Significands -/

/-- The largest significand, and the largest unsigned integer of 64 bits. -/
def maxUnsigned : Nat := 18446744073709551615

/-- The magnitude of the least signed integer of 64 bits. -/
def maxNegated : Nat := 9223372036854775808

/-- The largest exponent that is read as a number, one of 32 bits with a
sign. -/
def maxExponent : Nat := 2147483647

/-- Digits gathered into 64 bits, how many were taken in, and how many came
after the first that did not fit. -/
structure Significand where
  value : Nat := 0
  taken : Nat := 0
  left : Nat := 0
deriving Repr, DecidableEq

/-- Takes in a digit if it fits and none before it was left. -/
def Significand.push (s : Significand) (digit : Nat) : Significand :=
  if s.left = 0 ∧ s.value * 10 + digit ≤ maxUnsigned then
    { s with value := s.value * 10 + digit, taken := s.taken + 1 }
  else { s with left := s.left + 1 }

/-- The significand with more digits behind. -/
def Significand.pushAll (s : Significand) (digits : List Nat) : Significand :=
  digits.foldl push s

/-! ## Scaling -/

/-- A number times a power of ten, none when it is too large. Powers below
the table's least one are reached by several divisions. -/
def scaleBy? : (fuel : Nat) → Binary64 → Int → Option Binary64
  | 0, x, _ => some x
  | fuel + 1, x, exponent =>
    match Binary64.powerOfTen? exponent.natAbs with
    | some power => if 0 ≤ exponent then x.mul? power else x.div? power
    | none =>
      if x.isZero then some x
      else if 0 ≤ exponent then none
      else match Binary64.powerOfTen? 308 with
        | some power =>
          match x.div? power with
          | some smaller => scaleBy? fuel smaller (exponent + 308)
          | none => none
        | none => none

/-- A significand times a power of ten. Two divisions make any significand
zero, so four rounds are enough. -/
def scale? (significand : Nat) (exponent : Int) : Option Binary64 :=
  match Binary64.ofNat? significand with
  | some x => scaleBy? 4 x exponent
  | none => none

/-! ## Numbers -/

/-- The integer or float that a number without fraction and exponent is. -/
def integerNumber (negative : Bool) (significand : Nat) : Number :=
  if !negative then .integer significand
  else if significand = 0 then .float (Binary64.zero true)
  else if significand ≤ maxNegated then .integer (-significand)
  else match Binary64.ofNat? significand with
    | some x => .float x.neg
    | none => .float (Binary64.zero true)

/-- Closes a number with its exponent. -/
def floatNumber (negative : Bool) (significand : Nat) (exponent : Int) (c : Cursor) :
    Except Fault (Number × Cursor) :=
  match scale? significand exponent with
  | some x => .ok (.float (if negative then x.neg else x), c)
  | none => c.fail .numberOutOfRange

/-- Whether a byte opens an exponent. -/
def opensExponent (b : Option UInt8) : Bool := b == some (byte 'e') || b == some (byte 'E')

/-- The sign of an exponent, plus where there is none, and the cursor behind
it. -/
def takeSign (c : Cursor) : Bool × Cursor :=
  if c.peek = some (byte '-') then (true, c.advance)
  else if c.peek = some (byte '+') then (false, c.advance)
  else (false, c)

/-- The number that decimal digits stand for. -/
def decimalValue (digits : List Nat) : Nat := digits.foldl (fun n digit => 10 * n + digit) 0

/-- The number of leading digits after which an exponent has become too
large to be read, if it does. -/
def exponentOverflow? (digits : List Nat) : Option Nat :=
  (List.range digits.length).findSome? fun count =>
    if maxExponent < decimalValue (digits.take (count + 1)) then some (count + 1) else none

/-- An exponent behind its letter, which closes the number. -/
def readExponent (negative : Bool) (significand : Nat) (exponent : Int) (c : Cursor) :
    Except Fault (Number × Cursor) :=
  let (below, c) := takeSign c
  match c.peek with
  | none => c.fail .eofValue
  | some b =>
    if !Cursor.isDigit b then c.advance.fail .invalidNumber
    else
      let (digits, behind) := c.takeDigits
      match exponentOverflow? digits with
      | some count =>
        if significand ≠ 0 ∧ !below then (c.advanceBy count).fail .numberOutOfRange
        else .ok (.float (Binary64.zero negative), behind)
      | none =>
        let size : Int := decimalValue digits
        floatNumber negative significand (if below then exponent - size else exponent + size)
          behind

/-- What may stand behind the digits of a float. -/
def readScale (negative : Bool) (significand : Nat) (exponent : Int) (c : Cursor) :
    Except Fault (Number × Cursor) :=
  if opensExponent c.peek then readExponent negative significand exponent c.advance
  else floatNumber negative significand exponent c

/-- A fraction behind its point. -/
def readFraction (negative : Bool) (whole : Significand) (c : Cursor) :
    Except Fault (Number × Cursor) :=
  let (digits, behind) := c.takeDigits
  if digits.isEmpty then
    match c.peek with
    | none => c.failNext .eofValue
    | some _ => c.failNext .invalidNumber
  else
    let all := ({ whole with taken := 0, left := 0 } : Significand).pushAll digits
    readScale negative all.value ((whole.left : Int) - all.taken) behind

/-- A number behind its sign. -/
def readNumber (negative : Bool) (c : Cursor) : Except Fault (Number × Cursor) :=
  match c.peek with
  | none => c.fail .eofValue
  | some b =>
    if !Cursor.isDigit b then c.advance.fail .invalidNumber
    else
      let (digits, behind) := c.takeDigits
      if b = byte '0' ∧ 1 < digits.length then c.advance.failNext .invalidNumber
      else
        let whole := ({} : Significand).pushAll digits
        if behind.peek = some (byte '.') then readFraction negative whole behind.advance
        else if opensExponent behind.peek ∨ whole.left ≠ 0 then
          readScale negative whole.value whole.left behind
        else .ok (integerNumber negative whole.value, behind)

/-! ## Passing over numbers -/

/-- Passes an exponent behind its letter. -/
def skipExponent (c : Cursor) : Except Fault (Unit × Cursor) :=
  let (_, c) := takeSign c
  match c.peek with
  | none => c.fail .invalidNumber
  | some b =>
    if Cursor.isDigit b then .ok ((), c.takeDigits.2) else c.advance.fail .invalidNumber

/-- Passes a number behind its sign. -/
def skipNumber (c : Cursor) : Except Fault (Unit × Cursor) :=
  match c.peek with
  | none => c.fail .invalidNumber
  | some b =>
    if !Cursor.isDigit b then c.advance.fail .invalidNumber
    else
      let (digits, behind) := c.takeDigits
      if b = byte '0' ∧ 1 < digits.length then c.advance.failNext .invalidNumber
      else if behind.peek = some (byte '.') then
        let (places, after) := behind.advance.takeDigits
        if places.isEmpty then behind.advance.failNext .invalidNumber
        else if opensExponent after.peek then skipExponent after.advance
        else .ok ((), after)
      else if opensExponent behind.peek then skipExponent behind.advance
      else .ok ((), behind)

end JsonStencil.Json
