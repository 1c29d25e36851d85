import JsonStencil.Json.Compact

/-!
# Instants

An instant is a count of seconds since the start of 1970 in universal time
together with nanoseconds into the second. A nanosecond count of a whole
second or more marks a leap second, which is written as second 60.

The text of an instant is `YYYY-MM-DDTHH:MM:SS.mmmZ` in the Gregorian
calendar extended to all years. Milliseconds are cut off, not rounded; a
year outside 0 to 9999 carries a sign.

Main definitions:

* `Instant` — a point in time.
* `Instant.date` — the calendar date of a day number.
* `Instant.text` — the written form.
-/

namespace JsonStencil

/-- Seconds since the start of 1970 and nanoseconds into the second. -/
structure Instant where
  seconds : Int
  nanos : Nat
deriving DecidableEq, Repr

namespace Instant

/-! ## The calendar -/

/-- A day of the Gregorian calendar. -/
structure Date where
  year : Int
  month : Nat
  day : Nat
deriving DecidableEq, Repr

/-- The days of 400 years. -/
def eraDays : Nat := 146097

/-- The date of a day counted from the first of January 1970.

Years are taken to begin in March, so that the leap day is the last day of a
year, and 400 years form an era of constant length. -/
def date (day : Int) : Date :=
  let shifted := day + 719468
  let era := shifted.fdiv eraDays
  let dayOfEra := (shifted.fmod eraDays).toNat
  let yearOfEra :=
    (dayOfEra - dayOfEra / 1460 + dayOfEra / 36524 - dayOfEra / 146096) / 365
  let dayOfYear := dayOfEra - (365 * yearOfEra + yearOfEra / 4 - yearOfEra / 100)
  let marchMonth := (5 * dayOfYear + 2) / 153
  let month := if marchMonth < 10 then marchMonth + 3 else marchMonth - 9
  let carry : Int := if month ≤ 2 then 1 else 0
  { year := yearOfEra + era * 400 + carry
    month := month
    day := dayOfYear - (153 * marchMonth + 2) / 5 + 1 }

/-! ## The written form -/

/-- Decimal digits with leading zeros up to a width. -/
def padded (width n : Nat) : List Char :=
  let digits := Nat.toDigits 10 n
  List.replicate (width - digits.length) '0' ++ digits

/-- A year: four digits, and a sign unless it lies between 0 and 9999. -/
def yearText (year : Int) : List Char :=
  if 0 ≤ year ∧ year ≤ 9999 then padded 4 year.natAbs
  else (if year < 0 then '-' else '+') :: padded 4 year.natAbs

/-- The characters of an instant's text. -/
def chars (t : Instant) : List Char :=
  let day := date (t.seconds.fdiv 86400)
  let second := (t.seconds.fmod 86400).toNat
  let leap := t.nanos / 1000000000
  yearText day.year ++ '-' :: padded 2 day.month ++ '-' :: padded 2 day.day ++
    'T' :: padded 2 (second / 3600) ++ ':' :: padded 2 (second / 60 % 60) ++
    ':' :: padded 2 (second % 60 + leap) ++
    '.' :: padded 3 (t.nanos % 1000000000 / 1000000) ++ ['Z']

/-- The text of an instant, such as `2024-02-29T13:05:09.000Z`. -/
def text (t : Instant) : String := String.ofList t.chars

example : text ⟨1709211909, 0⟩ = "2024-02-29T13:05:09.000Z" := by decide +kernel

end Instant

end JsonStencil
