/-!
# UTF-8

Characters as bytes. Only the shortest form of a character is valid, and no
surrogate is a character; a sequence that breaks one of these rules is a
stray byte followed by whatever comes next.

Main definitions:

* `Text.bytes` — the bytes of a string.
* `Text.decodeChar?` — the character at the start of some bytes.
* `Text.ofBytes?` — the string of some bytes.
-/

namespace JsonStencil.Text

/-- The bytes of a string. -/
def bytes (s : String) : List UInt8 := s.toList.flatMap String.utf8EncodeChar

/-- Whether a byte continues a character. -/
def isContinuation (b : UInt8) : Bool := 0x80 ≤ b && b ≤ 0xBF

/-- The six bits that a continuation byte carries. -/
def payload (b : UInt8) : Nat := b.toNat % 64

/-- Whether the second byte of three is one that may follow the first. -/
def fitsThree (a b : UInt8) : Bool :=
  if a = 0xE0 then 0xA0 ≤ b && b ≤ 0xBF
  else if a = 0xED then 0x80 ≤ b && b ≤ 0x9F
  else 0xE1 ≤ a && a ≤ 0xEF && isContinuation b

/-- Whether the second byte of four is one that may follow the first. -/
def fitsFour (a b : UInt8) : Bool :=
  if a = 0xF0 then 0x90 ≤ b && b ≤ 0xBF
  else if a = 0xF4 then 0x80 ≤ b && b ≤ 0x8F
  else 0xF1 ≤ a && a ≤ 0xF3 && isContinuation b

/-- The character at the start of some bytes and the number of its bytes,
none where a stray byte stands. -/
def decodeChar? : List UInt8 → Option (Char × Nat)
  | [] => none
  | a :: rest =>
    if a < 0x80 then some (Char.ofNat a.toNat, 1)
    else match rest with
      | [] => none
      | b :: rest =>
        if 0xC2 ≤ a && a ≤ 0xDF && isContinuation b then
          some (Char.ofNat (a.toNat % 32 * 64 + payload b), 2)
        else match rest with
          | [] => none
          | c :: rest =>
            if fitsThree a b && isContinuation c then
              some (Char.ofNat ((a.toNat % 16 * 64 + payload b) * 64 + payload c), 3)
            else match rest with
              | [] => none
              | d :: _ =>
                if fitsFour a b && isContinuation c && isContinuation d then
                  some (Char.ofNat
                    (((a.toNat % 8 * 64 + payload b) * 64 + payload c) * 64 + payload d), 4)
                else none

/-- The characters of some bytes, none if a stray byte is among them. The
first argument bounds the number of characters. -/
def decode? : (fuel : Nat) → List UInt8 → Option (List Char)
  | _, [] => some []
  | 0, _ :: _ => none
  | fuel + 1, b :: rest =>
    match decodeChar? (b :: rest) with
    | some (c, size) => (decode? fuel ((b :: rest).drop size)).map (c :: ·)
    | none => none

/-- The string of some bytes, none if a stray byte is among them. -/
def ofBytes? (bs : List UInt8) : Option String := (decode? bs.length bs).map String.ofList

end JsonStencil.Text
