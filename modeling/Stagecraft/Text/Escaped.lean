/-!
# Names inside a location

A location admits few characters. The bytes of a name that are lower-case letters, digits, `_` or
`-` stand for themselves; every other byte is written as a dot and its value in base 36.
-/

namespace Stagecraft.Text

/-- The digit of a value below 36: the decimal digits, then the lower-case letters. -/
def base36Digit (n : Nat) : Char :=
  if n < 10 then Char.ofNat (48 + n) else Char.ofNat (87 + n)

/-- A byte in base 36, without leading zeros. -/
def base36 (b : UInt8) : List Char :=
  let n := b.toNat
  if n < 36 then [base36Digit n] else [base36Digit (n / 36), base36Digit (n % 36)]

/-- Whether a byte stands for itself in a location. -/
def isLocationByte (b : UInt8) : Bool :=
  (97 ≤ b && b ≤ 122) || (48 ≤ b && b ≤ 57) || b == 95 || b == 45

/-- A byte of a name as it stands in a location. -/
def escapedByte (b : UInt8) : List Char :=
  if isLocationByte b then [Char.ofNat b.toNat] else '.' :: base36 b

/-- The bytes of a text in UTF-8. -/
def bytesOf (s : String) : List UInt8 := s.toList.flatMap String.utf8EncodeChar

/-- A name as it stands in a location. -/
def escaped (s : String) : String :=
  String.ofList ((bytesOf s).flatMap escapedByte)

end Stagecraft.Text
