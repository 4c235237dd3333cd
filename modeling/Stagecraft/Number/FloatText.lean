import Stagecraft.Number.Binary

/-!
# Floating-point numbers as text

Every number is written with the fewest digits that read back as the same number. The two layouts
differ in when they write an exponent and in whether a whole number keeps a decimal place.
-/

namespace Stagecraft.Number

/-- How digits are laid out: positional for leading exponents from the first to below the second
bound (always without bounds), with or without `.0` after a whole number. -/
structure FloatLayout where
  positional : Option (Int × Int)
  wholePoint : Bool

/-- Literals and data values: an exponent below `1e-4` and from `1e16` on, and at least one decimal
place otherwise. -/
def literalLayout : FloatLayout := ⟨some (-4, 16), true⟩

/-- Refined types: never an exponent, and no decimal place without need. -/
def plainLayout : FloatLayout := ⟨none, false⟩

/-- Digits around the decimal point, which stands after the digit of exponent zero. -/
def positionalText (digits : List Char) (leading : Int) (wholePoint : Bool) : List Char :=
  if leading < 0 then
    '0' :: '.' :: (List.replicate ((-leading).toNat - 1) '0' ++ digits)
  else
    let whole := leading.toNat + 1
    let places := digits.drop whole
    let front := digits.take whole ++ List.replicate (whole - digits.length) '0'
    if places.isEmpty then front ++ (if wholePoint then ['.', '0'] else []) else front ++ '.' :: places

/-- One digit before the point and the exponent after an `e`. -/
def scientificText (digits : List Char) (leading : Int) : List Char :=
  let mantissa :=
    match digits with
    | [] => []
    | [d] => [d]
    | d :: rest => d :: '.' :: rest
  mantissa ++ 'e' :: (toString leading).toList

/-- A positive decimal in a layout. -/
def FloatLayout.decimal (layout : FloatLayout) (d : Decimal) : List Char :=
  let positional := positionalText d.significant d.leading layout.wholePoint
  match layout.positional with
  | none => positional
  | some (least, bound) =>
    if least ≤ d.leading ∧ d.leading < bound then positional
    else scientificText d.significant d.leading

/-- The text of a bit pattern of a binary format; what is not a number has no sign. -/
def FloatLayout.text (layout : FloatLayout) (f : BinaryFormat) (bits : Nat) : String :=
  let sign := if f.negative bits then ['-'] else []
  match f.magnitude bits with
  | .nan => "NaN"
  | .infinite => String.ofList (sign ++ ['i', 'n', 'f'])
  | .zero => String.ofList (sign ++ (if layout.wholePoint then ['0', '.', '0'] else ['0']))
  | .finite span => String.ofList (sign ++ layout.decimal (span.shortest f.decimalDigits))

/-- The text of a single-precision number. -/
def Binary32.text (layout : FloatLayout) (x : Binary32) : String :=
  layout.text single x.bits.toNat

/-- The text of a double-precision number. -/
def Binary64.text (layout : FloatLayout) (x : Binary64) : String :=
  layout.text double x.bits.toNat

end Stagecraft.Number
