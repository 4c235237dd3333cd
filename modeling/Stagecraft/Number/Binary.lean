import Stagecraft.Number.Shortest

/-!
# Binary floating-point numbers

Numbers of the two IEEE 754 binary interchange formats are kept as their bits, so that nothing is
lost between reading and writing them. A finite number decodes into `m * 2 ^ q`, and from there into
the interval of the reals that round to it.
-/

namespace Stagecraft.Number

/-- The widths of the fields of a binary interchange format, and the digits that always suffice
to tell its numbers apart. -/
structure BinaryFormat where
  fractionBits : Nat
  exponentBits : Nat
  decimalDigits : Nat

/-- Single precision. -/
def single : BinaryFormat := ⟨23, 8, 9⟩

/-- Double precision. -/
def double : BinaryFormat := ⟨52, 11, 17⟩

/-- A number without its sign. -/
inductive Magnitude where
  | nan
  | infinite
  | zero
  | finite (span : Span)
deriving DecidableEq

namespace BinaryFormat

/-- Whether the sign bit is set. -/
def negative (f : BinaryFormat) (bits : Nat) : Bool :=
  bits.testBit (f.fractionBits + f.exponentBits)

/-- The reals that round to `m * 2 ^ q`. Half a unit belongs to it on both sides, but below a
power of two (`narrow`) only a quarter; the ends belong to the even neighbour. -/
def spanOf (m : Nat) (q : Int) (narrow : Bool) : Span :=
  let e := q - 2
  let up := twoTo e.toNat
  let below := if narrow then 1 else 2
  ⟨(4 * m - below) * up, 4 * m * up, (4 * m + 2) * up, twoTo (-e).toNat, m % 2 == 0⟩

/-- The number that a bit pattern stands for. -/
def magnitude (f : BinaryFormat) (bits : Nat) : Magnitude :=
  let fraction := bits % twoTo f.fractionBits
  let exponent := bits / twoTo f.fractionBits % twoTo f.exponentBits
  let lowest : Int := 2 - twoTo (f.exponentBits - 1) - f.fractionBits
  if exponent = twoTo f.exponentBits - 1 then
    if fraction = 0 then .infinite else .nan
  else if exponent = 0 then
    if fraction = 0 then .zero else .finite (spanOf fraction lowest false)
  else
    .finite (spanOf (twoTo f.fractionBits + fraction) (lowest + (exponent - 1))
      (fraction = 0 && 1 < exponent))

end BinaryFormat

/-- A single-precision number, as its bits. -/
structure Binary32 where
  bits : UInt32
deriving DecidableEq, Inhabited, Repr

/-- A double-precision number, as its bits. -/
structure Binary64 where
  bits : UInt64
deriving DecidableEq, Inhabited, Repr

end Stagecraft.Number
