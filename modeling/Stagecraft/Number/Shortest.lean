/-!
# The fewest decimal digits inside an interval

A rounding interval is a positive rational together with the numbers that round to it. The
shortest decimal of an interval is the one with the fewest digits that lies in it, found on the
coarsest decimal grid that has a point inside: if a point of a grid lies in the interval, then so
does one of the two grid points next to the value. Of two points that lie inside, the nearer one
is taken, and the upper one in a tie.
-/

namespace Stagecraft.Number

/-- A positive value `value / den` and the interval from `low / den` to `high / den` of the numbers
that round to it; `closed` says whether the two ends do so as well. -/
structure Span where
  low : Nat
  value : Nat
  high : Nat
  den : Nat
  closed : Bool
deriving DecidableEq

/-- The positive decimal `digits * 10 ^ exponent`. -/
structure Decimal where
  digits : Nat
  exponent : Int
deriving DecidableEq, Inhabited

/-- A power of ten. -/
def tenTo (n : Nat) : Nat := Nat.pow 10 n

/-- A power of two. -/
def twoTo (n : Nat) : Nat := Nat.pow 2 n

/-- The decimal digits of a number, most significant first. -/
def digitsOf (n : Nat) : List Char := Nat.toDigits 10 n

/-- How many decimal digits a number has. -/
def digitCount (n : Nat) : Nat := (digitsOf n).length

namespace Span

/-- The exponent `k` with `10 ^ (k - 1) ≤ value < 10 ^ k`. -/
def magnitude (s : Span) : Int :=
  if s.den ≤ s.value then digitCount (s.value / s.den)
  else 1 - (digitCount ((s.den - 1) / s.value) : Int)

/-- The numerator of `n * 10 ^ e` and the factor that brings the numerators of the span to the same
denominator. -/
def scaled (s : Span) (e : Int) (n : Nat) : Nat × Nat :=
  if 0 ≤ e then (n * tenTo e.toNat * s.den, 1) else (n * s.den, tenTo (-e).toNat)

/-- Whether `n * 10 ^ e` lies in the interval. -/
def covers (s : Span) (e : Int) (n : Nat) : Bool :=
  let (x, f) := s.scaled e n
  if s.closed then s.low * f ≤ x && x ≤ s.high * f else s.low * f < x && x < s.high * f

/-- The largest grid point `n * 10 ^ e` that does not exceed the value. -/
def floorAt (s : Span) (e : Int) : Nat :=
  if 0 ≤ e then s.value / (s.den * tenTo e.toNat) else s.value * tenTo (-e).toNat / s.den

/-- Whether the value is at least half way from `n * 10 ^ e` to the next grid point. -/
def roundsUp (s : Span) (e : Int) (n : Nat) : Bool :=
  let (lower, f) := s.scaled e n
  let (upper, _) := s.scaled e (n + 1)
  lower + upper ≤ 2 * s.value * f

/-- The point with exponent `e` next to the value that lies in the interval, if there is one. -/
def onGrid? (s : Span) (e : Int) : Option Decimal :=
  let n := s.floorAt e
  match s.covers e n, s.covers e (n + 1) with
  | true, true => some ⟨if s.roundsUp e n then n + 1 else n, e⟩
  | true, false => some ⟨n, e⟩
  | false, true => some ⟨n + 1, e⟩
  | false, false => none

/-- The shortest decimal in the interval, looked for with up to `limit` digits. -/
def shortest (s : Span) (limit : Nat) : Decimal :=
  let k := s.magnitude
  ((List.range limit).findSome? fun (n : Nat) => s.onGrid? (k - (n + 1))).getD
    ⟨s.floorAt (k - limit), k - limit⟩

end Span

namespace Decimal

/-- The digits without the zeros at their end. -/
def significant (d : Decimal) : List Char :=
  ((digitsOf d.digits).reverse.dropWhile (· == '0')).reverse

/-- The exponent of the first digit. -/
def leading (d : Decimal) : Int := digitCount d.digits - 1 + d.exponent

end Decimal

end Stagecraft.Number
