import Mathlib.Algebra.Order.Field.Power
import Mathlib.Data.Rat.Cast.Order
import Mathlib.Order.Monotone.Basic
import Mathlib.Tactic.FieldSimp
import Mathlib.Tactic.Linarith
import Mathlib.Tactic.LinearCombination
import Mathlib.Tactic.NormNum
import Mathlib.Tactic.Positivity
import Mathlib.Tactic.Ring
import Stagecraft.Number.Binary

/-!
# Shortest decimals tell numbers apart

The search for the shortest decimal succeeds with as many digits as the format allows: there the
grid is finer than the rounding interval is wide, so one of the two grid points next to the value
lies inside. Rounding intervals of different numbers have no point in common, because neighbours
share one end only, and it belongs to one of the two. So numbers with the same shortest decimal are
the same (`BinaryFormat.eq_of_roundsTo`, `BinaryFormat.contains_shortest`).
-/

namespace Stagecraft.Number

/-! ## Powers of ten -/

/-- The number that a decimal stands for. -/
def Decimal.value (d : Decimal) : ℚ := d.digits * 10 ^ d.exponent

theorem ten_zpow_pos (e : ℤ) : (0 : ℚ) < 10 ^ e := zpow_pos (by norm_num) e

theorem ten_zpow_of_nonneg {e : ℤ} (h : 0 ≤ e) : (10 : ℚ) ^ e = tenTo e.toNat := by
  lift e to ℕ using h
  simp [tenTo]

theorem ten_zpow_mul_of_neg {e : ℤ} (h : ¬0 ≤ e) : (10 : ℚ) ^ e * tenTo (-e).toNat = 1 := by
  rw [← ten_zpow_of_nonneg (by omega), ← zpow_add₀ (by norm_num), add_neg_cancel, zpow_zero]

theorem lt_pow_digitCount (n : ℕ) : n < 10 ^ digitCount n :=
  (Nat.length_toDigits_le_iff (by decide) Nat.length_toDigits_pos).1 le_rfl

theorem pow_digitCount_le {n : ℕ} (h : 0 < n) : 10 ^ (digitCount n - 1) ≤ n := by
  by_contra hlt
  rcases Nat.eq_zero_or_pos (digitCount n - 1) with h0 | h0
  · rw [h0] at hlt
    omega
  · have := (Nat.length_toDigits_le_iff (by decide) h0).2 (not_le.1 hlt)
    rw [digitCount, digitsOf] at *
    omega

/-! ## The search -/

namespace Span

variable {s : Span} {e : ℤ} {n : ℕ}

/-- A number in the rounding interval. -/
def Contains (s : Span) (x : ℚ) : Prop :=
  if s.closed then s.low ≤ x * s.den ∧ x * s.den ≤ s.high
  else s.low < x * s.den ∧ x * s.den < s.high

/-- An interval around its value that is wider than the grid of the decimals with a number of
digits. -/
structure Resolved (s : Span) (digits : ℕ) : Prop where
  den_pos : 0 < s.den
  low_lt : s.low < s.value
  lt_high : s.value < s.high
  wide : s.value < (s.high - s.low) * 10 ^ (digits - 1)

theorem contains_of_lt {x : ℚ} (hl : s.low < x * s.den) (hh : x * s.den < s.high) :
    s.Contains x := by
  unfold Contains
  split
  · exact ⟨hl.le, hh.le⟩
  · exact ⟨hl, hh⟩

/-- Both parts of a scaled grid point carry the same factor. -/
theorem scaled_spec (s : Span) (e : ℤ) (n : ℕ) :
    ((s.scaled e n).1 : ℚ) = n * 10 ^ e * s.den * (s.scaled e n).2 ∧
      (0 : ℚ) < (s.scaled e n).2 := by
  unfold scaled
  split
  · next he =>
    rw [ten_zpow_of_nonneg he]
    exact ⟨by push_cast; ring, by norm_num⟩
  · next he =>
    have hten : (0 : ℚ) < tenTo (-e).toNat := by
      rw [tenTo, Nat.pow_eq]
      positivity
    refine ⟨?_, hten⟩
    push_cast
    linear_combination (-(n : ℚ) * s.den) * ten_zpow_mul_of_neg he

theorem covers_iff : s.covers e n = true ↔ s.Contains (n * 10 ^ e) := by
  obtain ⟨hx, hf⟩ := scaled_spec s e n
  have hle (a b : ℕ) (h : (b : ℚ) = n * 10 ^ e * s.den * (s.scaled e n).2) :
      (a * (s.scaled e n).2 ≤ b ↔ (a : ℚ) ≤ n * 10 ^ e * s.den) ∧
        (b ≤ a * (s.scaled e n).2 ↔ n * 10 ^ e * s.den ≤ (a : ℚ)) := by
    rw [← Nat.cast_le (α := ℚ), ← Nat.cast_le (α := ℚ), Nat.cast_mul, h]
    exact ⟨mul_le_mul_iff_of_pos_right hf, mul_le_mul_iff_of_pos_right hf⟩
  have hlow := hle s.low _ hx
  have hhigh := hle s.high _ hx
  unfold covers Contains
  cases s.closed with
  | true => simp [hlow.1, hhigh.2]
  | false => simp [← not_le, hlow.2, hhigh.1]

theorem floorAt_le (s : Span) (e : ℤ) : s.floorAt e * 10 ^ e * s.den ≤ (s.value : ℚ) := by
  unfold floorAt
  split
  · next he =>
    rw [ten_zpow_of_nonneg he]
    have := Nat.div_mul_le_self s.value (s.den * tenTo e.toNat)
    calc _ = ((s.value / (s.den * tenTo e.toNat) * (s.den * tenTo e.toNat) : ℕ) : ℚ) := by
          push_cast; ring
      _ ≤ s.value := by exact_mod_cast this
  · next he =>
    have := Nat.div_mul_le_self (s.value * tenTo (-e).toNat) s.den
    calc _ = ((s.value * tenTo (-e).toNat / s.den * s.den : ℕ) : ℚ) * 10 ^ e := by
          push_cast; ring
      _ ≤ ((s.value * tenTo (-e).toNat : ℕ) : ℚ) * 10 ^ e :=
          mul_le_mul_of_nonneg_right (by exact_mod_cast this) (ten_zpow_pos e).le
      _ = s.value := by
          push_cast
          linear_combination (s.value : ℚ) * ten_zpow_mul_of_neg he

theorem lt_floorAt_succ (hden : 0 < s.den) (e : ℤ) :
    (s.value : ℚ) < ((s.floorAt e + 1 : ℕ) : ℚ) * 10 ^ e * s.den := by
  unfold floorAt
  split
  · next he =>
    rw [ten_zpow_of_nonneg he]
    have hpos : 0 < s.den * tenTo e.toNat := Nat.mul_pos hden (Nat.pow_pos (by decide))
    have := Nat.lt_mul_of_div_lt (Nat.lt_succ_self (s.value / (s.den * tenTo e.toNat))) hpos
    calc (s.value : ℚ)
        < ((s.den * tenTo e.toNat * (s.value / (s.den * tenTo e.toNat) + 1) : ℕ) : ℚ) := by
          exact_mod_cast (mul_comm _ _).trans_gt this
      _ = _ := by push_cast; ring
  · next he =>
    have := Nat.lt_mul_of_div_lt (Nat.lt_succ_self (s.value * tenTo (-e).toNat / s.den)) hden
    calc (s.value : ℚ) = ((s.value * tenTo (-e).toNat : ℕ) : ℚ) * 10 ^ e := by
          push_cast
          linear_combination (-(s.value : ℚ)) * ten_zpow_mul_of_neg he
      _ < ((s.den * (s.value * tenTo (-e).toNat / s.den + 1) : ℕ) : ℚ) * 10 ^ e :=
          mul_lt_mul_of_pos_right (by exact_mod_cast (mul_comm _ _).trans_gt this)
            (ten_zpow_pos e)
      _ = _ := by push_cast; ring

/-- The magnitude is a lower bound. -/
theorem ten_zpow_magnitude_le (hpos : 0 < s.value) (hden : 0 < s.den) :
    10 ^ (s.magnitude - 1) * s.den ≤ (s.value : ℚ) := by
  unfold magnitude
  split
  · next hle =>
    have hcount : 1 ≤ digitCount (s.value / s.den) := Nat.length_toDigits_pos
    have hquot := pow_digitCount_le (Nat.div_pos hle hden)
    have hexp : (digitCount (s.value / s.den) : ℤ) - 1 =
        (digitCount (s.value / s.den) - 1 : ℕ) := by omega
    rw [hexp, zpow_natCast]
    exact_mod_cast (Nat.mul_le_mul_right s.den hquot).trans (Nat.div_mul_le_self _ _)
  · next hlt =>
    have hlt := Nat.lt_mul_of_div_lt (lt_pow_digitCount ((s.den - 1) / s.value)) hpos
    have hden : s.den ≤ s.value * 10 ^ digitCount ((s.den - 1) / s.value) := by
      rw [mul_comm] at hlt
      omega
    rw [sub_right_comm, sub_self, zero_sub, zpow_neg, zpow_natCast]
    rw [inv_mul_le_iff₀ (by positivity), mul_comm]
    exact_mod_cast hden

/-- What is found on a grid lies in the interval. -/
theorem contains_of_onGrid? {d : Decimal} (h : s.onGrid? e = some d) : s.Contains d.value := by
  unfold onGrid? at h
  dsimp only at h
  split at h
  · next hn hn' =>
    cases h
    unfold Decimal.value
    split
    · exact covers_iff.1 hn'
    · exact covers_iff.1 hn
  · next hn _ =>
    cases h
    exact covers_iff.1 hn
  · next _ hn' =>
    cases h
    exact covers_iff.1 hn'
  · cases h

/-- A grid finer than the interval is wide has a point inside, next to the value. -/
theorem isSome_onGrid? (hden : 0 < s.den) (hlow : s.low < s.value) (hhigh : s.value < s.high)
    (hfine : (10 : ℚ) ^ e * s.den < s.high - s.low) : (s.onGrid? e).isSome := by
  have hfloor := floorAt_le s e
  have hceil := lt_floorAt_succ hden e
  have hlow : (s.low : ℚ) < s.value := by exact_mod_cast hlow
  have hhigh : (s.value : ℚ) < s.high := by exact_mod_cast hhigh
  have hone : s.covers e (s.floorAt e) = true ∨ s.covers e (s.floorAt e + 1) = true := by
    rcases lt_or_ge (s.low : ℚ) (s.floorAt e * 10 ^ e * s.den) with hin | hout
    · exact .inl (covers_iff.2 (contains_of_lt hin (hfloor.trans_lt hhigh)))
    · refine .inr (covers_iff.2 (contains_of_lt (hlow.trans hceil) ?_))
      -- the point above lies one step above one that is too low
      push_cast
      linarith
  unfold onGrid?
  dsimp only
  rcases hone with h | h <;> split <;> simp_all

/-- The shortest decimal lies in the interval if the interval is wide enough for the digits at
hand. -/
theorem contains_shortest {limit : ℕ} (h : s.Resolved (limit + 1)) :
    s.Contains (s.shortest (limit + 1)).value := by
  unfold shortest
  dsimp only
  cases hfind : (List.range (limit + 1)).findSome?
      fun n : ℕ => s.onGrid? (s.magnitude - (n + 1)) with
  | some d =>
    obtain ⟨n, -, hn⟩ := List.exists_of_findSome?_eq_some hfind
    exact contains_of_onGrid? hn
  | none =>
    have hlast := List.findSome?_eq_none_iff.1 hfind limit (List.mem_range.2 (Nat.lt_succ_self _))
    have hmag := ten_zpow_magnitude_le (Nat.zero_lt_of_lt h.low_lt) h.den_pos
    have hwide : (s.value : ℚ) < (s.high - s.low) * 10 ^ limit := by
      have hle : s.low ≤ s.high := (h.low_lt.trans h.lt_high).le
      exact_mod_cast h.wide
    have hfine : (10 : ℚ) ^ (s.magnitude - (limit + 1)) * s.den < s.high - s.low := by
      have hsplit : (10 : ℚ) ^ (s.magnitude - 1) =
          10 ^ (s.magnitude - (limit + 1)) * 10 ^ limit := by
        rw [← zpow_natCast, ← zpow_add₀ (by norm_num)]
        congr 1
        ring
      rw [hsplit] at hmag
      have hpow : (0 : ℚ) < 10 ^ limit := by positivity
      nlinarith
    have hsome := isSome_onGrid? h.den_pos h.low_lt h.lt_high hfine
    rw [hlast] at hsome
    cases hsome

end Span

/-! ## Rounding intervals -/

namespace BinaryFormat

theorem twoTo_eq_zpow_mul (q : ℤ) : (twoTo q.toNat : ℚ) = 2 ^ q * twoTo (-q).toNat := by
  simp only [twoTo, Nat.pow_eq]
  push_cast
  rw [← zpow_natCast, ← zpow_natCast, ← zpow_add₀ (by norm_num)]
  congr 1
  omega

/-- The lower end of the interval that rounds to `m * 2 ^ q`. -/
def lowerEnd (m : ℕ) (q : ℤ) (narrow : Bool) : ℚ :=
  (4 * m - if narrow then 1 else 2) * 2 ^ (q - 2)

/-- The upper end of the interval that rounds to `m * 2 ^ q`. -/
def upperEnd (m : ℕ) (q : ℤ) : ℚ := (4 * m + 2) * 2 ^ (q - 2)

section

variable {m : ℕ} {q : ℤ} {narrow : Bool}

theorem lowerEnd_lt_upperEnd : lowerEnd m q narrow < upperEnd m q := by
  refine mul_lt_mul_of_pos_right ?_ (zpow_pos (by norm_num) _)
  cases narrow <;> norm_num <;> linarith

/-- The ends of an interval as a span has them. -/
theorem ends_spanOf (q : ℤ) (narrow : Bool) (hm : 0 < m) :
    ((spanOf m q narrow).low : ℚ) = lowerEnd m q narrow * (spanOf m q narrow).den ∧
      ((spanOf m q narrow).high : ℚ) = upperEnd m q * (spanOf m q narrow).den := by
  have hup := twoTo_eq_zpow_mul (q - 2)
  unfold spanOf lowerEnd upperEnd
  constructor
  · have hle : (if narrow then 1 else 2) ≤ 4 * m := by split <;> omega
    push_cast [Nat.cast_sub hle]
    rw [hup, mul_assoc]
  · push_cast
    rw [hup, mul_assoc]

theorem contains_spanOf (hm : 0 < m) {x : ℚ} :
    (spanOf m q narrow).Contains x ↔
      if m % 2 = 0 then lowerEnd m q narrow ≤ x ∧ x ≤ upperEnd m q
      else lowerEnd m q narrow < x ∧ x < upperEnd m q := by
  have hden : (0 : ℚ) < (spanOf m q narrow).den := by
    exact_mod_cast (Nat.pow_pos (by decide) : 0 < twoTo _)
  obtain ⟨hlow, hhigh⟩ := ends_spanOf q narrow hm
  have hclosed : (spanOf m q narrow).closed = true ↔ m % 2 = 0 := beq_iff_eq
  unfold Span.Contains
  simp only [hclosed, hlow, hhigh, mul_le_mul_iff_of_pos_right hden,
    mul_lt_mul_iff_of_pos_right hden]

/-- An interval is wider than the grid of the decimals with more digits than its significand
needs. -/
theorem resolved_spanOf {bits digits : ℕ} (hm : 0 < m) (hlt : m < 2 ^ (bits + 1))
    (hnarrow : narrow = true → m = 2 ^ bits) (hdigits : 2 ^ (bits + 1) < 10 ^ (digits - 1)) :
    (spanOf m q narrow).Resolved digits where
  den_pos := Nat.pow_pos (by decide)
  low_lt := by
    refine Nat.mul_lt_mul_of_pos_right ?_ (Nat.pow_pos (by decide))
    split <;> omega
  lt_high := Nat.mul_lt_mul_of_pos_right (by omega) (Nat.pow_pos (by decide))
  wide := by
    have hup : 0 < twoTo (q - 2).toNat := Nat.pow_pos (by decide)
    simp only [spanOf]
    rw [← Nat.sub_mul, mul_right_comm _ (twoTo _)]
    refine Nat.mul_lt_mul_of_pos_right ?_ hup
    cases narrow with
    | false =>
      have : 4 * m + 2 - (4 * m - 2) = 4 := by omega
      simp only [Bool.false_eq_true, if_false, this]
      omega
    | true =>
      have : 4 * m + 2 - (4 * m - 1) = 3 := by omega
      simp only [if_true, this]
      rw [pow_succ] at hdigits
      have := hnarrow rfl
      omega

end

section

variable (f : BinaryFormat)

/-- The significand of the number with certain bits, without a sign. -/
def significand (b : ℕ) : ℕ :=
  b % 2 ^ f.fractionBits + if b / 2 ^ f.fractionBits = 0 then 0 else 2 ^ f.fractionBits

/-- The exponent that goes with the significand. The lowest one serves subnormal numbers too. -/
def unit (b : ℕ) : ℤ :=
  2 - twoTo (f.exponentBits - 1) - f.fractionBits + (b / 2 ^ f.fractionBits - 1 : ℕ)

/-- Whether the number below is in a narrower binade. -/
def isNarrow (b : ℕ) : Bool := b % 2 ^ f.fractionBits = 0 && 1 < b / 2 ^ f.fractionBits

/-- The rounding interval of the number with certain bits. -/
def spanAt (b : ℕ) : Span := spanOf (f.significand b) (f.unit b) (f.isNarrow b)

/-- What a bit pattern stands for depends on the bits without the sign. -/
theorem magnitude_eq (bits : ℕ) :
    let b := bits % 2 ^ (f.fractionBits + f.exponentBits)
    f.magnitude bits =
      if b / 2 ^ f.fractionBits = 2 ^ f.exponentBits - 1 then
        if b % 2 ^ f.fractionBits = 0 then .infinite else .nan
      else if b = 0 then .zero else .finite (f.spanAt b) := by
  intro b
  have hfraction : bits % twoTo f.fractionBits = b % 2 ^ f.fractionBits := by
    exact (Nat.mod_mod_of_dvd bits (pow_dvd_pow 2 (Nat.le_add_right _ _))).symm
  have hexponent : bits / twoTo f.fractionBits % twoTo f.exponentBits = b / 2 ^ f.fractionBits := by
    simp only [b, pow_add]
    exact (Nat.mod_mul_right_div_self bits _ _).symm
  unfold magnitude
  dsimp only
  rw [hfraction, hexponent]
  clear_value b
  refine ite_congr rfl (fun _ => rfl) fun _ => ?_
  by_cases he : b / 2 ^ f.fractionBits = 0
  · have hb : b % 2 ^ f.fractionBits = b :=
      Nat.mod_eq_of_lt ((Nat.div_eq_zero_iff_lt (Nat.two_pow_pos _)).1 he)
    simp [he, hb, spanAt, significand, unit, isNarrow, twoTo]
  · have hb : b ≠ 0 := fun h => he (by rw [h, Nat.zero_div])
    have hunit : ((b / 2 ^ f.fractionBits - 1 : ℕ) : ℤ) = (b / 2 ^ f.fractionBits : ℕ) - 1 := by
      omega
    rw [if_neg he, if_neg hb, spanAt, significand, unit, if_neg he, hunit, add_comm (b % _)]
    rfl

variable {f} {b : ℕ}

theorem significand_pos (hb : 0 < b) : 0 < f.significand b := by
  unfold significand
  split
  · next h =>
    rw [Nat.mod_eq_of_lt ((Nat.div_eq_zero_iff_lt (Nat.two_pow_pos _)).1 h)]
    exact hb
  · exact Nat.add_pos_right _ (Nat.two_pow_pos _)

theorem significand_lt : f.significand b < 2 ^ (f.fractionBits + 1) := by
  have := Nat.mod_lt b (Nat.two_pow_pos f.fractionBits)
  unfold significand
  split <;> omega

theorem significand_of_isNarrow (h : f.isNarrow b = true) :
    f.significand b = 2 ^ f.fractionBits := by
  simp only [isNarrow, Bool.and_eq_true, decide_eq_true_eq] at h
  rw [significand, h.1, if_neg (by omega), zero_add]

/-- The significand is even as the bits are. -/
theorem significand_mod_two (hf : 0 < f.fractionBits) : f.significand b % 2 = b % 2 := by
  have heven : 2 ∣ 2 ^ f.fractionBits := dvd_pow_self 2 hf.ne'
  have hmod := Nat.mod_mod_of_dvd b heven
  unfold significand
  split <;> omega

/-- Neighbours share an end of their intervals. -/
theorem lowerEnd_succ (f : BinaryFormat) (b : ℕ) :
    lowerEnd (f.significand (b + 1)) (f.unit (b + 1)) (f.isNarrow (b + 1)) =
      upperEnd (f.significand b) (f.unit b) := by
  have hpos := Nat.two_pow_pos f.fractionBits
  obtain ⟨e, r, hr, rfl⟩ : ∃ e r, r < 2 ^ f.fractionBits ∧ b = 2 ^ f.fractionBits * e + r :=
    ⟨_, _, Nat.mod_lt b hpos, (Nat.div_add_mod b _).symm⟩
  have hdiv {e r : ℕ} (hr : r < 2 ^ f.fractionBits) :
      (2 ^ f.fractionBits * e + r) / 2 ^ f.fractionBits = e := by
    rw [Nat.mul_add_div hpos, Nat.div_eq_of_lt hr, add_zero]
  have hmod {e r : ℕ} (hr : r < 2 ^ f.fractionBits) :
      (2 ^ f.fractionBits * e + r) % 2 ^ f.fractionBits = r := by
    rw [mul_comm, Nat.mul_add_mod_of_lt hr]
  rcases Nat.lt_or_ge (r + 1) (2 ^ f.fractionBits) with hnext | hlast
  · -- the next significand
    rw [add_assoc]
    simp only [lowerEnd, upperEnd, significand, unit, isNarrow, hdiv hr, hmod hr, hdiv hnext,
      hmod hnext]
    refine congrArg (· * _) ?_
    simp
    ring
  · -- the next exponent
    have hsucc : 2 ^ f.fractionBits * e + r + 1 = 2 ^ f.fractionBits * (e + 1) + 0 := by
      rw [Nat.mul_succ]
      omega
    have hr' : (r : ℚ) = 2 ^ f.fractionBits - 1 := by
      rw [eq_sub_iff_add_eq]
      exact_mod_cast (Nat.le_antisymm hr hlast)
    rw [hsucc]
    simp only [lowerEnd, upperEnd, significand, unit, isNarrow, hdiv hr, hmod hr, hdiv hpos,
      hmod hpos]
    cases e with
    | zero =>
      refine congrArg (· * _) ?_
      simp [hr']
      ring
    | succ e =>
      have hzpow : (2 : ℚ) ^ (2 - (twoTo (f.exponentBits - 1) : ℤ) - f.fractionBits + (e + 1) - 2) =
          2 ^ (2 - (twoTo (f.exponentBits - 1) : ℤ) - f.fractionBits + e - 2) * 2 := by
        rw [← zpow_add_one₀ (by norm_num)]
        congr 1
        ring
      simp [hr', hzpow]
      ring

theorem strictMono_upperEnd (f : BinaryFormat) :
    StrictMono fun b => upperEnd (f.significand b) (f.unit b) :=
  strictMono_nat_of_lt_succ fun b => by
    rw [← lowerEnd_succ]
    exact lowerEnd_lt_upperEnd

/-- Intervals have no point in common. -/
theorem not_contains_of_lt (hf : 0 < f.fractionBits) {a b : ℕ} (ha : 0 < a) (hab : a < b) {x : ℚ}
    (h : (f.spanAt a).Contains x) : ¬(f.spanAt b).Contains x := by
  intro h'
  obtain ⟨c, rfl⟩ : ∃ c, b = c + 1 := ⟨b - 1, by omega⟩
  rw [spanAt, contains_spanOf (significand_pos ha), significand_mod_two hf] at h
  rw [spanAt, contains_spanOf (significand_pos (Nat.succ_pos c)), significand_mod_two hf,
    lowerEnd_succ] at h'
  have hle : upperEnd (f.significand a) (f.unit a) ≤ upperEnd (f.significand c) (f.unit c) :=
    (strictMono_upperEnd f).monotone (Nat.lt_succ_iff.1 hab)
  by_cases heven : a % 2 = 0 ∧ (c + 1) % 2 = 0
  · -- two even numbers have a third one in between
    have hlt : upperEnd (f.significand a) (f.unit a) < upperEnd (f.significand c) (f.unit c) :=
      strictMono_upperEnd f (by omega)
    rw [if_pos heven.1] at h
    rw [if_pos heven.2] at h'
    exact absurd (h.2.trans_lt hlt) (not_lt.2 h'.1)
  · split at h <;> split at h'
    · exact heven ⟨‹_›, ‹_›⟩
    · exact absurd (h.2.trans hle) (not_le.2 h'.1)
    · exact absurd (h.2.trans_le hle) (not_lt.2 h'.1)
    · exact absurd (h.2.trans_le hle) (not_lt.2 h'.1.le)

theorem pos_of_contains (hb : 0 < b) {x : ℚ} (h : (f.spanAt b).Contains x) : 0 < x := by
  have hlower : 0 < lowerEnd (f.significand b) (f.unit b) (f.isNarrow b) := by
    have hm : (1 : ℚ) ≤ f.significand b := by exact_mod_cast significand_pos hb
    refine mul_pos ?_ (zpow_pos (by norm_num) _)
    split <;> linarith
  rw [spanAt, contains_spanOf (significand_pos hb)] at h
  split at h
  · exact hlower.trans_le h.1
  · exact hlower.trans h.1

/-- The number with certain bits, without a sign, is the one that `x` rounds to. -/
def RoundsTo (f : BinaryFormat) (b : ℕ) (x : ℚ) : Prop :=
  if b = 0 then x = 0 else (f.spanAt b).Contains x

/-- No two numbers are the ones that something rounds to. -/
theorem eq_of_roundsTo (hf : 0 < f.fractionBits) {a b : ℕ} {x : ℚ} (h : f.RoundsTo a x)
    (h' : f.RoundsTo b x) : a = b := by
  unfold RoundsTo at h h'
  split at h <;> split at h'
  · omega
  · next hb =>
    exact absurd h (pos_of_contains (Nat.pos_of_ne_zero hb) h').ne'
  · next ha _ =>
    exact absurd h' (pos_of_contains (Nat.pos_of_ne_zero ha) h).ne'
  · next ha hb =>
    rcases Nat.lt_trichotomy a b with hlt | heq | hlt
    · exact absurd h' (not_contains_of_lt hf (Nat.pos_of_ne_zero ha) hlt h)
    · exact heq
    · exact absurd h (not_contains_of_lt hf (Nat.pos_of_ne_zero hb) hlt h')

/-- A format with a fraction and enough digits to tell its numbers apart. -/
structure Discerned (f : BinaryFormat) : Prop where
  fraction_pos : 0 < f.fractionBits
  digits : 2 ^ (f.fractionBits + 1) < 10 ^ (f.decimalDigits - 1)

theorem Discerned.single : single.Discerned := ⟨by decide, by decide⟩

theorem Discerned.double : double.Discerned := ⟨by decide, by decide⟩

/-- The shortest decimal of a number rounds to it. -/
theorem contains_shortest (hf : f.Discerned) (hb : 0 < b) :
    (f.spanAt b).Contains ((f.spanAt b).shortest f.decimalDigits).value := by
  obtain ⟨limit, hlimit⟩ : ∃ limit, f.decimalDigits = limit + 1 := by
    refine ⟨f.decimalDigits - 1, (Nat.succ_pred_eq_of_pos (Nat.pos_of_ne_zero fun h => ?_)).symm⟩
    have := hf.digits
    rw [h, Nat.zero_sub, pow_zero] at this
    exact absurd this (not_lt.2 Nat.one_le_two_pow)
  have hdigits := hf.digits
  rw [hlimit] at hdigits ⊢
  exact Span.contains_shortest
    (resolved_spanOf (significand_pos hb) significand_lt significand_of_isNarrow hdigits)

end

end BinaryFormat

end Stagecraft.Number
