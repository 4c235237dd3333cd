import Mathlib.Data.List.Basic
import Mathlib.Data.List.TakeWhile
import Std.Data.String.ToInt
import Stagecraft.Number.FloatText
import Stagecraft.Proofs.ShortestDecimals

/-!
# Floating-point numbers are told apart by their texts

The digits of a text, the place of its point and its exponent give back the decimal that was written
(`value_eq_of_decimal`), and the shortest decimal of a number gives back the number. So two numbers
with the same text have the same bits, unless neither is a number (`BinaryFormat.eq_of_text`).
-/

namespace Stagecraft

/-- A run of characters of one sort ends where a character of another sort follows, so two texts
that start with one are equal only run by run. -/
theorem token_append_inj {p : Char → Bool} {a b r s : List Char} (ha : ∀ c ∈ a, p c = true)
    (hb : ∀ c ∈ b, p c = true) (hr : ∀ c ∈ r.head?, p c = false) (hs : ∀ c ∈ s.head?, p c = false)
    (h : a ++ r = b ++ s) : a = b ∧ r = s := by
  have hend {t : List Char} (ht : ∀ c ∈ t.head?, p c = false) : t.takeWhile p = [] := by
    cases t with
    | nil => rfl
    | cons c t => simp [ht c rfl]
  have htake := congrArg (List.takeWhile p) h
  rw [List.takeWhile_append_of_pos ha, List.takeWhile_append_of_pos hb, hend hr, hend hs,
    List.append_nil, List.append_nil] at htake
  subst htake
  exact ⟨rfl, List.append_cancel_left h⟩

namespace Number

/-! ## Reading digits around a point -/

/-- The number that digits stand for, most significant first. -/
def ofDigits (digits : List Char) : ℕ := Nat.ofDigitChars 10 digits 0

/-- What is read from digits with or without a point among them. -/
def reading (text : List Char) : ℚ :=
  ofDigits (text.filter Char.isDigit) / 10 ^ ((text.dropWhile (· ≠ '.')).length - 1)

/-- Characters that are all digits. -/
def AllDigits (cs : List Char) : Prop := ∀ c ∈ cs, c.isDigit = true

theorem AllDigits.append {cs ds : List Char} (h : AllDigits cs) (h' : AllDigits ds) :
    AllDigits (cs ++ ds) := List.forall_mem_append.2 ⟨h, h'⟩

theorem allDigits_replicate (n : ℕ) : AllDigits (List.replicate n '0') := by
  intro c hc
  rw [List.eq_of_mem_replicate hc]
  rfl

theorem allDigits_digitsOf (n : ℕ) : AllDigits (digitsOf n) := fun _ hc =>
  Nat.isDigit_of_mem_toDigits (by decide) (by decide) hc

theorem ofDigits_digitsOf (n : ℕ) : ofDigits (digitsOf n) = n := Nat.ofDigitChars_ten_toDigits

theorem ofDigits_append_replicate (cs : List Char) (n : ℕ) :
    ofDigits (cs ++ List.replicate n '0') = 10 ^ n * ofDigits cs := by
  rw [ofDigits, Nat.ofDigitChars_append, Nat.ofDigitChars_replicate_zero]
  rfl

theorem ofDigits_replicate_append (cs : List Char) (n : ℕ) :
    ofDigits (List.replicate n '0' ++ cs) = ofDigits cs := by
  rw [ofDigits, Nat.ofDigitChars_append, Nat.ofDigitChars_replicate_zero, Nat.mul_zero]
  rfl

section

variable {cs ds : List Char}

theorem ne_point_of_isDigit {c : Char} (h : c.isDigit = true) : c ≠ '.' := by
  rintro rfl
  cases h

theorem reading_whole (h : AllDigits cs) : reading cs = ofDigits cs := by
  have hdrop : cs.dropWhile (· ≠ '.') = [] :=
    List.dropWhile_eq_nil_iff.2 fun c hc => by simpa using ne_point_of_isDigit (h c hc)
  rw [reading, List.filter_eq_self.2 h, hdrop]
  simp

theorem reading_point (h : AllDigits cs) (h' : AllDigits ds) :
    reading (cs ++ '.' :: ds) = ofDigits (cs ++ ds) / 10 ^ ds.length := by
  have hdrop : (cs ++ '.' :: ds).dropWhile (· ≠ '.') = '.' :: ds := by
    rw [List.dropWhile_append_of_pos fun c hc => by simpa using ne_point_of_isDigit (h c hc)]
    rfl
  rw [reading, hdrop, List.filter_append, List.filter_eq_self.2 h,
    List.filter_cons_of_neg (by decide), List.filter_eq_self.2 h', List.length_cons,
    Nat.add_sub_cancel]

/-! ## Layouts -/

variable {digits : List Char} (hdigits : AllDigits digits) (leading : ℤ)

/-- The number whose digits start at an exponent. -/
def scaledAt (digits : List Char) (leading : ℤ) : ℚ :=
  ofDigits digits * 10 ^ (leading + 1 - digits.length)

include hdigits

theorem reading_positionalText (wholePoint : Bool) :
    reading (positionalText digits leading wholePoint) = scaledAt digits leading := by
  unfold positionalText
  split
  · next hneg =>
    have hzeros : AllDigits (List.replicate ((-leading).toNat - 1) '0') := allDigits_replicate _
    have hread : reading ('0' :: '.' :: (List.replicate ((-leading).toNat - 1) '0' ++ digits)) =
        ofDigits (['0'] ++ (List.replicate ((-leading).toNat - 1) '0' ++ digits)) /
          10 ^ (List.replicate ((-leading).toNat - 1) '0' ++ digits).length :=
      reading_point (allDigits_replicate 1) (hzeros.append hdigits)
    have hdigit : ofDigits (['0'] ++ (List.replicate ((-leading).toNat - 1) '0' ++ digits)) =
        ofDigits digits := by
      rw [← List.replicate_one, ofDigits_replicate_append, ofDigits_replicate_append]
    rw [hread, hdigit, scaledAt, div_eq_mul_inv, ← zpow_natCast, ← zpow_neg]
    congr 2
    rw [List.length_append, List.length_replicate]
    omega
  · next hnonneg =>
    dsimp only
    split
    · next hempty =>
      -- all digits stand before the point
      have hlen : digits.length ≤ leading.toNat + 1 :=
        List.drop_eq_nil_iff.1 (List.isEmpty_iff.1 hempty)
      have hfront := hdigits.append (allDigits_replicate (leading.toNat + 1 - digits.length))
      have hpow : ((10 : ℚ) ^ (leading.toNat + 1 - digits.length) : ℚ) =
          10 ^ (leading + 1 - digits.length) := by
        rw [← zpow_natCast]
        congr 1
        omega
      rw [List.take_of_length_le hlen, scaledAt, ← hpow]
      cases wholePoint with
      | false =>
        simp only [Bool.false_eq_true, if_false, List.append_nil]
        rw [reading_whole hfront, ofDigits_append_replicate]
        push_cast
        ring
      | true =>
        have hread := reading_point hfront (allDigits_replicate 1)
        rw [if_pos rfl, ← List.replicate_one, hread, List.append_assoc,
          ← List.replicate_add, ofDigits_append_replicate, List.length_replicate]
        push_cast
        ring
    · next hplaces =>
      have hlen : leading.toNat + 1 < digits.length := by
        by_contra hle
        exact hplaces (List.isEmpty_iff.2 (List.drop_eq_nil_iff.2 (not_lt.1 hle)))
      have htake : AllDigits (digits.take (leading.toNat + 1)) :=
        fun c hc => hdigits c (List.mem_of_mem_take hc)
      have hdrop : AllDigits (digits.drop (leading.toNat + 1)) :=
        fun c hc => hdigits c (List.mem_of_mem_drop hc)
      rw [Nat.sub_eq_zero_of_le hlen.le, List.replicate_zero, List.append_nil,
        reading_point htake hdrop, List.take_append_drop, scaledAt, div_eq_mul_inv,
        ← zpow_natCast, ← zpow_neg]
      congr 2
      rw [List.length_drop]
      omega

/-- Characters of digits with or without a point among them. -/
def IsPlain (cs : List Char) : Prop := ∀ c ∈ cs, c.isDigit = true ∨ c = '.'

theorem isPlain_positionalText (wholePoint : Bool) :
    IsPlain (positionalText digits leading wholePoint) := by
  have hplain {cs : List Char} (h : AllDigits cs) : IsPlain cs := fun c hc => .inl (h c hc)
  have happend {cs ds : List Char} (h : AllDigits cs) (h' : AllDigits ds) :
      IsPlain (cs ++ '.' :: ds) := by
    refine List.forall_mem_append.2 ⟨hplain h, List.forall_mem_cons.2 ⟨.inr rfl, hplain h'⟩⟩
  have hfront (whole : ℕ) :
      AllDigits (digits.take whole ++ List.replicate (whole - digits.length) '0') :=
    AllDigits.append (fun c hc => hdigits c (List.mem_of_mem_take hc)) (allDigits_replicate _)
  unfold positionalText
  split
  · exact happend (allDigits_replicate 1) ((allDigits_replicate _).append hdigits)
  · dsimp only
    split
    · cases wholePoint with
      | false =>
        rw [if_neg Bool.false_ne_true, List.append_nil]
        exact hplain (hfront _)
      | true => exact happend (hfront _) (allDigits_replicate 1)
    · exact happend (hfront _) fun c hc => hdigits c (List.mem_of_mem_drop hc)

/-- An exponent follows digits that are laid out around the place of exponent zero. -/
theorem exists_mantissa : ∃ m : List Char,
    scientificText digits leading = m ++ 'e' :: (toString leading).toList ∧
      IsPlain m ∧ reading m * 10 ^ leading = scaledAt digits leading := by
  have hscaled : scaledAt digits 0 * 10 ^ leading = scaledAt digits leading := by
    rw [scaledAt, scaledAt, mul_assoc, ← zpow_add₀ (by norm_num)]
    congr 2
    ring
  unfold scientificText
  rw [← hscaled]
  match digits, hdigits with
  | [], _ => exact ⟨[], rfl, fun _ hc => (nomatch hc), by simp [scaledAt, reading, ofDigits]⟩
  | [d], h =>
    refine ⟨[d], rfl, fun c hc => .inl (h c hc), ?_⟩
    rw [reading_whole h]
    simp [scaledAt]
  | d :: d' :: rest, h =>
    have hd : AllDigits [d] := fun c hc => h c (by simp_all)
    have hrest : AllDigits (d' :: rest) := fun c hc => h c (List.mem_cons_of_mem _ hc)
    refine ⟨d :: '.' :: d' :: rest, rfl, fun c hc => ?_, ?_⟩
    · rcases List.mem_cons.1 hc with rfl | hc
      · exact .inl (hd c (by simp))
      · exact (List.mem_cons.1 hc).symm.imp (hrest c) id
    · have hread : reading (d :: '.' :: d' :: rest) = _ := reading_point hd hrest
      rw [hread, scaledAt, div_eq_mul_inv, ← zpow_natCast, ← zpow_neg]
      congr 3

end

/-! ## Decimals -/

theorem allDigits_significant (d : Decimal) : AllDigits d.significant := fun c hc =>
  allDigits_digitsOf d.digits c
    (List.mem_reverse.1 ((List.dropWhile_sublist _).mem (List.mem_reverse.1 hc)))

/-- The digits of a decimal end in the zeros that are left out. -/
theorem exists_zeros (d : Decimal) :
    ∃ n, digitsOf d.digits = d.significant ++ List.replicate n '0' := by
  have hzeros : ∀ c ∈ (digitsOf d.digits).reverse.takeWhile (· == '0'), c = '0' := fun c hc =>
    by simpa using List.mem_takeWhile_imp hc
  have hsplit := (digitsOf d.digits).reverse.takeWhile_append_dropWhile (p := (· == '0'))
  rw [List.eq_replicate_of_mem hzeros] at hsplit
  have hrev := congrArg List.reverse hsplit
  rw [List.reverse_append, List.reverse_replicate, List.reverse_reverse] at hrev
  exact ⟨_, hrev.symm⟩

theorem scaledAt_leading (d : Decimal) : scaledAt d.significant d.leading = d.value := by
  obtain ⟨n, hn⟩ := exists_zeros d
  have hdigits : d.digits = 10 ^ n * ofDigits d.significant := by
    rw [← ofDigits_append_replicate, ← hn, ofDigits_digitsOf]
  have hcount : (digitCount d.digits : ℤ) = d.significant.length + n := by
    rw [digitCount, hn, List.length_append, List.length_replicate]
    push_cast
    rfl
  rw [scaledAt, Decimal.value, Decimal.leading, hcount, hdigits]
  push_cast
  rw [mul_comm ((10 : ℚ) ^ n), mul_assoc, ← zpow_natCast, ← zpow_add₀ (by norm_num)]
  congr 2
  ring

/-- A decimal is written around its point, or with an exponent after an `e`. -/
theorem decimal_cases (d : Decimal) :
    (IsPlain (literalLayout.decimal d) ∧ reading (literalLayout.decimal d) = d.value) ∨
      ∃ m, literalLayout.decimal d = m ++ 'e' :: (toString d.leading).toList ∧ IsPlain m ∧
        reading m * 10 ^ d.leading = d.value := by
  have hdigits := allDigits_significant d
  unfold FloatLayout.decimal
  simp only [literalLayout]
  split
  · refine .inl ⟨isPlain_positionalText hdigits _ _, ?_⟩
    rw [reading_positionalText hdigits, scaledAt_leading]
  · obtain ⟨m, htext, hplain, hreading⟩ := exists_mantissa hdigits d.leading
    exact .inr ⟨m, htext, hplain, hreading.trans (scaledAt_leading d)⟩

theorem IsPlain.notMem {cs : List Char} (h : IsPlain cs) {c : Char} (hdigit : c.isDigit = false)
    (hpoint : c ≠ '.') : c ∉ cs := by
  intro hc
  rcases h c hc with hd | rfl
  · rw [hdigit] at hd
    cases hd
  · exact hpoint rfl

/-- The text of a decimal gives back the number. -/
theorem value_eq_of_decimal {d d' : Decimal}
    (h : literalLayout.decimal d = literalLayout.decimal d') : d.value = d'.value := by
  have hexp {m : List Char} (hm : IsPlain m) : 'e' ∉ m := hm.notMem rfl (by decide)
  obtain ⟨hplain, hvalue⟩ | ⟨m, htext, hplain, hvalue⟩ := decimal_cases d <;>
    obtain ⟨hplain', hvalue'⟩ | ⟨m', htext', hplain', hvalue'⟩ := decimal_cases d'
  · rw [← hvalue, ← hvalue', h]
  · refine absurd ?_ (hexp hplain)
    rw [h, htext']
    simp
  · refine absurd ?_ (hexp hplain')
    rw [← h, htext]
    simp
  · rw [htext, htext'] at h
    obtain ⟨rfl, hexponent⟩ := token_append_inj (p := (· ≠ 'e'))
      (fun c hc => by simpa using fun (e : c = 'e') => hexp hplain (e ▸ hc))
      (fun c hc => by simpa using fun (e : c = 'e') => hexp hplain' (e ▸ hc))
      (by simp) (by simp) h
    have hleading := String.toList_injective (List.cons.inj hexponent).2
    rw [← hvalue, ← hvalue', Int.repr_injective hleading]

/-! ## Texts of bit patterns -/

/-- The characters of a number: digits, the sign, the point, and the letters of `NaN`, of exponents
and of suffixes. -/
def isNumberChar (c : Char) : Bool :=
  c.isDigit || c.isLower || c == 'N' || c == '-' || c == '.'

/-- Characters that numbers are written with. -/
def IsNumeric (cs : List Char) : Prop := ∀ c ∈ cs, isNumberChar c = true

theorem isNumberChar_of_isDigit {c : Char} (h : c.isDigit = true) : isNumberChar c = true := by
  simp [isNumberChar, h]

theorem IsNumeric.append {cs ds : List Char} (h : IsNumeric cs) (h' : IsNumeric ds) :
    IsNumeric (cs ++ ds) := List.forall_mem_append.2 ⟨h, h'⟩

theorem IsPlain.isNumeric {cs : List Char} (h : IsPlain cs) : IsNumeric cs := by
  intro c hc
  rcases h c hc with hd | rfl
  · exact isNumberChar_of_isDigit hd
  · rfl

/-- A whole number has digits, with a sign before them if it is negative. -/
theorem toList_toString_int (n : ℤ) :
    ∃ m : ℕ, (toString n).toList = (if n < 0 then ['-'] else []) ++ digitsOf m := by
  rw [Int.toString_eq_repr, Int.repr_eq_if]
  split
  · next h =>
    exact ⟨n.toNat, by rw [if_neg (not_lt.2 h), Nat.toList_repr]; rfl⟩
  · next h =>
    exact ⟨(-n).toNat, by rw [if_pos (not_le.1 h), String.toList_append, Nat.toList_repr]; rfl⟩

theorem isNumeric_toString_int (n : ℤ) : IsNumeric (toString n).toList := by
  obtain ⟨m, hm⟩ := toList_toString_int n
  rw [hm]
  refine IsNumeric.append ?_ (IsPlain.isNumeric fun c hc => .inl (allDigits_digitsOf m c hc))
  split
  · intro c hc
    rw [List.mem_singleton.1 hc]
    rfl
  · exact fun _ hc => nomatch hc

theorem isNumeric_decimal (d : Decimal) : IsNumeric (literalLayout.decimal d) := by
  rcases decimal_cases d with ⟨hplain, -⟩ | ⟨m, htext, hplain, -⟩
  · exact hplain.isNumeric
  · rw [htext]
    exact hplain.isNumeric.append (List.forall_mem_cons.2 ⟨rfl, isNumeric_toString_int _⟩)

/-- A decimal does not start with a character other than its digits, a point and the `e`. -/
theorem head_decimal_ne (d : Decimal) {c : Char} (hdigit : c.isDigit = false) (hpoint : c ≠ '.')
    (hexp : c ≠ 'e') (rest : List Char) : literalLayout.decimal d ≠ c :: rest := by
  intro h
  rcases decimal_cases d with ⟨hplain, -⟩ | ⟨m, htext, hplain, -⟩
  · exact hplain.notMem hdigit hpoint (h ▸ List.mem_cons_self)
  · rw [htext] at h
    cases m with
    | nil => exact hexp (List.cons.inj h).1.symm
    | cons c' m => exact hplain.notMem hdigit hpoint ((List.cons.inj h).1 ▸ List.mem_cons_self)

namespace BinaryFormat

variable {f : BinaryFormat}

/-- The decimal that is written for a number without a sign, if it is neither infinite nor not a
number. -/
def decimal? (f : BinaryFormat) : Magnitude → Option Decimal
  | .nan | .infinite => none
  | .zero => some ⟨0, 0⟩
  | .finite span => some (span.shortest f.decimalDigits)

/-- The text of a magnitude, without a sign. -/
def magnitudeText (f : BinaryFormat) (m : Magnitude) : List Char :=
  match f.decimal? m with
  | some d => literalLayout.decimal d
  | none => ['i', 'n', 'f']

theorem toList_text {bits : ℕ} (h : f.magnitude bits ≠ .nan) :
    (literalLayout.text f bits).toList =
      (if f.negative bits then ['-'] else []) ++ f.magnitudeText (f.magnitude bits) := by
  unfold FloatLayout.text
  cases hm : f.magnitude bits with
  | nan => exact absurd hm h
  | infinite => exact String.toList_ofList
  | zero => exact String.toList_ofList
  | finite span => exact String.toList_ofList

theorem magnitudeText_ne_minus (m : Magnitude) (rest : List Char) :
    f.magnitudeText m ≠ '-' :: rest := by
  unfold magnitudeText
  split
  · exact head_decimal_ne _ rfl (by decide) (by decide) rest
  · intro h
    cases h

variable (f) in
/-- The bits of a number without its sign. -/
def unsigned (bits : ℕ) : ℕ := bits % 2 ^ (f.fractionBits + f.exponentBits)

/-- A number is infinite, or what is written rounds to it. -/
theorem magnitude_cases (hf : f.Discerned) {bits : ℕ} (h : f.magnitude bits ≠ .nan) :
    (f.magnitude bits = .infinite ∧
        f.unsigned bits = 2 ^ f.fractionBits * (2 ^ f.exponentBits - 1)) ∨
      ∃ d, f.decimal? (f.magnitude bits) = some d ∧ f.RoundsTo (f.unsigned bits) d.value := by
  have heq := f.magnitude_eq bits
  dsimp only at heq
  rw [← unsigned] at heq
  split at heq
  · next hexponent =>
    split at heq
    · next hfraction =>
      refine .inl ⟨heq, ?_⟩
      rw [← Nat.div_add_mod (f.unsigned bits) (2 ^ f.fractionBits), hexponent, hfraction, add_zero]
    · exact absurd heq h
  · split at heq
    · next hzero =>
      refine .inr ⟨_, by rw [heq]; rfl, ?_⟩
      rw [RoundsTo, if_pos hzero]
      simp [Decimal.value]
    · next hzero =>
      refine .inr ⟨_, by rw [heq]; rfl, ?_⟩
      rw [RoundsTo, if_neg hzero]
      exact contains_shortest hf (Nat.pos_of_ne_zero hzero)

/-- The text of a magnitude gives back the bits. -/
theorem unsigned_eq_of_magnitudeText (hf : f.Discerned) {a b : ℕ} (ha : f.magnitude a ≠ .nan)
    (hb : f.magnitude b ≠ .nan)
    (h : f.magnitudeText (f.magnitude a) = f.magnitudeText (f.magnitude b)) :
    f.unsigned a = f.unsigned b := by
  have hinf (d : Decimal) : literalLayout.decimal d ≠ ['i', 'n', 'f'] :=
    head_decimal_ne d rfl (by decide) (by decide) _
  unfold magnitudeText at h
  rcases magnitude_cases hf ha with ⟨hma, ha⟩ | ⟨d, hd, ha⟩ <;>
    rcases magnitude_cases hf hb with ⟨hmb, hb⟩ | ⟨d', hd', hb⟩
  · rw [ha, hb]
  · rw [hma, hd'] at h
    exact absurd h.symm (hinf d')
  · rw [hmb, hd] at h
    exact absurd h (hinf d)
  · rw [hd, hd'] at h
    rw [← value_eq_of_decimal h] at hb
    exact eq_of_roundsTo hf.fraction_pos ha hb

/-- The sign and the other bits make up a number. -/
theorem eq_of_unsigned {a b : ℕ} (ha : a < 2 ^ (f.fractionBits + f.exponentBits + 1))
    (hb : b < 2 ^ (f.fractionBits + f.exponentBits + 1)) (hsign : f.negative a = f.negative b)
    (h : f.unsigned a = f.unsigned b) : a = b := by
  have htop {c : ℕ} (hc : c < 2 ^ (f.fractionBits + f.exponentBits + 1)) :
      c / 2 ^ (f.fractionBits + f.exponentBits) < 2 :=
    Nat.div_lt_of_lt_mul (by rwa [← pow_succ])
  have ha' := htop ha
  have hb' := htop hb
  unfold negative at hsign
  rw [Nat.testBit_eq_decide_div_mod_eq, Nat.testBit_eq_decide_div_mod_eq, decide_eq_decide] at hsign
  have hquot : a / 2 ^ (f.fractionBits + f.exponentBits) =
      b / 2 ^ (f.fractionBits + f.exponentBits) := by
    generalize a / 2 ^ (f.fractionBits + f.exponentBits) = m at hsign ha' ⊢
    generalize b / 2 ^ (f.fractionBits + f.exponentBits) = n at hsign hb' ⊢
    omega
  rw [← Nat.div_add_mod a (2 ^ (f.fractionBits + f.exponentBits)), hquot, ← unsigned, h, unsigned,
    Nat.div_add_mod]

/-- Only what is not a number is written without digits and without `inf`. -/
theorem text_eq_nan_iff {bits : ℕ} :
    literalLayout.text f bits = "NaN" ↔ f.magnitude bits = .nan := by
  refine ⟨fun h => ?_, fun h => by rw [FloatLayout.text, h]⟩
  by_contra hn
  have htext := congrArg String.toList h
  rw [toList_text hn] at htext
  split at htext
  · cases (List.cons.inj htext).1
  · unfold magnitudeText at htext
    split at htext
    · exact head_decimal_ne _ rfl (by decide) (by decide) _ htext
    · cases htext

/-- Two numbers with the same text have the same bits, unless neither is a number. -/
theorem eq_of_text (hf : f.Discerned) {a b : ℕ}
    (ha : a < 2 ^ (f.fractionBits + f.exponentBits + 1))
    (hb : b < 2 ^ (f.fractionBits + f.exponentBits + 1))
    (h : literalLayout.text f a = literalLayout.text f b) :
    a = b ∨ f.magnitude a = .nan ∧ f.magnitude b = .nan := by
  by_cases hna : f.magnitude a = .nan
  · exact .inr ⟨hna, text_eq_nan_iff.1 (h ▸ text_eq_nan_iff.2 hna)⟩
  by_cases hnb : f.magnitude b = .nan
  · exact .inr ⟨text_eq_nan_iff.1 (h ▸ text_eq_nan_iff.2 hnb), hnb⟩
  have htext := congrArg String.toList h
  rw [toList_text hna, toList_text hnb] at htext
  refine .inl ?_
  cases hsa : f.negative a <;> cases hsb : f.negative b <;>
    simp only [hsa, hsb, if_true, Bool.false_eq_true, if_false, List.nil_append,
      List.singleton_append] at htext
  · exact eq_of_unsigned ha hb (hsa.trans hsb.symm) (unsigned_eq_of_magnitudeText hf hna hnb htext)
  · exact absurd htext (magnitudeText_ne_minus _ _)
  · exact absurd htext.symm (magnitudeText_ne_minus _ _)
  · exact eq_of_unsigned ha hb (hsa.trans hsb.symm)
      (unsigned_eq_of_magnitudeText hf hna hnb (List.cons.inj htext).2)

theorem isNumeric_text (bits : ℕ) : IsNumeric (literalLayout.text f bits).toList := by
  by_cases h : f.magnitude bits = .nan
  · rw [text_eq_nan_iff.2 h]
    exact List.all_eq_true.1 (by decide : ['N', 'a', 'N'].all isNumberChar = true)
  · rw [toList_text h]
    refine IsNumeric.append ?_ ?_
    · split
      · exact List.all_eq_true.1 (by decide : ['-'].all isNumberChar = true)
      · exact fun _ hc => nomatch hc
    · unfold magnitudeText
      split
      · exact isNumeric_decimal _
      · exact List.all_eq_true.1 (by decide : ['i', 'n', 'f'].all isNumberChar = true)

end BinaryFormat

/-- Whether a number is not one. -/
def Binary32.isNaN (x : Binary32) : Bool := single.magnitude x.bits.toNat = .nan

/-- Whether a number is not one. -/
def Binary64.isNaN (x : Binary64) : Bool := double.magnitude x.bits.toNat = .nan

/-- Single-precision numbers with the same text are the same, unless both are not numbers. -/
theorem Binary32.eq_of_text {x y : Binary32} (h : x.text literalLayout = y.text literalLayout) :
    x = y ∨ x.isNaN = true ∧ y.isNaN = true := by
  simp only [isNaN, decide_eq_true_eq]
  refine (BinaryFormat.eq_of_text .single x.bits.toNat_lt y.bits.toNat_lt h).imp_left
    fun hbits => ?_
  cases x
  cases y
  exact congrArg _ (UInt32.toNat.inj hbits)

/-- Double-precision numbers with the same text are the same, unless both are not numbers. -/
theorem Binary64.eq_of_text {x y : Binary64} (h : x.text literalLayout = y.text literalLayout) :
    x = y ∨ x.isNaN = true ∧ y.isNaN = true := by
  simp only [isNaN, decide_eq_true_eq]
  refine (BinaryFormat.eq_of_text .double x.bits.toNat_lt y.bits.toNat_lt h).imp_left
    fun hbits => ?_
  cases x
  cases y
  exact congrArg _ (UInt64.toNat.inj hbits)

/-- What is not a number has one text. -/
theorem Binary32.text_of_isNaN {x : Binary32} (h : x.isNaN = true) :
    x.text literalLayout = "NaN" := BinaryFormat.text_eq_nan_iff.2 (by simpa [isNaN] using h)

/-- What is not a number has one text. -/
theorem Binary64.text_of_isNaN {x : Binary64} (h : x.isNaN = true) :
    x.text literalLayout = "NaN" := BinaryFormat.text_eq_nan_iff.2 (by simpa [isNaN] using h)

end Number

end Stagecraft
