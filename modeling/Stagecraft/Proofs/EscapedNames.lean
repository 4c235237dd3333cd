import Stagecraft.Proofs.Locations

/-!
# Which names share a location

The number of a byte has no padding and no end mark, so a digit that follows a one-digit number
reads on: the two bytes 1 and `t` stand in a location as `.1t`, and so does the single byte `A`.
`joined` makes such pairs into the byte that they read as, from the left. It changes no location
(`flatMap_escapedByte_joined`), and where nothing is left to join, a location has one reading
(`flatMap_escapedByte_inj_of_isChain`). So names collide exactly if they are the same once joined
(`escaped_eq_iff`, `ofName_eq_iff`): only names with a byte from 1 to 7 in them can.
-/

namespace Stagecraft.Text

/-! ## Digits -/

/-- The value of a byte that is a digit in base 36. -/
def digitOf? (b : UInt8) : Option Nat :=
  if 48 ≤ b && b ≤ 57 then some (b.toNat - 48)
  else if 97 ≤ b && b ≤ 122 then some (b.toNat - 87)
  else none

theorem digitOf?_eq_some {b : UInt8} {d : Nat} :
    digitOf? b = some d ↔ b.toNat = 48 + d ∧ d < 10 ∨ b.toNat = 87 + d ∧ 10 ≤ d ∧ d < 36 := by
  have h : ∀ m n : UInt8, (m ≤ b && b ≤ n) = true ↔ m.toNat ≤ b.toNat ∧ b.toNat ≤ n.toNat :=
    fun m n => by
      rw [Bool.and_eq_true, decide_eq_true_eq, decide_eq_true_eq, UInt8.le_iff_toNat_le,
        UInt8.le_iff_toNat_le]
  rw [digitOf?]
  simp only [h, UInt8.reduceToNat]
  split
  · rw [Option.some.injEq]
    omega
  · split
    · rw [Option.some.injEq]
      omega
    · simp only [reduceCtorEq, false_iff]
      omega

theorem isLocationByte_iff {b : UInt8} :
    isLocationByte b = true ↔ (digitOf? b).isSome ∨ b = 95 ∨ b = 45 := by
  rw [isLocationByte, digitOf?]
  cases (97 ≤ b && b ≤ 122 : Bool) <;> cases (48 ≤ b && b ≤ 57 : Bool) <;> simp

/-- A digit stands for itself. -/
theorem escapedByte_of_digitOf? {b : UInt8} {d : Nat} (h : digitOf? b = some d) :
    d < 36 ∧ escapedByte b = [base36Digit d] := by
  have hloc : isLocationByte b = true := isLocationByte_iff.2 (.inl (by rw [h]; rfl))
  rw [escapedByte, if_pos hloc, base36Digit]
  rcases digitOf?_eq_some.1 h with ⟨hb, hd⟩ | ⟨hb, hle, hlt⟩
  · exact ⟨by omega, by rw [if_pos hd, hb]⟩
  · exact ⟨hlt, by rw [if_neg (by omega), hb]⟩

/-- What stands as a digit in a location is a digit of the name. -/
theorem digitOf?_of_escapedByte_append {b : UInt8} {d : Nat} {x y : List Char} (hd : d < 36)
    (h : escapedByte b ++ x = base36Digit d :: y) : digitOf? b = some d := by
  have hdigits : ∀ d < 36, base36Digit d ∉ ['.', '_', '-'] := by decide
  cases hb : digitOf? b with
  | some d' =>
    obtain ⟨hlt, hescaped⟩ := escapedByte_of_digitOf? hb
    rw [hescaped] at h
    rw [base36Digit_inj hlt hd (List.cons.inj h).1]
  | none =>
    refine absurd ?_ (hdigits d hd)
    rw [escapedByte] at h
    split at h
    · next hloc =>
      rcases isLocationByte_iff.1 hloc with hsome | rfl | rfl
      · rw [hb] at hsome
        cases hsome
      · rw [← (List.cons.inj h).1]
        decide
      · rw [← (List.cons.inj h).1]
        decide
    · rw [← (List.cons.inj h).1]
      exact List.mem_cons_self

/-! ## Bytes that read as one -/

/-- The byte that two bytes in a row read as in a location: the second is a digit behind the
one-digit number of the first. A byte that stands for itself is never read from a number. -/
def joined? (a b : UInt8) : Option UInt8 :=
  if isSelfDelimiting a then none
  else (digitOf? b).bind fun d =>
    let n := 36 * a.toNat + d
    if n < 256 ∧ isLocationByte (.ofNat n) = false then some (.ofNat n) else none

theorem joined?_eq_some {a b c : UInt8} :
    joined? a b = some c ↔ isSelfDelimiting a = false ∧ isLocationByte c = false ∧
      ∃ d, digitOf? b = some d ∧ c.toNat = 36 * a.toNat + d := by
  rw [joined?]
  split
  · next ha => simp [ha]
  · next ha =>
    simp only [Option.bind_eq_some_iff, Option.ite_none_right_eq_some, Option.some.injEq,
      Bool.not_eq_true] at ha ⊢
    constructor
    · rintro ⟨d, hd, ⟨hlt, hloc⟩, rfl⟩
      exact ⟨ha, hloc, d, hd, UInt8.toNat_ofNat_of_lt' hlt⟩
    · rintro ⟨-, hloc, d, hd, hc⟩
      have hof : UInt8.ofNat (36 * a.toNat + d) = c := by rw [← hc, UInt8.ofNat_toNat]
      exact ⟨d, hd, ⟨hc ▸ c.toNat_lt, hof.symm ▸ hloc⟩, hof⟩

/-- A byte that does not delimit itself is one of those from 1 to 7. -/
theorem toNat_of_not_isSelfDelimiting {a : UInt8} (h : isSelfDelimiting a = false) :
    0 < a.toNat ∧ a.toNat < 8 := by
  rw [isSelfDelimiting, Bool.or_eq_false_iff, beq_eq_false_iff_ne, decide_eq_false_iff_not,
    UInt8.le_iff_toNat_le] at h
  have hne : a.toNat ≠ 0 := fun hzero => h.1 (UInt8.toNat_inj.1 hzero)
  have hlt : a.toNat < 8 := Nat.lt_of_not_le h.2
  omega

theorem isLocationByte_of_toNat_lt {a : UInt8} (h : a.toNat < 8) : isLocationByte a = false := by
  have hall : ∀ n < 8, isLocationByte (UInt8.ofNat n) = false := by decide
  simpa using hall a.toNat h

/-- Two bytes that read as one stand in a location as that one does. -/
theorem escapedByte_of_joined? {a b c : UInt8} (h : joined? a b = some c) :
    escapedByte a ++ escapedByte b = escapedByte c := by
  obtain ⟨ha, hc, d, hd, hnat⟩ := joined?_eq_some.1 h
  obtain ⟨hpos, hlt⟩ := toNat_of_not_isSelfDelimiting ha
  obtain ⟨hd36, hb⟩ := escapedByte_of_digitOf? hd
  have hdiv : c.toNat / 36 = a.toNat := by omega
  have hmod : c.toNat % 36 = d := by omega
  rw [hb, escapedByte, escapedByte, if_neg (by simp [isLocationByte_of_toNat_lt hlt]),
    if_neg (by simp [hc])]
  simp only [base36, if_pos (show a.toNat < 36 by omega), if_neg (show ¬ c.toNat < 36 by omega),
    hdiv, hmod, List.cons_append, List.nil_append]

/-- What two bytes read as is not a digit and delimits itself. -/
theorem joined?_ne_digit {a b c : UInt8} (h : joined? a b = some c) :
    digitOf? c = none ∧ isSelfDelimiting c = true := by
  obtain ⟨ha, hc, d, -, hnat⟩ := joined?_eq_some.1 h
  have hpos := (toNat_of_not_isSelfDelimiting ha).1
  refine ⟨Option.not_isSome_iff_eq_none.1 fun hsome => ?_, ?_⟩
  · rw [isLocationByte_iff.2 (.inl hsome)] at hc
    cases hc
  · by_contra hself
    have hlt := (toNat_of_not_isSelfDelimiting (Bool.eq_false_iff.2 hself)).2
    omega

/-! ## Bytes as they read -/

/-- The bytes that are read from a location, from the left. -/
def joined : List UInt8 → List UInt8
  | [] => []
  | [a] => [a]
  | a :: b :: bs =>
    match joined? a b with
    | some c => c :: joined bs
    | none => a :: joined (b :: bs)

/-- Joining changes no location. -/
theorem flatMap_escapedByte_joined (bs : List UInt8) :
    (joined bs).flatMap escapedByte = bs.flatMap escapedByte := by
  fun_induction joined bs with
  | case1 => rfl
  | case2 => rfl
  | case3 a b bs c hc ih =>
    simp only [List.flatMap_cons, ih, ← escapedByte_of_joined? hc, List.append_assoc]
  | case4 a b bs _ ih => rw [List.flatMap_cons, ih, ← List.flatMap_cons]

/-- What comes first after joining: the first byte, or one that is no digit. -/
theorem head?_joined {b h : UInt8} {bs : List UInt8} (hh : (joined (b :: bs)).head? = some h) :
    h = b ∨ digitOf? h = none := by
  cases bs with
  | nil => exact .inl (Option.some.inj hh).symm
  | cons b' bs =>
    rw [joined] at hh
    split at hh
    · next c hc => exact .inr (Option.some.inj hh ▸ (joined?_ne_digit hc).1)
    · exact .inl (Option.some.inj hh).symm

theorem joined?_eq_none_of_digitOf? {a b : UInt8} (h : digitOf? b = none) : joined? a b = none := by
  rw [joined?, h, Option.bind_none, ite_self]

/-- Nothing is left to join. -/
theorem isChain_joined (bs : List UInt8) :
    (joined bs).IsChain fun a b => joined? a b = none := by
  fun_induction joined bs with
  | case1 => exact .nil
  | case2 a => exact .singleton a
  | case3 a b bs c hc ih =>
    refine List.isChain_cons.2 ⟨fun h _ => ?_, ih⟩
    rw [joined?, if_pos (joined?_ne_digit hc).2]
  | case4 a b bs hnone ih =>
    refine List.isChain_cons.2 ⟨fun h hh => ?_, ih⟩
    rcases head?_joined (Option.mem_def.1 hh) with rfl | hdigit
    · exact hnone
    · exact joined?_eq_none_of_digitOf? hdigit

/-- Bytes that delimit themselves are read as they are. -/
theorem joined_of_isSelfDelimiting {bs : List UInt8} (h : ∀ b ∈ bs, isSelfDelimiting b = true) :
    joined bs = bs := by
  fun_induction joined bs with
  | case1 => rfl
  | case2 => rfl
  | case3 a b bs c hc _ =>
    have ha := h a List.mem_cons_self
    rw [(joined?_eq_some.1 hc).1] at ha
    cases ha
  | case4 a b bs _ ih => rw [ih fun c hc => h c (List.mem_cons_of_mem a hc)]

/-! ## One reading -/

/-- Behind a one-digit number stands no digit unless the two bytes read as one, so what begins with
the number is its byte. -/
theorem eq_of_escapedByte_append {a b : UInt8} {as : List UInt8} {y : List Char}
    (ha : isSelfDelimiting a = false) (has : (a :: as).IsChain fun a b => joined? a b = none)
    (h : escapedByte a ++ as.flatMap escapedByte = escapedByte b ++ y) : a = b := by
  obtain ⟨hpos, hlt⟩ := toNat_of_not_isSelfDelimiting ha
  rw [escapedByte, if_neg (by simp [isLocationByte_of_toNat_lt hlt]), base36,
    if_pos (show a.toNat < 36 by omega), escapedByte] at h
  split at h
  · next hb => exact absurd (List.cons.inj h).1.symm (ne_dot_of_isLocationByte hb)
  · next hb =>
    have hlb := b.toNat_lt
    have hrest := (List.cons.inj h).2
    rw [base36] at hrest
    split at hrest <;> obtain ⟨hdigit, htail⟩ := List.cons.inj hrest
    · exact UInt8.toNat_inj.1 (base36Digit_inj (by omega) ‹_› hdigit)
    -- the second digit of `b` would be the first character of what follows `a`
    · have hdiv := base36Digit_inj (by omega) (by omega) hdigit
      cases as with
      | nil => cases htail
      | cons a' as =>
        have hd := digitOf?_of_escapedByte_append (Nat.mod_lt _ (by decide)) htail
        have hjoined : joined? a a' = some b :=
          joined?_eq_some.2 ⟨ha, Bool.eq_false_iff.2 hb, _, hd, by omega⟩
        rw [(List.isChain_cons_cons.1 has).1] at hjoined
        cases hjoined

/-- Bytes with nothing to join are determined by how they stand in a location. -/
theorem flatMap_escapedByte_inj_of_isChain {as bs : List UInt8}
    (has : as.IsChain fun a b => joined? a b = none)
    (hbs : bs.IsChain fun a b => joined? a b = none)
    (h : as.flatMap escapedByte = bs.flatMap escapedByte) : as = bs := by
  induction as generalizing bs with
  | nil =>
    cases bs with
    | nil => rfl
    | cons b bs => simp [escapedByte_ne_nil] at h
  | cons a as ih =>
    cases bs with
    | nil => simp [escapedByte_ne_nil] at h
    | cons b bs =>
      rw [List.flatMap_cons, List.flatMap_cons] at h
      have hab : a = b := by
        cases ha : isSelfDelimiting a with
        | false => exact eq_of_escapedByte_append ha has h
        | true =>
          cases hb : isSelfDelimiting b with
          | false => exact (eq_of_escapedByte_append hb hbs h.symm).symm
          | true => exact (escapedByte_append_inj ha hb h).1
      subst hab
      have hrest : as = bs := ih has.tail hbs.tail (List.append_cancel_left h)
      rw [hrest]

/-- **Names look the same in a location exactly if they read the same**, byte by byte from the left
with a digit joined to the one-digit number before it. -/
theorem escaped_eq_iff {s t : String} :
    escaped s = escaped t ↔ joined (bytesOf s) = joined (bytesOf t) := by
  rw [escaped, escaped, String.ofList_inj, ← flatMap_escapedByte_joined (bytesOf s),
    ← flatMap_escapedByte_joined (bytesOf t)]
  exact ⟨flatMap_escapedByte_inj_of_isChain (isChain_joined _) (isChain_joined _),
    congrArg (List.flatMap escapedByte)⟩

/-- What looks like an ordinary name in a location reads as its bytes. -/
theorem escaped_eq_iff_of_isSelfDelimiting {s t : String}
    (ht : ∀ b ∈ bytesOf t, isSelfDelimiting b = true) :
    escaped s = escaped t ↔ joined (bytesOf s) = bytesOf t := by
  rw [escaped_eq_iff, joined_of_isSelfDelimiting ht]

/-- The byte 1 before a letter reads as a capital. -/
example : "\x01t" ≠ "A" ∧ escaped "\x01t" = ".1t" ∧ escaped "A" = ".1t" := by decide

end Stagecraft.Text

namespace Stagecraft

open Target (Location)

/-- **Two definitions share a location exactly if their modules are the same and their names read
the same**, where no component of a module path has a slash in it. -/
theorem DefName.ofName_eq_iff {nspace : String} {m n : DefName}
    (hm : ∀ c ∈ m.path, '/' ∉ c.toList) (hn : ∀ c ∈ n.path, '/' ∉ c.toList) :
    Location.ofName nspace m = Location.ofName nspace n ↔
      m.path = n.path ∧ Text.joined (Text.bytesOf m.name) = Text.joined (Text.bytesOf n.name) := by
  rw [← Text.escaped_eq_iff]
  refine ⟨components_of_ofName_eq hm hn, ?_⟩
  rintro ⟨hpath, hname⟩
  rw [Location.ofName, Location.ofName, hpath, hname]

end Stagecraft
