import Stagecraft.Proofs.FloatTexts
import Stagecraft.Proofs.Shapes
import Stagecraft.Target.Nbt

/-!
# Data is told apart by its text

The first characters of a text and the last one of a number say which kind of value it is, a number
ends where no character of numbers follows, and a string where a quote without a backslash does. So
a value can be read off the head of a longer text in one way only (`Nbt.text_append_inj`), which
elements and fields hand on to what contains them.

The bits of what is not a number are not in the text. `Nbt.canonical` makes them the same, and is
all that the text forgets.
-/

namespace Stagecraft.Target

open Number (Binary32 Binary64 literalLayout digitsOf isNumberChar IsNumeric isNumeric_toString_int)
open Emit (kindOf)

/-! ## What is not a number -/

/-- A single-precision number, or the same bits for all that are not numbers. -/
def canonicalSingle (x : Binary32) : Binary32 := if x.isNaN then ⟨0x7fc00000⟩ else x

/-- A double-precision number, or the same bits for all that are not numbers. -/
def canonicalDouble (x : Binary64) : Binary64 := if x.isNaN then ⟨0x7ff8000000000000⟩ else x

namespace Nbt

mutual

/-- The value with the same bits for all that are not numbers. -/
def canonical : Nbt → Nbt
  | .float x => .float (canonicalSingle x)
  | .double x => .double (canonicalDouble x)
  | .list es => .list (canonicalAll es)
  | .compound fields => .compound (canonicalFields fields)
  | .byte n => .byte n
  | .short n => .short n
  | .int n => .int n
  | .long n => .long n
  | .string s => .string s
  | .byteArray es => .byteArray es
  | .intArray es => .intArray es
  | .longArray es => .longArray es

/-- The values with the same bits for all that are not numbers. -/
def canonicalAll : List Nbt → List Nbt
  | [] => []
  | v :: vs => v.canonical :: canonicalAll vs

/-- The fields with the same bits for all that are not numbers. -/
def canonicalFields : List (String × Nbt) → List (String × Nbt)
  | [] => []
  | (key, v) :: rest => (key, v.canonical) :: canonicalFields rest

end

mutual

/-- Whether a value is a floating-point number that is not a number, or has one inside. -/
def hasNaN : Nbt → Bool
  | .float x => x.isNaN
  | .double x => x.isNaN
  | .list es => anyNaN es
  | .compound fields => fieldsNaN fields
  | .byte _ | .short _ | .int _ | .long _ | .string _ | .byteArray _ | .intArray _
  | .longArray _ => false

/-- Whether one of several values has a part that is not a number. -/
def anyNaN : List Nbt → Bool
  | [] => false
  | v :: vs => v.hasNaN || anyNaN vs

/-- Whether one of several fields has a part that is not a number. -/
def fieldsNaN : List (String × Nbt) → Bool
  | [] => false
  | (_, v) :: rest => v.hasNaN || fieldsNaN rest

end

mutual

theorem canonical_eq_self : ∀ v : Nbt, v.hasNaN = false → v.canonical = v
  | .float x, h => by
    rw [hasNaN] at h
    rw [canonical, canonicalSingle, h, if_neg Bool.false_ne_true]
  | .double x, h => by
    rw [hasNaN] at h
    rw [canonical, canonicalDouble, h, if_neg Bool.false_ne_true]
  | .list es, h => by
    rw [hasNaN] at h
    rw [canonical, canonicalAll_eq_self es h]
  | .compound fields, h => by
    rw [hasNaN] at h
    rw [canonical, canonicalFields_eq_self fields h]
  | .byte _, _ | .short _, _ | .int _, _ | .long _, _ | .string _, _ | .byteArray _, _
  | .intArray _, _ | .longArray _, _ => by rw [canonical]

theorem canonicalAll_eq_self : ∀ vs : List Nbt, anyNaN vs = false → canonicalAll vs = vs
  | [], _ => rfl
  | v :: vs, h => by
    rw [anyNaN, Bool.or_eq_false_iff] at h
    rw [canonicalAll, canonical_eq_self v h.1, canonicalAll_eq_self vs h.2]

theorem canonicalFields_eq_self : ∀ fields : List (String × Nbt), fieldsNaN fields = false →
    canonicalFields fields = fields
  | [], _ => rfl
  | (_, v) :: rest, h => by
    rw [fieldsNaN, Bool.or_eq_false_iff] at h
    rw [canonicalFields, canonical_eq_self v h.1, canonicalFields_eq_self rest h.2]

end

theorem canonicalAll_eq_map (vs : List Nbt) : canonicalAll vs = vs.map canonical := by
  induction vs with
  | nil => rfl
  | cons v vs ih => rw [canonicalAll, ih, List.map_cons]

theorem canonicalFields_eq_map (fields : List (String × Nbt)) :
    canonicalFields fields = fields.map fun field => (field.1, field.2.canonical) := by
  induction fields with
  | nil => rfl
  | cons field rest ih =>
    obtain ⟨key, v⟩ := field
    rw [canonicalFields, ih, List.map_cons]

theorem texts_eq_map (vs : List Nbt) : texts vs = vs.map text := by
  induction vs with
  | nil => rfl
  | cons v vs ih => rw [texts, ih, List.map_cons]

/-- A field, with its key before it. -/
def fieldText (field : String × Nbt) : String := keyText field.1 ++ ":" ++ field.2.text

theorem fieldTexts_eq_map (fields : List (String × Nbt)) :
    fieldTexts fields = fields.map fieldText := by
  induction fields with
  | nil => rfl
  | cons field rest ih =>
    obtain ⟨key, v⟩ := field
    rw [fieldTexts, ih, List.map_cons]
    rfl

/-! ## Strings and keys -/

theorem quotedChars_append_inj : ∀ {cs ds r s : List Char},
    cs.flatMap quotedChar ++ '"' :: r = ds.flatMap quotedChar ++ '"' :: s → cs = ds ∧ r = s := by
  have hclose {d : Char} {ds r s : List Char} :
      '"' :: r ≠ (d :: ds).flatMap quotedChar ++ '"' :: s := by
    intro h
    rw [List.flatMap_cons, quotedChar] at h
    split at h
    · cases (List.cons.inj h).1
    · next hd => exact hd (.inl (List.cons.inj h).1.symm)
  intro cs
  induction cs with
  | nil =>
    intro ds r s h
    cases ds with
    | nil => exact ⟨rfl, (List.cons.inj h).2⟩
    | cons d ds => exact absurd h hclose
  | cons c cs ih =>
    intro ds r s h
    cases ds with
    | nil => exact absurd h.symm hclose
    | cons d ds =>
      rw [List.flatMap_cons, List.flatMap_cons, quotedChar, quotedChar] at h
      split at h <;> split at h <;> simp only [List.cons_append, List.nil_append] at h
      · have htail := (List.cons.inj h).2
        obtain ⟨rfl, rfl⟩ := ih (List.cons.inj htail).2
        exact ⟨by rw [(List.cons.inj htail).1], rfl⟩
      · next _ hd => exact absurd (.inr (List.cons.inj h).1.symm) hd
      · next hc _ => exact absurd (.inr (List.cons.inj h).1) hc
      · obtain ⟨rfl, rfl⟩ := ih (List.cons.inj h).2
        exact ⟨by rw [(List.cons.inj h).1], rfl⟩

theorem toList_quoted (a : String) (r : List Char) :
    (quoted a).toList ++ r = '"' :: (a.toList.flatMap quotedChar ++ '"' :: r) := by
  rw [quoted, String.toList_ofList, List.cons_append, List.append_assoc, List.singleton_append]

/-- A string ends at its closing quote, whatever follows. -/
theorem quoted_append_inj {a b : String} {r s : List Char}
    (h : (quoted a).toList ++ r = (quoted b).toList ++ s) : a = b ∧ r = s := by
  rw [toList_quoted, toList_quoted] at h
  obtain ⟨hab, hrs⟩ := quotedChars_append_inj (List.cons.inj h).2
  exact ⟨String.toList_injective hab, hrs⟩

/-- What follows a key: nothing, or what no key without quotes goes on with. -/
def EndsKey (r : List Char) : Prop := ∀ c ∈ r.head?, isBareChar c = false

theorem keyText_append_inj {a b : String} {r s : List Char} (hr : EndsKey r) (hs : EndsKey s)
    (h : (keyText a).toList ++ r = (keyText b).toList ++ s) : a = b ∧ r = s := by
  -- a key without quotes does not start with one
  have hmixed {a b : String} (ha : isBare a = true) {r s : List Char} :
      a.toList ++ r ≠ (quoted b).toList ++ s := by
    intro h
    rw [isBare, Bool.and_eq_true, Bool.not_eq_true', List.all_eq_true] at ha
    rw [toList_quoted] at h
    cases hcs : a.toList with
    | nil =>
      rw [String.toList_eq_nil_iff] at hcs
      rw [hcs] at ha
      cases ha.1
    | cons c cs =>
      rw [hcs, List.cons_append] at h
      have hbare := ha.2 c (hcs ▸ List.mem_cons_self)
      rw [(List.cons.inj h).1] at hbare
      cases hbare
  unfold keyText at h
  split at h <;> split at h
  · next ha hb =>
    rw [isBare, Bool.and_eq_true, List.all_eq_true] at ha hb
    obtain ⟨hab, hrs⟩ := token_append_inj ha.2 hb.2 hr hs h
    exact ⟨String.toList_injective hab, hrs⟩
  · next ha _ => exact absurd h (hmixed ha)
  · next _ hb => exact absurd h.symm (hmixed hb)
  · exact quoted_append_inj h

/-! ## Numbers -/

/-- What follows a value: nothing, or what no number goes on with. -/
def EndsValue (r : List Char) : Prop := ∀ c ∈ r.head?, isNumberChar c = false

/-- A whole number with the letters of its type. -/
def numeral (suffix : List Char) (n : ℤ) : List Char := (toString n).toList ++ suffix

theorem numeral_append_inj {suffix : List Char} (hsuffix : IsNumeric suffix) {m n : ℤ}
    {r s : List Char} (hr : EndsValue r) (hs : EndsValue s)
    (h : numeral suffix m ++ r = numeral suffix n ++ s) : m = n ∧ r = s := by
  have hnumeric (n : ℤ) : IsNumeric (numeral suffix n) := (isNumeric_toString_int n).append hsuffix
  obtain ⟨hmn, hrs⟩ := token_append_inj (hnumeric m) (hnumeric n) hr hs h
  exact ⟨Int.repr_injective (String.toList_injective (List.append_cancel_right hmn)), hrs⟩

/-- Whether a value is a single number. -/
def isNumber : Nbt → Bool
  | .byte _ | .short _ | .int _ | .long _ | .float _ | .double _ => true
  | .string _ | .byteArray _ | .intArray _ | .longArray _ | .list _ | .compound _ => false

/-- The letters after a number of a kind. -/
def suffixOf : StackKind → List Char
  | .byte => ['b']
  | .short => ['s']
  | .long => ['l']
  | .float => ['f']
  | .double => ['d']
  | .endTag | .int | .string | .byteArray | .intArray | .longArray | .list | .compound => []

/-- The text of a number without the letters of its type. -/
def numberText : Nbt → String
  | .byte n => toString n.toInt
  | .short n => toString n.toInt
  | .int n => toString n.toInt
  | .long n => toString n.toInt
  | .float x => x.text literalLayout
  | .double x => x.text literalLayout
  | .string _ | .byteArray _ | .intArray _ | .longArray _ | .list _ | .compound _ => ""

theorem toList_text_of_isNumber : ∀ {v : Nbt}, v.isNumber = true →
    v.text.toList = v.numberText.toList ++ suffixOf (kindOf v)
  | .byte _, _ | .short _, _ | .long _, _ | .float _, _ | .double _, _ => by
    rw [text, String.toList_append]
    rfl
  | .int _, _ => by
    rw [text]
    exact (List.append_nil _).symm

theorem isNumeric_numberText : ∀ {v : Nbt}, v.isNumber = true → IsNumeric v.numberText.toList
  | .byte _, _ | .short _, _ | .int _, _ | .long _, _ => isNumeric_toString_int _
  | .float _, _ | .double _, _ => Number.BinaryFormat.isNumeric_text _

theorem isNumeric_suffixOf (k : StackKind) : IsNumeric (suffixOf k) := by
  refine List.all_eq_true.1 ?_
  cases k <;> decide

theorem isNumeric_text {v : Nbt} (h : v.isNumber = true) : IsNumeric v.text.toList :=
  toList_text_of_isNumber h ▸ (isNumeric_numberText h).append (isNumeric_suffixOf _)

theorem canonicalSingle_eq_of_text {x y : Binary32}
    (h : x.text literalLayout = y.text literalLayout) : canonicalSingle x = canonicalSingle y := by
  rcases Binary32.eq_of_text h with rfl | ⟨hx, hy⟩
  · rfl
  · rw [canonicalSingle, canonicalSingle, if_pos hx, if_pos hy]

theorem canonicalDouble_eq_of_text {x y : Binary64}
    (h : x.text literalLayout = y.text literalLayout) : canonicalDouble x = canonicalDouble y := by
  rcases Binary64.eq_of_text h with rfl | ⟨hx, hy⟩
  · rfl
  · rw [canonicalDouble, canonicalDouble, if_pos hx, if_pos hy]

/-- Numbers of one kind with the same text are the same, up to the bits of what is not a number. -/
theorem canonical_eq_of_numberText : ∀ {v w : Nbt}, v.isNumber = true → kindOf v = kindOf w →
    v.numberText = w.numberText → v.canonical = w.canonical
  | .byte m, w, _, hkind, h => by
    cases w <;> cases hkind
    rw [Int8.toInt_inj.1 (Int.repr_injective h)]
  | .short m, w, _, hkind, h => by
    cases w <;> cases hkind
    rw [Int16.toInt_inj.1 (Int.repr_injective h)]
  | .int m, w, _, hkind, h => by
    cases w <;> cases hkind
    rw [Int32.toInt_inj.1 (Int.repr_injective h)]
  | .long m, w, _, hkind, h => by
    cases w <;> cases hkind
    rw [Int64.toInt_inj.1 (Int.repr_injective h)]
  | .float x, w, _, hkind, h => by
    cases w <;> cases hkind
    rw [canonical, canonical, canonicalSingle_eq_of_text h]
  | .double x, w, _, hkind, h => by
    cases w <;> cases hkind
    rw [canonical, canonical, canonicalDouble_eq_of_text h]

/-! ## Sequences -/

section

variable {α β : Type} {t : α → List Char}

/-- What stands between the first element of a sequence and the rest `r` of a text. -/
def afterFirst (t : α → List Char) (r : List Char) : List α → List Char
  | [] => r
  | a :: as => ',' :: ([','].intercalate ((a :: as).map t) ++ r)

theorem intercalate_cons_append (a : α) (as : List α) (r : List Char) :
    [','].intercalate ((a :: as).map t) ++ r = t a ++ afterFirst t r as := by
  cases as with
  | nil => rw [List.map_cons, List.map_nil, List.intercalate_singleton, afterFirst]
  | cons b bs =>
    rw [List.map_cons, List.map_cons, List.intercalate_cons_cons, List.append_assoc,
      List.append_assoc, List.singleton_append, afterFirst, List.map_cons]

/-- Elements between commas are read one by one up to a closing bracket, if no element starts with
that bracket. -/
theorem intercalate_append_inj {f : α → β} {close : Char} (hclose : isNumberChar close = false)
    (hcomma : close ≠ ',') (hopen : ∀ a rest rest', t a ++ rest ≠ close :: rest')
    {r s : List Char} : ∀ {as bs : List α},
    (∀ a ∈ as, ∀ b {r s : List Char}, EndsValue r → EndsValue s → t a ++ r = t b ++ s →
      f a = f b ∧ r = s) →
    [','].intercalate (as.map t) ++ close :: r = [','].intercalate (bs.map t) ++ close :: s →
    as.map f = bs.map f ∧ r = s := by
  have hends (r : List Char) (as : List α) : EndsValue (afterFirst t (close :: r) as) := by
    cases as with
    | nil =>
      rintro c ⟨⟩
      exact hclose
    | cons a as =>
      rintro c ⟨⟩
      rfl
  intro as
  induction as with
  | nil =>
    intro bs _ h
    cases bs with
    | nil => exact ⟨rfl, (List.cons.inj h).2⟩
    | cons b bs =>
      rw [intercalate_cons_append] at h
      exact absurd h.symm (hopen b _ _)
  | cons a as ih =>
    intro bs hread h
    cases bs with
    | nil =>
      rw [intercalate_cons_append] at h
      exact absurd h (hopen a _ _)
    | cons b bs =>
      rw [intercalate_cons_append, intercalate_cons_append] at h
      obtain ⟨hab, hrest⟩ := hread a List.mem_cons_self b (hends r as) (hends s bs) h
      rw [List.map_cons, List.map_cons, hab]
      cases as <;> cases bs
      · exact ⟨rfl, (List.cons.inj hrest).2⟩
      · exact absurd (List.cons.inj hrest).1 hcomma
      · exact absurd (List.cons.inj hrest).1.symm hcomma
      · obtain ⟨htail, hrs⟩ := ih (fun a ha => hread a (List.mem_cons_of_mem _ ha))
          (List.cons.inj hrest).2
        exact ⟨by rw [htail], hrs⟩

end

theorem toList_joined (texts : List String) :
    (joined texts).toList = [','].intercalate (texts.map String.toList) :=
  String.toList_intercalate

theorem toList_text_list (es : List Nbt) (r : List Char) :
    (list es).text.toList ++ r =
      '[' :: ([','].intercalate (es.map fun v => v.text.toList) ++ ']' :: r) := by
  rw [text, String.toList_append, String.toList_append, toList_joined, texts_eq_map, List.map_map,
    List.append_assoc, List.append_assoc]
  rfl

theorem toList_text_compound (fields : List (String × Nbt)) (r : List Char) :
    (compound fields).text.toList ++ r =
      '\x7b' :: ([','].intercalate (fields.map fun field => (fieldText field).toList) ++
        '\x7d' :: r) := by
  rw [text, String.toList_append, String.toList_append, toList_joined, fieldTexts_eq_map,
    List.map_map, List.append_assoc, List.append_assoc]
  rfl

/-- An array of whole numbers consists of its opening, the numbers between commas and a bracket. -/
theorem toList_array {α : Type} (opening : String) {item : α → String} {suffix : List Char}
    {toInt : α → ℤ} (hitem : ∀ a, (item a).toList = numeral suffix (toInt a)) (as : List α)
    (r : List Char) :
    (opening ++ joined (as.map item) ++ "]").toList ++ r = opening.toList ++
      ([','].intercalate (as.map fun a => numeral suffix (toInt a)) ++ ']' :: r) := by
  rw [String.toList_append, String.toList_append, toList_joined, List.map_map, List.append_assoc,
    List.append_assoc]
  simp only [Function.comp_def, hitem]
  rfl

theorem toList_text_byteArray (es : List Int8) (r : List Char) :
    (byteArray es).text.toList ++ r = ['[', 'B', ';'] ++
      ([','].intercalate (es.map fun n => numeral ['b'] n.toInt) ++ ']' :: r) := by
  rw [text]
  exact toList_array "[B;" (fun _ => String.toList_append) es r

theorem toList_text_intArray (es : List Int32) (r : List Char) :
    (intArray es).text.toList ++ r = ['[', 'I', ';'] ++
      ([','].intercalate (es.map fun n => numeral [] n.toInt) ++ ']' :: r) := by
  rw [text]
  exact toList_array "[I;" (fun _ => (List.append_nil _).symm) es r

theorem toList_text_longArray (es : List Int64) (r : List Char) :
    (longArray es).text.toList ++ r = ['[', 'L', ';'] ++
      ([','].intercalate (es.map fun n => numeral ['l'] n.toInt) ++ ']' :: r) := by
  rw [text]
  exact toList_array "[L;" (fun _ => String.toList_append) es r

/-! ## Kinds -/

/-- The kind of a number with a certain last character. -/
def kindOfLast : Option Char → StackKind
  | some 'b' => .byte
  | some 's' => .short
  | some 'l' => .long
  | some 'f' => .float
  | some 'd' => .double
  | _ => .int

/-- The kind of the value that a text starts with. -/
def kindAt : List Char → StackKind
  | '"' :: _ => .string
  | '\x7b' :: _ => .compound
  | '[' :: 'B' :: _ => .byteArray
  | '[' :: 'I' :: _ => .intArray
  | '[' :: 'L' :: _ => .longArray
  | '[' :: _ => .list
  | text => kindOfLast (text.takeWhile isNumberChar).getLast?

theorem kindOfLast_of_isDigit {c : Char} (h : c.isDigit = true) : kindOfLast (some c) = .int := by
  unfold kindOfLast
  split <;> first
    | rfl
    | (next heq => cases heq; cases h)

theorem exists_getLast? {v : Nbt} (h : v.isNumber = true) :
    ∃ c, v.text.toList.getLast? = some c ∧ kindOfLast (some c) = kindOf v := by
  have hsuffix {c : Char} (hc : suffixOf (kindOf v) = [c]) (hk : kindOfLast (some c) = kindOf v) :
      ∃ c, v.text.toList.getLast? = some c ∧ kindOfLast (some c) = kindOf v := by
    refine ⟨c, ?_, hk⟩
    rw [toList_text_of_isNumber h, hc, List.getLast?_concat]
  match v, h with
  | .byte _, _ | .short _, _ | .long _, _ | .float _, _ | .double _, _ => exact hsuffix rfl rfl
  | .int n, _ =>
    obtain ⟨m, hm⟩ := Number.toList_toString_int n.toInt
    obtain ⟨c, hc⟩ : ∃ c, (digitsOf m).getLast? = some c :=
      ⟨_, List.getLast?_eq_some_getLast Nat.toDigits_ne_nil⟩
    have htext : (text (.int n)).toList.getLast? = some c := by
      rw [text, hm, List.getLast?_append, hc]
      rfl
    exact ⟨c, htext, kindOfLast_of_isDigit
      (Number.allDigits_digitsOf m c (List.mem_of_getLast? hc))⟩

theorem kindAt_of_isNumberChar {c : Char} (hc : isNumberChar c = true) (cs : List Char) :
    kindAt (c :: cs) = kindOfLast ((c :: cs).takeWhile isNumberChar).getLast? := by
  unfold kindAt
  split <;> first
    | rfl
    | (next heq => cases heq; cases hc)

/-- A number ends where no character of numbers follows, and its last character says its kind. -/
theorem kindAt_of_isNumber {v : Nbt} (h : v.isNumber = true) {r : List Char} (hr : EndsValue r) :
    kindAt (v.text.toList ++ r) = kindOf v := by
  have hnumeric := isNumeric_text h
  obtain ⟨c, hc, hkind⟩ := exists_getLast? h
  have htake : (v.text.toList ++ r).takeWhile isNumberChar = v.text.toList := by
    rw [List.takeWhile_append_of_pos hnumeric]
    cases r with
    | nil => exact List.append_nil _
    | cons d r => rw [List.takeWhile_cons_of_neg (by simp [hr d rfl]), List.append_nil]
  cases hcs : v.text.toList with
  | nil =>
    rw [hcs] at hc
    cases hc
  | cons d cs =>
    rw [hcs] at htake hc hnumeric
    rw [List.cons_append, kindAt_of_isNumberChar (hnumeric d List.mem_cons_self),
      ← List.cons_append, htake, hc, hkind]

/-- A value starts as numbers, strings, records or sequences do. -/
theorem head_text (v : Nbt) : ∃ c cs, v.text.toList = c :: cs ∧
    (isNumberChar c = true ∨ c = '"' ∨ c = '\x7b' ∨ c = '[') := by
  have hnumber (h : v.isNumber = true) : ∃ c cs, v.text.toList = c :: cs ∧
      (isNumberChar c = true ∨ c = '"' ∨ c = '\x7b' ∨ c = '[') := by
    obtain ⟨c, hc, -⟩ := exists_getLast? h
    cases hcs : v.text.toList with
    | nil =>
      rw [hcs] at hc
      cases hc
    | cons d cs => exact ⟨d, cs, rfl, .inl (isNumeric_text h d (hcs ▸ List.mem_cons_self))⟩
  have hopening {c : Char} {cs : List Char} (h : v.text.toList ++ [] = c :: cs)
      (hc : c = '"' ∨ c = '\x7b' ∨ c = '[') : ∃ c cs, v.text.toList = c :: cs ∧
        (isNumberChar c = true ∨ c = '"' ∨ c = '\x7b' ∨ c = '[') :=
    ⟨c, cs, (List.append_nil _).symm.trans h, .inr hc⟩
  match v with
  | .byte _ | .short _ | .int _ | .long _ | .float _ | .double _ => exact hnumber rfl
  | .string s => exact hopening (toList_quoted s []) (.inl rfl)
  | .byteArray es => exact hopening (toList_text_byteArray es []) (.inr (.inr rfl))
  | .intArray es => exact hopening (toList_text_intArray es []) (.inr (.inr rfl))
  | .longArray es => exact hopening (toList_text_longArray es []) (.inr (.inr rfl))
  | .list es => exact hopening (toList_text_list es []) (.inr (.inr rfl))
  | .compound fields => exact hopening (toList_text_compound fields []) (.inr (.inl rfl))

/-- No value starts as another character would. -/
theorem text_append_ne {c : Char} (hc : isNumberChar c = false)
    (hother : c ≠ '"' ∧ c ≠ '\x7b' ∧ c ≠ '[') (v : Nbt) (r s : List Char) :
    v.text.toList ++ r ≠ c :: s := by
  obtain ⟨d, ds, hd, hcases⟩ := head_text v
  rw [hd, List.cons_append]
  intro h
  obtain ⟨rfl, -⟩ := List.cons.inj h
  rcases hcases with hnum | h | h | h
  · rw [hc] at hnum
    cases hnum
  · exact hother.1 h
  · exact hother.2.1 h
  · exact hother.2.2 h

/-- A text says of which kind the value is that it starts with. -/
theorem kindAt_text : ∀ (v : Nbt) {r : List Char}, EndsValue r →
    kindAt (v.text.toList ++ r) = kindOf v
  | .byte _, _, hr | .short _, _, hr | .int _, _, hr | .long _, _, hr | .float _, _, hr
  | .double _, _, hr => kindAt_of_isNumber rfl hr
  | .string s, _, _ => by
    rw [text, toList_quoted]
    rfl
  | .byteArray es, _, _ => by
    rw [toList_text_byteArray]
    rfl
  | .intArray es, _, _ => by
    rw [toList_text_intArray]
    rfl
  | .longArray es, _, _ => by
    rw [toList_text_longArray]
    rfl
  | .compound fields, _, _ => by
    rw [toList_text_compound]
    rfl
  | .list [], _, _ => by
    rw [toList_text_list]
    rfl
  | .list (e :: es), r, _ => by
    rw [toList_text_list, intercalate_cons_append]
    -- no element starts with the letter of an array
    have hne (c : Char) (hc : isNumberChar c = false) (hother : c ≠ '"' ∧ c ≠ '\x7b' ∧ c ≠ '[') :=
      text_append_ne hc hother e
    have hB := hne 'B' rfl (by decide)
    have hI := hne 'I' rfl (by decide)
    have hL := hne 'L' rfl (by decide)
    unfold kindAt
    split <;> first
      | rfl
      | (next heq => cases (List.cons.inj heq).1)
      | (next heq => exact absurd (List.cons.inj heq).2 (hB _ _))
      | (next heq => exact absurd (List.cons.inj heq).2 (hI _ _))
      | (next heq => exact absurd (List.cons.inj heq).2 (hL _ _))
      | (next hnot => exact absurd rfl (hnot _))

/-! ## Reading values -/

/-- Arrays of whole numbers are read one by one. -/
theorem numerals_append_inj {α : Type} {toInt : α → ℤ} (hinj : ∀ {a b}, toInt a = toInt b → a = b)
    {suffix : List Char} (hsuffix : IsNumeric suffix) {as bs : List α} {r s : List Char}
    (h : [','].intercalate (as.map fun a => numeral suffix (toInt a)) ++ ']' :: r =
      [','].intercalate (bs.map fun b => numeral suffix (toInt b)) ++ ']' :: s) :
    as = bs ∧ r = s := by
  have hopen (a : α) (rest rest' : List Char) :
      numeral suffix (toInt a) ++ rest ≠ ']' :: rest' := by
    have hnumeric := (isNumeric_toString_int (toInt a)).append hsuffix
    obtain ⟨m, hm⟩ := Number.toList_toString_int (toInt a)
    unfold numeral
    intro h
    cases hcs : (toString (toInt a)).toList ++ suffix with
    | nil =>
      rw [hm, List.append_eq_nil_iff, List.append_eq_nil_iff] at hcs
      exact Nat.toDigits_ne_nil hcs.1.2
    | cons c cs =>
      rw [hcs, List.cons_append] at h
      have hc := hnumeric c (hcs ▸ List.mem_cons_self)
      rw [(List.cons.inj h).1] at hc
      cases hc
  obtain ⟨hab, hrs⟩ := intercalate_append_inj (f := id) rfl (by decide) hopen
    (fun a _ b _ _ hr hs h => (numeral_append_inj hsuffix hr hs h).imp_left hinj) h
  rw [List.map_id, List.map_id] at hab
  exact ⟨hab, hrs⟩

/-- A value can be read off the head of a text in one way only, up to the bits of what is not a
number. -/
def Reads (v : Nbt) : Prop := ∀ (w : Nbt) {r s : List Char}, EndsValue r → EndsValue s →
  v.text.toList ++ r = w.text.toList ++ s → v.canonical = w.canonical ∧ r = s

theorem kindOf_eq_of_text {v w : Nbt} {r s : List Char} (hr : EndsValue r) (hs : EndsValue s)
    (h : v.text.toList ++ r = w.text.toList ++ s) : kindOf v = kindOf w := by
  rw [← kindAt_text v hr, h, kindAt_text w hs]

theorem reads_of_isNumber {v : Nbt} (h : v.isNumber = true) : v.Reads := by
  intro w r s hr hs htext
  have hkind := kindOf_eq_of_text hr hs htext
  have hw : w.isNumber = true := by
    match v, h with
    | .byte _, _ | .short _, _ | .int _, _ | .long _, _ | .float _, _ | .double _, _ =>
      cases w <;> first
        | rfl
        | cases hkind
  obtain ⟨hvw, hrs⟩ := token_append_inj (isNumeric_text h) (isNumeric_text hw) hr hs htext
  rw [toList_text_of_isNumber h, toList_text_of_isNumber hw, hkind] at hvw
  have hnumber := String.toList_injective (List.append_cancel_right hvw)
  exact ⟨canonical_eq_of_numberText h hkind hnumber, hrs⟩

theorem reads_string (a : String) : (string a).Reads := by
  intro w r s hr hs h
  have hkind := kindOf_eq_of_text hr hs h
  cases w <;> cases hkind
  rw [text, text] at h
  obtain ⟨rfl, hrs⟩ := quoted_append_inj h
  exact ⟨rfl, hrs⟩

theorem reads_array {α : Type} {array : List α → Nbt} {toInt : α → ℤ}
    (hinj : ∀ {a b}, toInt a = toInt b → a = b) {opening suffix : List Char}
    (hsuffix : IsNumeric suffix)
    (htext : ∀ as r, (array as).text.toList ++ r = opening ++
      ([','].intercalate (as.map fun a => numeral suffix (toInt a)) ++ ']' :: r))
    (hkind : ∀ as w, kindOf (array as) = kindOf w → ∃ bs, w = array bs) (as : List α) :
    (array as).Reads := by
  intro w r s hr hs h
  obtain ⟨bs, rfl⟩ := hkind as w (kindOf_eq_of_text hr hs h)
  rw [htext, htext] at h
  obtain ⟨rfl, hrs⟩ := numerals_append_inj hinj hsuffix (List.append_cancel_left h)
  exact ⟨rfl, hrs⟩

theorem reads_byteArray : ∀ es : List Int8, (byteArray es).Reads := by
  refine reads_array Int8.toInt_inj.1 (isNumeric_suffixOf .byte) toList_text_byteArray ?_
  intro _ w hkind
  cases w <;> cases hkind
  exact ⟨_, rfl⟩

theorem reads_intArray : ∀ es : List Int32, (intArray es).Reads := by
  refine reads_array Int32.toInt_inj.1 (isNumeric_suffixOf .int) toList_text_intArray ?_
  intro _ w hkind
  cases w <;> cases hkind
  exact ⟨_, rfl⟩

theorem reads_longArray : ∀ es : List Int64, (longArray es).Reads := by
  refine reads_array Int64.toInt_inj.1 (isNumeric_suffixOf .long) toList_text_longArray ?_
  intro _ w hkind
  cases w <;> cases hkind
  exact ⟨_, rfl⟩

theorem reads_list {es : List Nbt} (hes : ∀ v ∈ es, v.Reads) : (list es).Reads := by
  intro w r s hr hs h
  have hkind := kindOf_eq_of_text hr hs h
  cases w <;> cases hkind
  rw [toList_text_list, toList_text_list] at h
  obtain ⟨hcanonical, hrs⟩ := intercalate_append_inj (f := canonical) rfl (by decide)
    (fun v => text_append_ne rfl (by decide) v) (fun v hv w => hes v hv w) (List.cons.inj h).2
  rw [canonical, canonical, canonicalAll_eq_map, canonicalAll_eq_map, hcanonical]
  exact ⟨rfl, hrs⟩

theorem fieldText_append (field : String × Nbt) (r : List Char) :
    (fieldText field).toList ++ r =
      (keyText field.1).toList ++ ':' :: (field.2.text.toList ++ r) := by
  rw [fieldText, String.toList_append, String.toList_append, List.append_assoc, List.append_assoc]
  rfl

/-- No key starts as another character would. -/
theorem keyText_append_ne {c : Char} (hc : isBareChar c = false) (hquote : c ≠ '"') (key : String)
    {d : Char} {r s : List Char} (hd : c ≠ d) : (keyText key).toList ++ d :: r ≠ c :: s := by
  unfold keyText
  split
  · next h =>
    rw [isBare, Bool.and_eq_true, List.all_eq_true] at h
    intro heq
    cases hcs : key.toList with
    | nil =>
      rw [hcs] at heq
      exact hd (List.cons.inj heq).1.symm
    | cons e es =>
      rw [hcs, List.cons_append] at heq
      have he := h.2 e (hcs ▸ List.mem_cons_self)
      rw [(List.cons.inj heq).1, hc] at he
      cases he
  · rw [toList_quoted]
    intro heq
    exact hquote (List.cons.inj heq).1.symm

theorem reads_compound {fields : List (String × Nbt)} (hfields : ∀ field ∈ fields, field.2.Reads) :
    (compound fields).Reads := by
  intro w r s hr hs h
  have hkind := kindOf_eq_of_text hr hs h
  cases w <;> cases hkind
  rw [toList_text_compound, toList_text_compound] at h
  have hcolon (t : List Char) : EndsKey (':' :: t) := by
    rintro c ⟨⟩
    rfl
  obtain ⟨hcanonical, hrs⟩ := intercalate_append_inj
    (f := fun field : String × Nbt => (field.1, field.2.canonical)) rfl (by decide)
    (fun field rest rest' => by
      rw [fieldText_append]
      exact keyText_append_ne rfl (by decide) _ (by decide))
    (fun field hfield other r s hr hs h => by
      rw [fieldText_append, fieldText_append] at h
      obtain ⟨hkey, hvalue⟩ := keyText_append_inj (hcolon _) (hcolon _) h
      obtain ⟨hvalue, hrs⟩ := hfields field hfield other.2 hr hs (List.cons.inj hvalue).2
      exact ⟨by rw [hkey, hvalue], hrs⟩) (List.cons.inj h).2
  rw [canonical, canonical, canonicalFields_eq_map, canonicalFields_eq_map, hcanonical]
  exact ⟨rfl, hrs⟩

mutual

theorem reads : ∀ v : Nbt, v.Reads
  | .byte _ | .short _ | .int _ | .long _ | .float _ | .double _ => reads_of_isNumber rfl
  | .string a => reads_string a
  | .byteArray es => reads_byteArray es
  | .intArray es => reads_intArray es
  | .longArray es => reads_longArray es
  | .list es => reads_list (readsAll es)
  | .compound fields => reads_compound (readsFields fields)

theorem readsAll : ∀ vs : List Nbt, ∀ v ∈ vs, v.Reads
  | [] => fun _ hv => nomatch hv
  | v :: vs => List.forall_mem_cons.2 ⟨reads v, readsAll vs⟩

theorem readsFields : ∀ fields : List (String × Nbt), ∀ field ∈ fields, field.2.Reads
  | [] => fun _ hfield => nomatch hfield
  | (_, v) :: rest => List.forall_mem_cons.2 ⟨reads v, readsFields rest⟩

end

theorem text_canonicalSingle (x : Binary32) :
    (canonicalSingle x).text literalLayout = x.text literalLayout := by
  unfold canonicalSingle
  split
  · next h => rw [Binary32.text_of_isNaN h, Binary32.text_of_isNaN (by decide)]
  · rfl

theorem text_canonicalDouble (x : Binary64) :
    (canonicalDouble x).text literalLayout = x.text literalLayout := by
  unfold canonicalDouble
  split
  · next h => rw [Binary64.text_of_isNaN h, Binary64.text_of_isNaN (by decide)]
  · rfl

mutual

theorem text_canonical : ∀ v : Nbt, v.canonical.text = v.text
  | .float x => by rw [canonical, text, text, text_canonicalSingle]
  | .double x => by rw [canonical, text, text, text_canonicalDouble]
  | .list es => by rw [canonical, text, text, texts_canonical es]
  | .compound fields => by rw [canonical, text, text, fieldTexts_canonical fields]
  | .byte _ | .short _ | .int _ | .long _ | .string _ | .byteArray _ | .intArray _
  | .longArray _ => by rw [canonical]

theorem texts_canonical : ∀ vs : List Nbt, texts (canonicalAll vs) = texts vs
  | [] => rfl
  | v :: vs => by rw [canonicalAll, texts, texts, text_canonical v, texts_canonical vs]

theorem fieldTexts_canonical : ∀ fields : List (String × Nbt),
    fieldTexts (canonicalFields fields) = fieldTexts fields
  | [] => rfl
  | (key, v) :: rest => by
    rw [canonicalFields, fieldTexts, fieldTexts, text_canonical v, fieldTexts_canonical rest]

end

/-- A value can be read off the head of a text in one way only, up to the bits of what is not a
number. -/
theorem text_append_inj {v w : Nbt} {r s : List Char} (hr : EndsValue r) (hs : EndsValue s)
    (h : v.text.toList ++ r = w.text.toList ++ s) : v.canonical = w.canonical ∧ r = s :=
  reads v w hr hs h

/-- Two values have the same text exactly if they are the same up to the bits of what is not a
number. -/
theorem text_eq_iff {v w : Nbt} : v.text = w.text ↔ v.canonical = w.canonical := by
  constructor
  · intro h
    have hnil : EndsValue [] := fun _ hc => nomatch hc
    exact (text_append_inj hnil hnil (congrArg (String.toList · ++ []) h)).1
  · intro h
    rw [← text_canonical v, h, text_canonical w]

end Nbt

end Stagecraft.Target
