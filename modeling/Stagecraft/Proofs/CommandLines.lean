import Stagecraft.Proofs.CommandTexts
import Stagecraft.Proofs.Locations
import Stagecraft.Proofs.StackDiscipline

/-!
# Commands and lines

A function is written one command to a line. Quotes and backslashes are escaped in strings and in
keys, line breaks are not: what the source has in a string, in a key or in the name of a captured
variable stands in a command as it is. So the commands of a function have as many line breaks as the
strings of its source (`Emit.lineBreaks_of_function`), and they are one line each exactly if no such
string has one (`Emit.one_line_iff`).
-/

namespace Stagecraft.Target

open Number (IsNumeric isNumeric_toString_int)

/-! ## Line breaks of texts -/

/-- A character that ends a line. -/
def isLineBreak (c : Char) : Bool := c == '\n' || c == '\r'

/-- The number of line breaks in a text. -/
def lineBreaks (s : String) : Nat := s.toList.countP isLineBreak

/-- The number of line breaks in several texts. -/
def lineBreaksOf (texts : List String) : Nat := (texts.map lineBreaks).sum

@[simp] theorem lineBreaks_append (s t : String) :
    lineBreaks (s ++ t) = lineBreaks s + lineBreaks t := by
  rw [lineBreaks, String.toList_append, List.countP_append]
  rfl

@[simp] theorem lineBreaksOf_nil : lineBreaksOf [] = 0 := rfl

@[simp] theorem lineBreaksOf_cons (s : String) (texts : List String) :
    lineBreaksOf (s :: texts) = lineBreaks s + lineBreaksOf texts := rfl

@[simp] theorem lineBreaksOf_append (texts more : List String) :
    lineBreaksOf (texts ++ more) = lineBreaksOf texts + lineBreaksOf more := by
  rw [lineBreaksOf, List.map_append, List.sum_append]
  rfl

theorem lineBreaks_eq_zero {s : String} (h : ∀ c ∈ s.toList, isLineBreak c = false) :
    lineBreaks s = 0 :=
  List.countP_eq_zero.2 fun c hc => by simp [h c hc]

theorem lineBreaks_of_isNumeric {s : String} (h : IsNumeric s.toList) : lineBreaks s = 0 := by
  refine lineBreaks_eq_zero fun c hc => Bool.eq_false_iff.2 fun hbreak => ?_
  have hnumber := h c hc
  rw [isLineBreak, Bool.or_eq_true, beq_iff_eq, beq_iff_eq] at hbreak
  rcases hbreak with rfl | rfl <;> cases hnumber

theorem lineBreaks_toString (n : Int) : lineBreaks (toString n) = 0 :=
  lineBreaks_of_isNumeric (isNumeric_toString_int n)

/-- A separator without a line break adds none. -/
theorem lineBreaks_intercalate {sep : String} (hsep : lineBreaks sep = 0) (texts : List String) :
    lineBreaks (String.intercalate sep texts) = lineBreaksOf texts := by
  rw [lineBreaks, String.toList_intercalate]
  induction texts with
  | nil => rfl
  | cons s texts ih =>
    cases texts with
    | nil =>
      rw [List.map_cons, List.map_nil, List.intercalate_singleton]
      rfl
    | cons t texts =>
      rw [List.map_cons, List.map_cons, List.intercalate_cons_cons, List.countP_append,
        List.countP_append, ← List.map_cons, ih, lineBreaksOf_cons s]
      change lineBreaks s + lineBreaks sep + _ = _
      rw [hsep, Nat.add_zero]

namespace Nbt

/-- Escapes add no line break and take none away. -/
theorem lineBreaks_quoted (s : String) : lineBreaks (quoted s) = lineBreaks s := by
  have hchar (c : Char) : (quotedChar c).countP isLineBreak = [c].countP isLineBreak := by
    unfold quotedChar
    split
    · exact List.countP_cons_of_neg (by decide)
    · rfl
  have hchars (cs : List Char) : (cs.flatMap quotedChar).countP isLineBreak =
      cs.countP isLineBreak := by
    induction cs with
    | nil => rfl
    | cons c cs ih =>
      rw [List.flatMap_cons, List.countP_append, hchar, ih, ← List.countP_append]
      rfl
  rw [lineBreaks, quoted, String.toList_ofList, List.countP_cons_of_neg (by decide),
    List.countP_append, hchars]
  rfl

theorem lineBreaks_keyText (key : String) : lineBreaks (keyText key) = lineBreaks key := by
  unfold keyText
  split
  · rfl
  · exact lineBreaks_quoted key

mutual

/-- The strings and keys in a value. -/
def strings : Nbt → List String
  | .string s => [s]
  | .list es => stringsOfAll es
  | .compound fields => stringsOfFields fields
  | .byte _ | .short _ | .int _ | .long _ | .float _ | .double _ | .byteArray _ | .intArray _
  | .longArray _ => []

/-- The strings and keys in several values. -/
def stringsOfAll : List Nbt → List String
  | [] => []
  | v :: vs => v.strings ++ stringsOfAll vs

/-- The strings and keys in the fields of a record. -/
def stringsOfFields : List (String × Nbt) → List String
  | [] => []
  | (key, v) :: rest => key :: (v.strings ++ stringsOfFields rest)

end

theorem lineBreaks_of_isNumber {v : Nbt} (h : v.isNumber = true) : lineBreaks v.text = 0 :=
  lineBreaks_of_isNumeric (isNumeric_text h)

/-- An array of whole numbers has no line break. -/
theorem lineBreaks_numbers {α : Type} {opening : String} (hopening : lineBreaks opening = 0)
    {f : α → String} (h : ∀ a, lineBreaks (f a) = 0) (as : List α) :
    lineBreaks (opening ++ joined (as.map f) ++ "]") = 0 := by
  have hzero : lineBreaksOf (as.map f) = 0 := by
    induction as with
    | nil => rfl
    | cons a as ih => rw [List.map_cons, lineBreaksOf_cons, h, ih]
  rw [lineBreaks_append, lineBreaks_append, hopening, joined, lineBreaks_intercalate rfl, hzero]
  rfl

mutual

/-- The line breaks of a value are those of its strings and keys. -/
theorem lineBreaks_text : ∀ v : Nbt, lineBreaks v.text = lineBreaksOf v.strings
  | .byte _ | .short _ | .int _ | .long _ | .float _ | .double _ => by
    rw [lineBreaks_of_isNumber rfl, strings]
    rfl
  | .string s => by
    rw [text, strings, lineBreaks_quoted]
    rfl
  | .byteArray es => by
    rw [text, strings]
    exact lineBreaks_numbers rfl (fun n => by rw [lineBreaks_append, lineBreaks_toString]; rfl) es
  | .intArray es => by
    rw [text, strings]
    exact lineBreaks_numbers rfl (fun n => lineBreaks_toString _) es
  | .longArray es => by
    rw [text, strings]
    exact lineBreaks_numbers rfl (fun n => by rw [lineBreaks_append, lineBreaks_toString]; rfl) es
  | .list es => by
    rw [text, strings, ← lineBreaks_texts es, lineBreaks_append, lineBreaks_append, joined,
      lineBreaks_intercalate rfl]
    exact Nat.zero_add _
  | .compound fields => by
    rw [text, strings, ← lineBreaks_fieldTexts fields, lineBreaks_append, lineBreaks_append, joined,
      lineBreaks_intercalate rfl]
    exact Nat.zero_add _

theorem lineBreaks_texts : ∀ vs : List Nbt, lineBreaksOf (texts vs) = lineBreaksOf (stringsOfAll vs)
  | [] => rfl
  | v :: vs => by
    rw [texts, stringsOfAll, lineBreaksOf_cons, lineBreaksOf_append, lineBreaks_text v,
      lineBreaks_texts vs]

theorem lineBreaks_fieldTexts : ∀ fields : List (String × Nbt),
    lineBreaksOf (fieldTexts fields) = lineBreaksOf (stringsOfFields fields)
  | [] => rfl
  | (key, v) :: rest => by
    rw [fieldTexts, stringsOfFields, lineBreaksOf_cons, lineBreaksOf_cons, lineBreaksOf_append,
      lineBreaks_append, lineBreaks_append, lineBreaks_keyText, lineBreaks_text v,
      lineBreaks_fieldTexts rest]
    change lineBreaks key + 0 + _ + _ = _
    omega

end

end Nbt

/-! ## Line breaks of commands -/

/-- The key of a path step, if it has one. -/
def PathNode.keys : PathNode → List String
  | .index _ => []
  | .key name => [name]

/-- The keys in a path. -/
def DataPath.keys (p : DataPath) : List String := p.nodes.flatMap PathNode.keys

theorem PathNode.lineBreaks_text : ∀ node : PathNode,
    lineBreaks node.text = lineBreaksOf node.keys
  | .index i => by
    rw [PathNode.text, lineBreaks_append, lineBreaks_append, lineBreaks_toString]
    rfl
  | .key name => by
    rw [PathNode.text, lineBreaks_append, Nbt.lineBreaks_keyText]
    exact Nat.zero_add _

theorem StackKind.lineBreaks_id (k : StackKind) : lineBreaks k.id = 0 := by
  cases k <;> rfl

theorem DataPath.lineBreaks_text (p : DataPath) : lineBreaks p.text = lineBreaksOf p.keys := by
  have hnodes (nodes : List PathNode) :
      lineBreaks (String.join (nodes.map PathNode.text)) =
        lineBreaksOf (nodes.flatMap PathNode.keys) := by
    rw [lineBreaks, String.toList_join]
    induction nodes with
    | nil => rfl
    | cons node nodes ih =>
      rw [List.map_cons, List.flatMap_cons, List.countP_append, ih, List.flatMap_cons,
        lineBreaksOf_append, ← node.lineBreaks_text]
      rfl
  rw [DataPath.text, lineBreaks_append, StackKind.lineBreaks_id, hnodes, Nat.zero_add]
  rfl

/-- The strings and keys in a source. -/
def Source.strings : Source → List String
  | .value v => v.strings
  | .copy path => path.keys

theorem Source.lineBreaks_text : ∀ source : Source,
    lineBreaks source.text = lineBreaksOf source.strings
  | .value v => by
    change lineBreaks ("value " ++ v.text) = _
    rw [lineBreaks_append, v.lineBreaks_text]
    exact Nat.zero_add _
  | .copy path => by
    change lineBreaks ("from storage " ++ storage ++ " " ++ path.text) = _
    rw [lineBreaks_append, path.lineBreaks_text]
    exact Nat.zero_add _

theorem Register.lineBreaks_text (r : Register) : lineBreaks r.text = 0 := by
  cases r <;> rfl

theorem ScoreRange.lineBreaks_text (range : ScoreRange) : lineBreaks range.text = 0 := by
  have hbound (b : Option Int32) : lineBreaks (boundText b) = 0 := by
    cases b with
    | none => rfl
    | some n => exact lineBreaks_toString _
  rw [text, lineBreaks_append, lineBreaks_append, hbound, hbound]
  rfl

namespace Instruction

/-- The strings that an instruction brings into its command. -/
def strings : Instruction → List String
  | .append target source | .set target source => target.keys ++ source.strings
  | .remove target => target.keys
  | .setScore .. => []
  | .storeScore _ path | .storeData path _ => path.keys
  | .ifScore _ _ _ body => body.strings
  | .call location => [location.nspace, location.path]
  | .comment line | .raw line => [line]

theorem Form.lineBreaks_words (f : Form) : lineBreaks f.words = 0 := by
  rcases f with _ | _ | _ | _ | _ | _ | _ <;> rfl

theorem lineBreaks_of_form {i : Instruction} {f : Form} (h : i.form? = some f) :
    lineBreaks i.text = lineBreaks i.operands := by
  rw [text_eq_append h, lineBreaks_append, Form.lineBreaks_words, Nat.zero_add]

/-- A source is written to a target with words between them. -/
theorem lineBreaks_writes {words : String} (hwords : lineBreaks words = 0) (target : DataPath)
    (source : Source) : lineBreaks (target.text ++ (words ++ source.text)) =
      lineBreaksOf (target.keys ++ source.strings) := by
  rw [lineBreaks_append, lineBreaks_append, hwords, Nat.zero_add, target.lineBreaks_text,
    source.lineBreaks_text, lineBreaksOf_append]

/-- The line breaks of a command are those of the strings of its instruction. -/
theorem lineBreaks_text : ∀ i : Instruction, lineBreaks i.text = lineBreaksOf i.strings
  | .append target source | .set target source =>
    (lineBreaks_of_form rfl).trans (lineBreaks_writes rfl target source)
  | .remove target => by
    rw [lineBreaks_of_form rfl]
    exact target.lineBreaks_text
  | .setScore register value => by
    rw [lineBreaks_of_form rfl]
    change lineBreaks (register.text ++ (" mcx " ++ toString value.toInt)) = _
    rw [lineBreaks_append, lineBreaks_append, register.lineBreaks_text, lineBreaks_toString]
    rfl
  | .storeScore register path => by
    rw [lineBreaks_of_form rfl]
    change lineBreaks (register.text ++ (" mcx run data get storage mcx: " ++ path.text)) = _
    rw [lineBreaks_append, lineBreaks_append, register.lineBreaks_text, path.lineBreaks_text]
    change 0 + (0 + _) = lineBreaksOf path.keys
    rw [Nat.zero_add, Nat.zero_add]
  | .storeData path register => by
    rw [lineBreaks_of_form rfl]
    change lineBreaks (path.text ++
      (" byte 1 run scoreboard players get " ++ (register.text ++ " mcx"))) = _
    rw [lineBreaks_append, lineBreaks_append, lineBreaks_append, register.lineBreaks_text,
      path.lineBreaks_text]
    rfl
  | .ifScore negated register range body => by
    rw [lineBreaks_of_form rfl]
    change lineBreaks (register.text ++
      (" mcx matches " ++ (range.text ++ (" run " ++ body.text)))) = _
    rw [lineBreaks_append, lineBreaks_append, lineBreaks_append, lineBreaks_append,
      register.lineBreaks_text, range.lineBreaks_text, lineBreaks_text body]
    change 0 + (0 + (0 + (0 + _))) = lineBreaksOf body.strings
    simp only [Nat.zero_add]
  | .call location => by
    change lineBreaks ("function " ++ (location.nspace ++ ":" ++ location.path)) = _
    rw [lineBreaks_append, lineBreaks_append, lineBreaks_append]
    change 0 + (_ + 0 + _) = _ + (_ + 0)
    omega
  | .comment line => by
    change lineBreaks ("# " ++ line) = _
    rw [lineBreaks_append]
    exact Nat.zero_add _
  | .raw line => rfl

end Instruction

theorem lineBreaks_escaped (s : String) : lineBreaks (Text.escaped s) = 0 := by
  have hbytes : ((List.range 256).all fun n =>
      (Text.escapedByte (UInt8.ofNat n)).all fun c => !isLineBreak c) = true := by decide +kernel
  refine lineBreaks_eq_zero fun c hc => ?_
  rw [Text.escaped, String.toList_ofList] at hc
  obtain ⟨b, -, hb⟩ := List.mem_flatMap.1 hc
  rw [← UInt8.ofNat_toNat (x := b)] at hb
  have hall := List.all_eq_true.1 hbytes b.toNat (List.mem_range.2 b.toNat_lt)
  simpa using List.all_eq_true.1 hall c hb

/-- A location has the line breaks of its namespace and of the module path. -/
theorem lineBreaksOf_ofName (nspace : String) (name : DefName) :
    lineBreaksOf [(Location.ofName nspace name).nspace, (Location.ofName nspace name).path] =
      lineBreaks nspace + lineBreaksOf name.path := by
  rw [Location.ofName, lineBreaksOf_cons, lineBreaksOf_cons, lineBreaks_intercalate rfl,
    lineBreaksOf_append, lineBreaksOf_cons, lineBreaks_escaped]
  rfl

end Stagecraft.Target

/-! ## Strings of the source -/

namespace Stagecraft.Flat

namespace Pattern

mutual

/-- The keys of the records that a pattern takes apart. -/
def keys : Pattern → List String
  | .int .. | .range .. | .var .. | .wildcard _ => []
  | .list _ ps | .tuple _ ps => keysOfAll ps
  | .compound _ fields => keysOfFields fields

/-- The keys of the records that several patterns take apart. -/
def keysOfAll : List Pattern → List String
  | [] => []
  | p :: ps => p.keys ++ keysOfAll ps

/-- The keys of the fields of a record pattern, and those inside the fields. -/
def keysOfFields : List (String × Pattern) → List String
  | [] => []
  | (key, p) :: rest => key :: (p.keys ++ keysOfFields rest)

end

end Pattern

/-- The names of the captured variables that are stored: those whose values have content. -/
def Capture.keys : List Capture → List String
  | [] => []
  | c :: rest => (if c.ty.erase = [.endTag] then [] else [c.v.name]) ++ keys rest

namespace Term

mutual

/-- The strings of a term that its code may write: string literals, keys of records and of record
patterns, names of captured variables and raw commands. -/
def strings : Term → List String
  | .literal _ l => (Target.Nbt.ofLiteral l).strings
  | .array _ _ es | .list _ es | .tuple _ es => stringsOfAll es
  | .compound _ fields => stringsOfFields fields
  | .ref _ e | .call _ _ e | .test _ e _ => strings e
  | .closure _ _ captures => Capture.keys captures
  | .branch _ c a _ _ => strings c ++ strings a
  | .letIn _ binder init body => strings init ++ (binder.keys ++ strings body)
  | .var .. => []
  | .command _ line => [line]

/-- The strings of several terms. -/
def stringsOfAll : List Term → List String
  | [] => []
  | t :: ts => strings t ++ stringsOfAll ts

/-- The keys of the fields of a record and the strings of its fields. -/
def stringsOfFields : List (String × Term) → List String
  | [] => []
  | (key, t) :: rest => strings t ++ key :: stringsOfFields rest

end

end Term

/-- The strings of a function that its code may write. -/
def Function.strings (f : Function) : List String := f.binder.keys ++ f.body.strings

end Stagecraft.Flat

/-! ## Line breaks of emitted code -/

namespace Stagecraft.Emit

open Target (StackKind Nbt Instruction DataPath Source ScoreRange lineBreaks lineBreaksOf
  lineBreaksOf_append lineBreaksOf_cons)
open Flat (Ty Pattern Term Capture)

/-- The number of line breaks in the commands of instructions. -/
def commandBreaks (is : List Instruction) : Nat := (is.map fun i => lineBreaks i.text).sum

/-- Every successful run adds instructions with `n` line breaks in their commands. -/
def Breaks {α : Type} (n : Nat) (x : EmitM α) : Prop :=
  ∀ o a o', x o = .ok (a, o') →
    commandBreaks o'.instructions.toList = commandBreaks o.instructions.toList + n

namespace Breaks

variable {α β : Type} {n m : Nat} {x : EmitM α} {f : α → EmitM β}

theorem congr (h : Breaks n x) (hn : n = m) : Breaks m x := hn ▸ h

theorem bind (hx : Breaks n x) (hf : ∀ a, Breaks m (f a)) : Breaks (n + m) (x >>= f) := by
  intro o b o'' h
  change (x o >>= fun r => f r.1 r.2) = .ok (b, o'') at h
  obtain ⟨⟨a, o'⟩, hr, h⟩ := Except.bind_ok.1 h
  rw [hf a o' b o'' h, hx o a o' hr, Nat.add_assoc]

/-- What comes after a computation that adds no line break. -/
theorem andThen (hx : Breaks 0 x) (hf : ∀ a, Breaks m (f a)) : Breaks m (x >>= f) :=
  (hx.bind hf).congr (Nat.zero_add m)

/-- A computation that adds no line break may be known to give certain answers only. -/
theorem guarded {y : Except Error α} (hf : ∀ a, y = .ok a → Breaks m (f a)) :
    Breaks m (liftM y >>= f) := by
  intro o b o' h
  cases y with
  | error e => cases h
  | ok a => exact hf a rfl o b o' h

theorem pure (a : α) : Breaks 0 (Pure.pure a : EmitM α) := by
  intro o b o' h
  cases h
  rfl

theorem throw (e : Error) : Breaks n (MonadExcept.throw e : EmitM α) := by
  intro o b o' h
  cases h

theorem ofExcept (y : Except Error α) : Breaks 0 (liftM y : EmitM α) := by
  intro o b o' h
  cases y with
  | error e => cases h
  | ok a =>
    cases h
    rfl

theorem get : Breaks 0 (MonadState.get : EmitM Output) := by
  intro o a o' h
  cases h
  rfl

theorem emit (i : Instruction) : Breaks (lineBreaksOf i.strings) (emit i) := by
  intro o a o' h
  cases h
  rw [Array.toList_push, commandBreaks, List.map_append, List.sum_append, ← i.lineBreaks_text]
  rfl

theorem emitSilent {i : Instruction} (h : lineBreaksOf i.strings = 0) : Breaks 0 (Emit.emit i) :=
  (emit i).congr h

theorem ask (g : Slots → Except Error α) : Breaks 0 (ask g) :=
  get.bind fun o => ofExcept (g o.slots)

theorem follow (g : Slots → Slots) : Breaks 0 (follow g) := by
  intro o a o' h
  cases h
  rfl

theorem tryFollow (g : Slots → Except Error Slots) : Breaks 0 (tryFollow g) := by
  intro o a o' h
  change (liftM (g o.slots) >>= fun slots => set { o with slots } : EmitM Unit) o = .ok (a, o') at h
  cases hg : g o.slots with
  | error e =>
    rw [hg] at h
    cases h
  | ok slots =>
    rw [hg] at h
    cases h
    rfl

end Breaks

section

variable (nspace : String)

theorem breaks_push {k : StackKind} (hk : k ≠ .endTag) (source : Source) :
    Breaks (lineBreaksOf source.strings) (push ⟨nspace, false⟩ k source) := by
  unfold push
  rw [if_pos hk]
  exact (Breaks.pure ()).andThen fun _ => (Breaks.emit (.append (.whole k) source)).bind fun _ =>
    Breaks.follow _

/-- Copies of slots bring no strings. -/
theorem breaks_push_slot (k j : StackKind) (i : Int32) :
    Breaks 0 (push ⟨nspace, false⟩ k (.copy (.slot j i))) := by
  by_cases hk : k = .endTag
  · unfold push
    rw [if_neg (not_not.2 hk)]
    exact Breaks.follow _
  · exact breaks_push nspace hk _

theorem breaks_removeAt (k : StackKind) (i : Int32) (keeps : List StackKind) :
    Breaks 0 (removeAt ⟨nspace, false⟩ k i keeps) := by
  unfold removeAt
  refine (Breaks.tryFollow _).andThen fun _ => ?_
  split
  · exact (Breaks.pure ()).andThen fun _ => Breaks.emit (.remove (.slot k i))
  · exact Breaks.pure ()

theorem breaks_dropAll (keeps : List StackKind) : ∀ ks : List StackKind,
    Breaks 0 (dropAll ⟨nspace, false⟩ keeps ks)
  | [] => Breaks.pure ()
  | k :: ks => (breaks_removeAt nspace k _ keeps).andThen fun _ => breaks_dropAll keeps ks

theorem breaks_removeFree (k : StackKind) : Breaks 0 (removeFree ⟨nspace, false⟩ k) :=
  (Breaks.ask _).andThen fun _ => Breaks.get.andThen fun _ => breaks_removeAt nspace k _ []

theorem breaks_removeFreeAll : ∀ ks : List StackKind, Breaks 0 (removeFreeAll ⟨nspace, false⟩ ks)
  | [] => Breaks.pure ()
  | k :: ks => (breaks_removeFree nspace k).andThen fun _ => breaks_removeFreeAll ks

/-! ### Binders, tests and variables -/

mutual

/-- A binder writes the keys of the records that it takes apart. -/
theorem breaks_bind : ∀ p : Pattern, Breaks (lineBreaksOf p.keys) (bind ⟨nspace, false⟩ p)
  | .var info v => by
    rw [bind]
    exact (Breaks.tryFollow _).andThen fun _ => Breaks.pure _
  | .int .. | .range .. => by
    rw [bind]
    exact (breaks_removeFree nspace .int).andThen fun _ => Breaks.pure _
  | .wildcard info => by
    rw [bind]
    exact (breaks_removeFreeAll nspace _).andThen fun _ => Breaks.pure _
  | .tuple _ ps => by
    rw [bind]
    exact breaks_bindAll ps
  | .compound _ fields => by
    rw [bind]
    exact (Breaks.ask _).andThen fun record => (breaks_bindFields record fields).bind fun frame =>
      Breaks.get.andThen fun _ => (breaks_removeAt nspace .compound _ []).andThen fun _ =>
        Breaks.pure _
  | .list .. => by
    rw [bind]
    exact Breaks.throw _

theorem breaks_bindAll : ∀ ps : List Pattern,
    Breaks (lineBreaksOf (Pattern.keysOfAll ps)) (bindAll ⟨nspace, false⟩ ps)
  | [] => by
    rw [bindAll]
    exact Breaks.pure _
  | p :: ps => by
    rw [bindAll, Pattern.keysOfAll, lineBreaksOf_append, Nat.add_comm]
    exact (breaks_bindAll ps).bind fun frame => (breaks_bind p).bind fun _ => Breaks.pure _

theorem breaks_bindFields (record : Nat) : ∀ fields : List (String × Pattern),
    Breaks (lineBreaksOf (Pattern.keysOfFields fields)) (bindFields ⟨nspace, false⟩ record fields)
  | [] => by
    rw [bindFields]
    exact Breaks.pure _
  | (key, p) :: rest => by
    rw [bindFields, Pattern.keysOfFields, lineBreaksOf_cons, lineBreaksOf_append]
    refine Breaks.guarded fun k hk => Breaks.get.andThen fun o => ?_
    exact (breaks_push nspace (oneSlot_ok hk).2 _).bind fun _ => (breaks_bind p).bind fun frame =>
      (breaks_bindFields record rest).bind fun _ => Breaks.pure _

end

theorem breaks_testInt (range : ScoreRange) : Breaks 0 (testInt ⟨nspace, false⟩ range) :=
  (Breaks.emit (.storeScore .scratch (.slot .int (-1)))).andThen fun _ =>
    (breaks_removeAt nspace .int _ []).andThen fun _ => Breaks.emit (guard range)

mutual

theorem breaks_test : ∀ p : Pattern, Breaks 0 (test ⟨nspace, false⟩ p)
  | .int .. | .range .. => by
    rw [test]
    exact breaks_testInt nspace _
  | .tuple _ ps => by
    rw [test]
    exact breaks_testAll ps
  | .var .. | .wildcard _ => by
    rw [test]
    exact breaks_dropAll nspace [] _
  | .list .. | .compound .. => by
    rw [test]
    exact Breaks.throw _

theorem breaks_testAll : ∀ ps : List Pattern, Breaks 0 (testAll ⟨nspace, false⟩ ps)
  | [] => by
    rw [testAll]
    exact Breaks.pure ()
  | p :: ps => by
    rw [testAll]
    exact (breaks_testAll ps).andThen fun _ => breaks_test p

end

theorem breaks_copySlots (v : Var) : ∀ ks before : List StackKind,
    Breaks 0 (copySlots ⟨nspace, false⟩ v before ks)
  | [], before => by
    rw [copySlots]
    exact Breaks.pure ()
  | k :: rest, before => by
    rw [copySlots]
    refine Breaks.get.andThen fun o => ?_
    split
    · exact Breaks.throw _
    · exact (breaks_push_slot nspace k k _).andThen fun _ => breaks_copySlots v rest _

/-- Captured variables are stored under their names. -/
theorem breaks_storeCaptures : ∀ captures : List Capture,
    Breaks (lineBreaksOf (Capture.keys captures)) (storeCaptures captures)
  | [] => by
    rw [storeCaptures]
    exact Breaks.pure ()
  | c :: rest => by
    have hrest := breaks_storeCaptures rest
    rw [storeCaptures, Capture.keys, lineBreaksOf_append]
    by_cases hend : c.ty.erase = [.endTag]
    · rw [if_neg (not_not.2 hend), if_pos hend]
      exact hrest.congr (Nat.zero_add _).symm
    · rw [if_pos hend, if_neg hend]
      refine Breaks.guarded fun k hk => Breaks.get.andThen fun o => ?_
      dsimp only
      split
      · exact Breaks.throw _
      · exact (Breaks.emit _).bind fun _ => hrest

/-! ### Terms -/

/-- Calls of a name have no line break. -/
def CallsInLine (name : DefName) : Prop :=
  lineBreaks nspace + lineBreaksOf name.path = 0

variable {nspace} in
theorem CallsInLine.location {name : DefName} (h : CallsInLine nspace name) :
    lineBreaksOf (Instruction.call (.ofName nspace name)).strings = 0 :=
  (Target.lineBreaksOf_ofName nspace name).trans h

variable {nspace} in
theorem breaks_jump {thenName elseName : DefName} (hthen : CallsInLine nspace thenName)
    (helse : CallsInLine nspace elseName) :
    Breaks 0 (jump ⟨nspace, false⟩ thenName elseName) :=
  Breaks.andThen (Breaks.emitSilent (by exact hthen.location)) fun _ =>
    Breaks.emitSilent (by exact helse.location)

/-- Elements of arrays that are constants have no strings. -/
theorem strings_of_constant? {kind : ArrayKind} {t : Term} (h : ¬(constant? kind t).isNone) :
    t.strings = [] := by
  match t with
  | .literal _ l =>
    cases kind <;> cases l <;> first
      | rfl
      | exact absurd rfl h
  | .array .. | .list .. | .compound .. | .ref .. | .tuple .. | .closure .. | .branch .. | .letIn ..
  | .var .. | .call .. | .test .. | .command .. => exact absurd rfl h

/-- The parts of a shell have no strings. -/
theorem strings_arrayShell (kind : ArrayKind) (es : List Term) :
    (arrayShell kind es).strings = [] := by
  cases kind <;> rfl

/-- A term is pushed, stored somewhere and dropped again. -/
theorem Breaks.stored {t : Term} {n m : Nat} {what : String} {store : StackKind → Instruction}
    {rest : EmitM Unit} (ht : Breaks n (term ⟨nspace, false⟩ t)) (keys : List String)
    (hstore : ∀ k, (store k).strings = keys) (hrest : Breaks m rest) :
    Breaks (n + (lineBreaksOf keys + m)) (do
      let k ← Emit.oneSlot t.ty what
      term ⟨nspace, false⟩ t
      Emit.emit (store k)
      drop ⟨nspace, false⟩ k []
      rest) :=
  Breaks.guarded fun k _ => ht.bind fun _ => (hstore k ▸ Breaks.emit (store k)).bind fun _ =>
    (breaks_removeAt nspace k _ []).andThen fun _ => hrest

mutual

/-- The code of a term has the line breaks of its strings. -/
theorem breaks_term : ∀ t : Term, (∀ c ∈ callSites t, CallsInLine nspace c.name) →
    Breaks (lineBreaksOf t.strings) (term ⟨nspace, false⟩ t)
  | .literal ty l, _ => by
    rw [term]
    exact Breaks.guarded fun k hk => breaks_push nspace (oneSlot_ok hk).2 _
  | .array ty kind es, hcalls => by
    rw [term]
    refine Breaks.guarded fun k hk => ((breaks_push nspace (oneSlot_ok hk).2 _).congr ?_).andThen
      fun _ => breaks_arrayElements k kind 0 es hcalls
    change lineBreaksOf (arrayShell kind es).strings = 0
    rw [strings_arrayShell]
    rfl
  | .list ty es, hcalls => by
    rw [term]
    exact (breaks_push nspace (by decide) (.value (.list []))).andThen fun _ =>
      breaks_listElements es hcalls
  | .compound ty fields, hcalls => by
    rw [term]
    exact (breaks_push nspace (by decide) (.value (.compound []))).andThen fun _ =>
      breaks_compoundFields fields hcalls
  | .ref .., _ => by
    rw [term]
    exact Breaks.throw _
  | .tuple _ es, hcalls => by
    rw [term]
    exact breaks_terms es hcalls
  | .closure _ tag captures, _ => by
    rw [term]
    exact ((breaks_push nspace (by decide)
      (.value (.compound [("_", .int (Int32.ofNat tag))]))).congr rfl).andThen fun _ =>
        breaks_storeCaptures captures
  | .branch ty c a thenName elseName, hcalls => by
    rw [callSites, List.forall_mem_cons, List.forall_mem_cons, List.forall_mem_append] at hcalls
    obtain ⟨hthen, helse, hc, ha⟩ := hcalls
    rw [term, Term.strings, lineBreaksOf_append]
    exact (breaks_term c hc).bind fun _ => (Breaks.emitSilent rfl).andThen fun _ =>
      (breaks_removeAt nspace .byte _ []).andThen fun _ => (breaks_term a ha).bind fun _ =>
        (breaks_jump hthen helse).andThen fun _ => (Breaks.tryFollow _).andThen fun _ =>
          Breaks.follow _
  | .letIn ty p i b, hcalls => by
    rw [callSites, List.forall_mem_append] at hcalls
    rw [term, Term.strings, lineBreaksOf_append, lineBreaksOf_append]
    refine (breaks_term i hcalls.1).bind fun _ => (breaks_bind nspace p).bind fun frame =>
      (breaks_term b hcalls.2).bind fun _ => (?_ : Breaks 0 _)
    split
    · exact Breaks.follow _
    · exact breaks_dropAll nspace _ _
  | .var ty v, _ => by
    rw [term]
    exact breaks_copySlots nspace v ty.erase []
  | .call ty name a, hcalls => by
    rw [callSites, List.forall_mem_cons] at hcalls
    rw [term]
    exact (breaks_term a hcalls.2).bind fun _ =>
      (Breaks.emitSilent hcalls.1.location).andThen fun _ =>
        (Breaks.tryFollow _).andThen fun _ => Breaks.follow _
  | .test ty e p, hcalls => by
    rw [term]
    exact (breaks_term e hcalls).bind fun _ => (Breaks.emit (.setScore .result 1)).andThen fun _ =>
      (breaks_test nspace p).andThen fun _ =>
        (breaks_push nspace (by decide) (.value (.byte 0))).andThen fun _ =>
          Breaks.emit (.storeData (.slot .byte (-1)) .result)
  | .command ty line, _ => by
    rw [term]
    exact (Breaks.pure ()).andThen fun _ => (Breaks.emit (.raw line)).bind fun _ => Breaks.follow _

theorem breaks_terms : ∀ ts : List Term, (∀ c ∈ callSitesOfAll ts, CallsInLine nspace c.name) →
    Breaks (lineBreaksOf (Term.stringsOfAll ts)) (terms ⟨nspace, false⟩ ts)
  | [], _ => by
    rw [terms]
    exact Breaks.pure ()
  | t :: ts, hcalls => by
    rw [callSitesOfAll, List.forall_mem_append] at hcalls
    rw [terms, Term.stringsOfAll, lineBreaksOf_append]
    exact (breaks_term t hcalls.1).bind fun _ => breaks_terms ts hcalls.2

theorem breaks_arrayElements (shell : StackKind) (kind : ArrayKind) (index : Nat) :
    ∀ ts : List Term, (∀ c ∈ callSitesOfAll ts, CallsInLine nspace c.name) →
      Breaks (lineBreaksOf (Term.stringsOfAll ts))
        (arrayElements ⟨nspace, false⟩ shell kind index ts)
  | [], _ => by
    rw [arrayElements]
    exact Breaks.pure ()
  | t :: ts, hcalls => by
    rw [callSitesOfAll, List.forall_mem_append] at hcalls
    rw [arrayElements, Term.stringsOfAll, lineBreaksOf_append]
    split
    · exact Breaks.stored nspace (breaks_term t hcalls.1) [] (fun _ => rfl)
        (breaks_arrayElements shell kind (index + 1) ts hcalls.2) |>.congr (by simp)
    · next hconst =>
      rw [strings_of_constant? hconst]
      exact (breaks_arrayElements shell kind (index + 1) ts hcalls.2).congr (Nat.zero_add _).symm

theorem breaks_listElements : ∀ ts : List Term,
    (∀ c ∈ callSitesOfAll ts, CallsInLine nspace c.name) →
      Breaks (lineBreaksOf (Term.stringsOfAll ts)) (listElements ⟨nspace, false⟩ ts)
  | [], _ => by
    rw [listElements]
    exact Breaks.pure ()
  | t :: ts, hcalls => by
    rw [callSitesOfAll, List.forall_mem_append] at hcalls
    rw [listElements, Term.stringsOfAll, lineBreaksOf_append]
    exact Breaks.stored nspace (breaks_term t hcalls.1) [] (fun _ => rfl)
      (breaks_listElements ts hcalls.2) |>.congr (by simp)

theorem breaks_compoundFields : ∀ fields : List (String × Term),
    (∀ c ∈ callSitesOfFields fields, CallsInLine nspace c.name) →
      Breaks (lineBreaksOf (Term.stringsOfFields fields)) (compoundFields ⟨nspace, false⟩ fields)
  | [], _ => by
    rw [compoundFields]
    exact Breaks.pure ()
  | (key, t) :: rest, hcalls => by
    rw [callSitesOfFields, List.forall_mem_append] at hcalls
    rw [compoundFields, Term.stringsOfFields, lineBreaksOf_append, lineBreaksOf_cons]
    exact Breaks.stored nspace (breaks_term t hcalls.1) [key] (fun _ => rfl)
      (breaks_compoundFields rest hcalls.2)

end

theorem breaks_functionBody {f : Flat.Function}
    (hcalls : ∀ c ∈ callSites f.body, CallsInLine nspace c.name) :
    Breaks (lineBreaksOf f.strings) (functionBody ⟨nspace, false⟩ f) := by
  unfold functionBody
  rw [Flat.Function.strings, lineBreaksOf_append]
  refine (Breaks.pure ()).andThen fun _ => (Breaks.follow _).andThen fun _ =>
    (breaks_bind nspace f.binder).bind fun frame => (breaks_term nspace f.body hcalls).bind
      fun _ => (?_ : Breaks 0 _)
  dsimp only
  split
  · refine (Breaks.ask _).andThen fun _ => ?_
    split
    exacts [Breaks.emitSilent rfl, Breaks.pure ()]
  · refine (breaks_dropAll nspace _ _).andThen fun _ => (Breaks.ask _).andThen fun _ => ?_
    split
    exacts [Breaks.emitSilent rfl, Breaks.pure ()]

end

/-- The commands of a function have as many line breaks as the strings of its source. -/
theorem lineBreaks_of_function {nspace : String} {f : Flat.Function} {is : List Instruction}
    (hcalls : ∀ c ∈ callSites f.body, CallsInLine nspace c.name)
    (h : function ⟨nspace, false⟩ f = .ok is) :
    (is.map fun i => lineBreaks i.text).sum = lineBreaksOf f.strings := by
  obtain ⟨⟨_, o⟩, hrun, hpure⟩ := Except.bind_ok.1 h
  cases hpure
  exact (breaks_functionBody nspace hcalls _ _ _ hrun).trans (Nat.zero_add _)

/-- The commands of a function are one line each exactly if no string of its source has a line
break. -/
theorem one_line_iff {nspace : String} {f : Flat.Function} {is : List Instruction}
    (hcalls : ∀ c ∈ callSites f.body, CallsInLine nspace c.name)
    (h : function ⟨nspace, false⟩ f = .ok is) :
    (∀ i ∈ is, lineBreaks i.text = 0) ↔ ∀ s ∈ f.strings, lineBreaks s = 0 := by
  have hsum := lineBreaks_of_function hcalls h
  have hcommands : (is.map fun i => lineBreaks i.text).sum = 0 ↔
      ∀ i ∈ is, lineBreaks i.text = 0 := by
    rw [List.sum_eq_zero_iff_forall_eq_nat]
    simp
  have hstrings : lineBreaksOf f.strings = 0 ↔ ∀ s ∈ f.strings, lineBreaks s = 0 := by
    rw [lineBreaksOf, List.sum_eq_zero_iff_forall_eq_nat]
    simp
  rw [← hcommands, hsum, hstrings]

/-- A string literal of two lines makes a command of two lines. -/
example :
    ((function ⟨"minecraft", false⟩ ⟨[], ⟨["main"], "f"⟩, .wildcard ⟨[], .int⟩, .scalar .string,
      .literal (.scalar .string) (.string "a\nb"), none⟩).toOption.map
        fun is => is.map Instruction.text) =
      some ["data remove storage mcx: int[-1]",
        "data modify storage mcx: string append value \"a\nb\""] := by
  decide +kernel

end Stagecraft.Emit
