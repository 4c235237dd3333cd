import Stagecraft.Proofs.DataTexts
import Stagecraft.Target.Instruction

/-!
# Instructions are told apart by their commands

A path is read off a command step by step (`DataPath.text_append_inj`). No form of instruction opens
a command as another one continues it, so the opening words say which one it is, and the operands
are read one after the other. An instruction without raw text, comments or calls is determined by
its command (`Instruction.canonical_eq_of_text`), again up to the bits of what is not a number.
-/

namespace Stagecraft.Target

/-! ## Reading paths -/

theorem StackKind.id_injective {a b : StackKind} (h : a.id = b.id) : a = b := by
  revert h
  cases a <;> cases b <;> decide

/-- The characters of the names of stacks. -/
def isStackChar (c : Char) : Bool := c.isLower || c == '_'

theorem StackKind.isStackChar_of_mem_id (k : StackKind) :
    ∀ c ∈ k.id.toList, isStackChar c = true := by
  refine List.all_eq_true.1 ?_
  cases k <;> decide

/-- What follows a path: nothing, or a blank. -/
def EndsPath (r : List Char) : Prop := ∀ c ∈ r.head?, c = ' '

/-- The characters of path steps. -/
def nodeChars (nodes : List PathNode) : List Char := nodes.flatMap fun node => node.text.toList

theorem DataPath.toList_text (p : DataPath) :
    p.text.toList = p.stack.id.toList ++ nodeChars p.nodes := by
  rw [DataPath.text, String.toList_append, String.toList_join, List.flatMap_map]
  rfl

theorem nodeChars_append_cons (node : PathNode) (nodes : List PathNode) (r : List Char) :
    nodeChars (node :: nodes) ++ r = node.text.toList ++ (nodeChars nodes ++ r) := by
  rw [nodeChars, List.flatMap_cons, List.append_assoc]
  rfl

theorem PathNode.toList_text_index (i : Int32) (r : List Char) :
    (PathNode.index i).text.toList ++ r = '[' :: (Nbt.numeral [] i.toInt ++ ']' :: r) := by
  rw [PathNode.text, String.toList_append, String.toList_append, List.append_assoc,
    List.append_assoc, Nbt.numeral, List.append_nil]
  rfl

theorem PathNode.toList_text_key (name : String) (r : List Char) :
    (PathNode.key name).text.toList ++ r = '.' :: ((Nbt.keyText name).toList ++ r) := by
  rw [PathNode.text, String.toList_append, List.append_assoc]
  rfl

/-- A step starts with a bracket or a point. -/
theorem PathNode.head_text (node : PathNode) : ∃ c cs, node.text.toList = c :: cs ∧
    (c = '[' ∨ c = '.') := by
  cases node with
  | index i =>
    exact ⟨_, _, by rw [← List.append_nil (text _).toList, toList_text_index], .inl rfl⟩
  | key name => exact ⟨_, _, by rw [← List.append_nil (text _).toList, toList_text_key], .inr rfl⟩

theorem head_nodeChars_append (nodes : List PathNode) {r : List Char} (hr : EndsPath r) :
    ∀ c ∈ (nodeChars nodes ++ r).head?, c = '[' ∨ c = '.' ∨ c = ' ' := by
  cases nodes with
  | nil => exact fun c hc => .inr (.inr (hr c hc))
  | cons node nodes =>
    obtain ⟨d, ds, hd, hcases⟩ := node.head_text
    rw [nodeChars_append_cons, hd]
    rintro c ⟨⟩
    exact hcases.imp_right .inl

/-- Steps are read one by one. -/
theorem nodeChars_append_inj : ∀ {ns ms : List PathNode} {r s : List Char}, EndsPath r →
    EndsPath s → nodeChars ns ++ r = nodeChars ms ++ s → ns = ms ∧ r = s := by
  have hstop {node : PathNode} {nodes : List PathNode} {r s : List Char} (hr : EndsPath r) :
      r ≠ nodeChars (node :: nodes) ++ s := by
    obtain ⟨c, cs, hc, hcases⟩ := node.head_text
    rw [nodeChars_append_cons, hc]
    rintro rfl
    rcases hcases with rfl | rfl <;> cases hr _ rfl
  intro ns
  induction ns with
  | nil =>
    intro ms r s hr hs h
    cases ms with
    | nil => exact ⟨rfl, h⟩
    | cons m ms => exact absurd h (hstop hr)
  | cons n ns ih =>
    intro ms r s hr hs h
    cases ms with
    | nil => exact absurd h.symm (hstop hs)
    | cons m ms =>
      rw [nodeChars_append_cons, nodeChars_append_cons] at h
      cases n with
      | index i =>
        cases m with
        | index j =>
          rw [PathNode.toList_text_index, PathNode.toList_text_index] at h
          have hbracket (t : List Char) : Nbt.EndsValue (']' :: t) := by
            rintro c ⟨⟩
            rfl
          obtain ⟨hij, hrest⟩ := Nbt.numeral_append_inj (Nbt.isNumeric_suffixOf .int) (hbracket _)
            (hbracket _) (List.cons.inj h).2
          obtain ⟨rfl, hrs⟩ := ih hr hs (List.cons.inj hrest).2
          exact ⟨by rw [Int32.toInt_inj.1 hij], hrs⟩
        | key name =>
          rw [PathNode.toList_text_index, PathNode.toList_text_key] at h
          cases (List.cons.inj h).1
      | key name =>
        cases m with
        | index j =>
          rw [PathNode.toList_text_index, PathNode.toList_text_key] at h
          cases (List.cons.inj h).1
        | key name' =>
          rw [PathNode.toList_text_key, PathNode.toList_text_key] at h
          have hend {nodes : List PathNode} {t : List Char} (ht : EndsPath t) :
              Nbt.EndsKey (nodeChars nodes ++ t) := fun c hc => by
            rcases head_nodeChars_append nodes ht c hc with rfl | rfl | rfl <;> rfl
          obtain ⟨rfl, hrest⟩ := Nbt.keyText_append_inj (hend hr) (hend hs) (List.cons.inj h).2
          obtain ⟨rfl, hrs⟩ := ih hr hs hrest
          exact ⟨rfl, hrs⟩

/-- A path can be read off the head of a text in one way only. -/
theorem DataPath.text_append_inj {p q : DataPath} {r s : List Char} (hr : EndsPath r)
    (hs : EndsPath s) (h : p.text.toList ++ r = q.text.toList ++ s) : p = q ∧ r = s := by
  rw [DataPath.toList_text, DataPath.toList_text, List.append_assoc, List.append_assoc] at h
  have hend {nodes : List PathNode} {t : List Char} (ht : EndsPath t) :
      ∀ c ∈ (nodeChars nodes ++ t).head?, isStackChar c = false := fun c hc => by
    rcases head_nodeChars_append nodes ht c hc with rfl | rfl | rfl <;> rfl
  obtain ⟨hid, hrest⟩ := token_append_inj p.stack.isStackChar_of_mem_id
    q.stack.isStackChar_of_mem_id (hend hr) (hend hs) h
  obtain ⟨hnodes, hrs⟩ := nodeChars_append_inj hr hs hrest
  obtain ⟨stack, nodes⟩ := p
  obtain ⟨stack', nodes'⟩ := q
  cases StackKind.id_injective (String.toList_injective hid)
  cases hnodes
  exact ⟨rfl, hrs⟩

/-! ## Reading instructions -/

/-- The source with the same bits for all that are not numbers. -/
def Source.canonical : Source → Source
  | .value v => .value v.canonical
  | .copy path => .copy path

/-- Whether a source has a part that is not a number. -/
def Source.hasNaN : Source → Bool
  | .value v => v.hasNaN
  | .copy _ => false

theorem Source.canonical_eq_self : ∀ {source : Source}, source.hasNaN = false →
    source.canonical = source
  | .value v, h => by rw [canonical, v.canonical_eq_self h]
  | .copy _, _ => rfl

theorem Source.text_canonical : ∀ source : Source, source.canonical.text = source.text
  | .value v => congrArg ("value " ++ ·) v.text_canonical
  | .copy _ => rfl

namespace Instruction

/-- The instruction with the same bits for all that are not numbers. -/
def canonical : Instruction → Instruction
  | .append target source => .append target source.canonical
  | .set target source => .set target source.canonical
  | .ifScore negated register range body => .ifScore negated register range body.canonical
  | .remove target => .remove target
  | .setScore register value => .setScore register value
  | .storeScore register path => .storeScore register path
  | .storeData path register => .storeData path register
  | .call location => .call location
  | .comment line => .comment line
  | .raw line => .raw line

/-- Whether an instruction writes what is not a number. -/
def hasNaN : Instruction → Bool
  | .append _ source | .set _ source => source.hasNaN
  | .ifScore _ _ _ body => body.hasNaN
  | .remove _ | .setScore .. | .storeScore .. | .storeData .. | .call _ | .comment _ | .raw _ =>
    false

/-- Whether an instruction is neither raw text nor a comment nor a call, under a condition or
not. -/
def isPrimitive : Instruction → Bool
  | .append .. | .set .. | .remove _ | .setScore .. | .storeScore .. | .storeData .. => true
  | .ifScore _ _ _ body => body.isPrimitive
  | .call _ | .comment _ | .raw _ => false

/-- What a command may open with. -/
inductive Form where
  | modify | remove | setScore | storeScore | storeData
  | ifScore (negated : Bool)
deriving DecidableEq

/-- The words that a command opens with. -/
def Form.words : Form → String
  | .modify => "data modify storage " ++ storage ++ " "
  | .remove => "data remove storage " ++ storage ++ " "
  | .setScore => "scoreboard players set "
  | .storeScore => "execute store result score "
  | .storeData => "execute store result storage " ++ storage ++ " "
  | .ifScore negated => "execute " ++ (if negated then "unless" else "if") ++ " score "

/-- Of two words that a text starts with, one is the beginning of the other. -/
theorem isPrefixOf_of_append_eq {a b r s : String} (h : a ++ r = b ++ s) :
    a.toList.isPrefixOf b.toList = true ∨ b.toList.isPrefixOf a.toList = true := by
  have hlist := congrArg String.toList h
  rw [String.toList_append, String.toList_append] at hlist
  rw [List.isPrefixOf_iff_prefix, List.isPrefixOf_iff_prefix]
  exact List.prefix_or_prefix_of_prefix (List.prefix_append _ r.toList)
    (hlist ▸ List.prefix_append _ s.toList)

/-- No form opens a command as another one continues it. -/
theorem Form.eq_of_isPrefixOf {a b : Form} :
    a.words.toList.isPrefixOf b.words.toList = true → a = b := by
  rcases a with _ | _ | _ | _ | _ | _ | _ <;> rcases b with _ | _ | _ | _ | _ | _ | _ <;>
    decide +kernel

theorem Form.words_append_inj {a b : Form} {r s : String} (h : a.words ++ r = b.words ++ s) :
    a = b ∧ r = s := by
  obtain rfl : a = b := by
    rcases isPrefixOf_of_append_eq h with hab | hba
    · exact Form.eq_of_isPrefixOf hab
    · exact (Form.eq_of_isPrefixOf hba).symm
  exact ⟨rfl, (String.append_right_inj _).1 h⟩

/-- The form of an instruction. Calls, comments and raw text have none. -/
def form? : Instruction → Option Form
  | .append .. | .set .. => some .modify
  | .remove _ => some .remove
  | .setScore .. => some .setScore
  | .storeScore .. => some .storeScore
  | .storeData .. => some .storeData
  | .ifScore negated .. => some (.ifScore negated)
  | .call _ | .comment _ | .raw _ => none

/-- What follows the opening words. -/
def operands : Instruction → String
  | .append target source => target.text ++ (" append " ++ source.text)
  | .set target source => target.text ++ (" set " ++ source.text)
  | .remove target => target.text
  | .setScore register value => register.text ++ (" mcx " ++ toString value.toInt)
  | .storeScore register path => register.text ++ (" mcx run data get storage mcx: " ++ path.text)
  | .storeData path register =>
    path.text ++ (" byte 1 run scoreboard players get " ++ (register.text ++ " mcx"))
  | .ifScore _ register range body =>
    register.text ++ (" mcx matches " ++ (range.text ++ (" run " ++ body.text)))
  | .call location => location.text
  | .comment line => line
  | .raw line => line

/-- A command is its opening words followed by its operands. -/
theorem text_eq_append : ∀ {i : Instruction} {f : Form}, i.form? = some f →
    i.text = f.words ++ i.operands
  | .append .., _, rfl | .set .., _, rfl => String.append_assoc.trans String.append_assoc
  | .remove _, _, rfl => rfl
  | .setScore register value, _, rfl => by
    change "scoreboard players set " ++ register.text ++ " " ++ objective ++ " " ++
      toString value.toInt = "scoreboard players set " ++
        (register.text ++ (" " ++ objective ++ " " ++ toString value.toInt))
    simp only [String.append_assoc]
  | .storeScore register path, _, rfl => by
    change "execute store result score " ++ register.text ++ " " ++ objective ++
      " run data get storage " ++ storage ++ " " ++ path.text = "execute store result score " ++
        (register.text ++
          (" " ++ objective ++ " run data get storage " ++ storage ++ " " ++ path.text))
    simp only [String.append_assoc]
  | .storeData path register, _, rfl => by
    change "execute store result storage " ++ storage ++ " " ++ path.text ++
      " byte 1 run scoreboard players get " ++ register.text ++ " " ++ objective =
        "execute store result storage " ++ storage ++ " " ++
          (path.text ++ (" byte 1 run scoreboard players get " ++
            (register.text ++ (" " ++ objective))))
    simp only [String.append_assoc]
  | .ifScore negated register range body, _, rfl => by
    change "execute " ++ (if negated then "unless" else "if") ++ " score " ++ register.text ++
      " " ++ objective ++ " matches " ++ range.text ++ " run " ++ body.text =
        "execute " ++ (if negated then "unless" else "if") ++ " score " ++
          (register.text ++ (" " ++ objective ++ " matches " ++
            (range.text ++ (" run " ++ body.text))))
    simp only [String.append_assoc]

theorem exists_form {i : Instruction} (h : i.isPrimitive = true) : ∃ f, i.form? = some f := by
  match i, h with
  | .append .., _ | .set .., _ | .remove _, _ | .setScore .., _ | .storeScore .., _
  | .storeData .., _ | .ifScore .., _ => exact ⟨_, rfl⟩

/-- Commands that are equal have the same form and the same operands. -/
theorem form_eq_of_text {i j : Instruction} (hi : i.isPrimitive = true)
    (hj : j.isPrimitive = true) (h : i.text = j.text) :
    i.form? = j.form? ∧ i.operands = j.operands := by
  obtain ⟨f, hf⟩ := exists_form hi
  obtain ⟨g, hg⟩ := exists_form hj
  rw [text_eq_append hf, text_eq_append hg] at h
  obtain ⟨rfl, hoperands⟩ := Form.words_append_inj h
  exact ⟨hf.trans hg.symm, hoperands⟩

end Instruction

/-! ## Operands -/

/-- Registers are read off the head of a text. -/
theorem Register.text_append_inj {a b : Register} {r s : String} (h : a.text ++ r = b.text ++ s) :
    a = b ∧ r = s := by
  have hlist := congrArg String.toList h
  rw [String.toList_append, String.toList_append] at hlist
  cases a <;> cases b
  · exact ⟨rfl, String.toList_injective (List.append_cancel_left hlist)⟩
  · cases (List.cons.inj (List.cons.inj hlist).2).1
  · cases (List.cons.inj (List.cons.inj hlist).2).1
  · exact ⟨rfl, String.toList_injective (List.append_cancel_left hlist)⟩

theorem endsPath_append {word : String} {cs : List Char} (h : word.toList = ' ' :: cs)
    (r : String) : EndsPath (word ++ r).toList := by
  rw [String.toList_append, h]
  rintro c ⟨⟩
  rfl

/-- A path before a blank. -/
theorem DataPath.text_append_blank {p q : DataPath} {r s : String} (hr : EndsPath r.toList)
    (hs : EndsPath s.toList) (h : p.text ++ r = q.text ++ s) : p = q ∧ r = s := by
  have hlist := congrArg String.toList h
  rw [String.toList_append, String.toList_append] at hlist
  exact (DataPath.text_append_inj hr hs hlist).imp_right String.toList_injective

/-- Two paths with the same text are the same. -/
theorem DataPath.text_injective {p q : DataPath} (h : p.text = q.text) : p = q := by
  have hnil : EndsPath [] := fun _ hc => nomatch hc
  exact (DataPath.text_append_inj hnil hnil (congrArg (String.toList · ++ []) h)).1

/-- Two sources with the same text are the same, up to the bits of what is not a number. -/
theorem Source.canonical_eq_of_text : ∀ {a b : Source}, a.text = b.text → a.canonical = b.canonical
  | .value v, .value w, h => by
    have hvw : v.text = w.text := (String.append_right_inj "value ").1 h
    rw [canonical, canonical, Nbt.text_eq_iff.1 hvw]
  | .copy p, .copy q, h => by
    have hpq : p.text = q.text := (String.append_right_inj ("from storage " ++ storage ++ " ")).1 h
    rw [DataPath.text_injective hpq]
  | .value _, .copy _, h => by
    rcases Instruction.isPrefixOf_of_append_eq h with hpre | hpre <;>
      exact absurd hpre (by decide +kernel)
  | .copy _, .value _, h => by
    rcases Instruction.isPrefixOf_of_append_eq h with hpre | hpre <;>
      exact absurd hpre (by decide +kernel)

namespace ScoreRange

/-- The characters of bounds. -/
def isBoundChar (c : Char) : Bool := c.isDigit || c == '-'

theorem isBoundChar_of_mem_boundText (b : Option Int32) :
    ∀ c ∈ (boundText b).toList, isBoundChar c = true := by
  cases b with
  | none => exact fun _ hc => nomatch hc
  | some n =>
    obtain ⟨m, hm⟩ := Number.toList_toString_int n.toInt
    intro c hc
    rw [boundText, hm] at hc
    rcases List.mem_append.1 hc with hsign | hdigit
    · split at hsign
      · rw [List.mem_singleton.1 hsign]
        rfl
      · cases hsign
    · rw [isBoundChar, Number.allDigits_digitsOf m c hdigit, Bool.true_or]

theorem boundText_injective : ∀ {a b : Option Int32}, boundText a = boundText b → a = b := by
  have hne (n : Int32) : boundText (some n) ≠ boundText none := by
    obtain ⟨m, hm⟩ := Number.toList_toString_int n.toInt
    intro h
    have hlist := congrArg String.toList h
    rw [boundText, hm, boundText] at hlist
    exact Nat.toDigits_ne_nil (List.append_eq_nil_iff.1 hlist).2
  intro a b h
  cases a <;> cases b
  · rfl
  · exact absurd h.symm (hne _)
  · exact absurd h (hne _)
  · rw [Int32.toInt_inj.1 (Int.repr_injective h)]

/-- A range before a blank. -/
theorem text_append_blank {a b : ScoreRange} {r s : String} (hr : EndsPath r.toList)
    (hs : EndsPath s.toList) (h : a.text ++ r = b.text ++ s) : a = b ∧ r = s := by
  have hpoint (t : List Char) : ∀ c ∈ ('.' :: t).head?, isBoundChar c = false := by
    rintro c ⟨⟩
    rfl
  have hblank {t : List Char} (ht : EndsPath t) : ∀ c ∈ t.head?, isBoundChar c = false := by
    intro c hc
    rw [ht c hc]
    rfl
  have hlist (range : ScoreRange) (t : String) : (range.text ++ t).toList =
      (boundText range.min).toList ++ '.' :: '.' :: ((boundText range.max).toList ++ t.toList) := by
    rw [text, String.toList_append, String.toList_append, String.toList_append, List.append_assoc,
      List.append_assoc]
    rfl
  have htext := congrArg String.toList h
  rw [hlist, hlist] at htext
  obtain ⟨hmin, hrest⟩ := token_append_inj (isBoundChar_of_mem_boundText _)
    (isBoundChar_of_mem_boundText _) (hpoint _) (hpoint _) htext
  obtain ⟨hmax, hrs⟩ := token_append_inj (isBoundChar_of_mem_boundText _)
    (isBoundChar_of_mem_boundText _) (hblank hr) (hblank hs)
    (List.cons.inj (List.cons.inj hrest).2).2
  obtain ⟨min, max⟩ := a
  obtain ⟨min', max'⟩ := b
  cases boundText_injective (String.toList_injective hmin)
  cases boundText_injective (String.toList_injective hmax)
  exact ⟨rfl, String.toList_injective hrs⟩

end ScoreRange

namespace Instruction

/-- Instructions with the same command are the same, up to the bits of what is not a number. -/
theorem canonical_eq_of_text : ∀ {i j : Instruction}, i.isPrimitive = true → j.isPrimitive = true →
    i.text = j.text → i.canonical = j.canonical := by
  have happend (a : Source) : EndsPath (" append " ++ a.text).toList := endsPath_append rfl _
  have hset (a : Source) : EndsPath (" set " ++ a.text).toList := endsPath_append rfl _
  have hother (a b : Source) : " append " ++ a.text ≠ " set " ++ b.text := by
    intro h
    rcases isPrefixOf_of_append_eq h with hpre | hpre <;> exact absurd hpre (by decide +kernel)
  intro i
  induction i with
  | append target source =>
    intro j hi hj h
    obtain ⟨hform, hoperands⟩ := form_eq_of_text hi hj h
    cases j <;> cases hform
    · obtain ⟨rfl, hsource⟩ := DataPath.text_append_blank (happend _) (happend _) hoperands
      rw [canonical, canonical, Source.canonical_eq_of_text ((String.append_right_inj _).1 hsource)]
    · obtain ⟨-, hsource⟩ := DataPath.text_append_blank (happend _) (hset _) hoperands
      exact absurd hsource (hother _ _)
  | set target source =>
    intro j hi hj h
    obtain ⟨hform, hoperands⟩ := form_eq_of_text hi hj h
    cases j <;> cases hform
    · obtain ⟨-, hsource⟩ := DataPath.text_append_blank (hset _) (happend _) hoperands
      exact absurd hsource.symm (hother _ _)
    · obtain ⟨rfl, hsource⟩ := DataPath.text_append_blank (hset _) (hset _) hoperands
      rw [canonical, canonical, Source.canonical_eq_of_text ((String.append_right_inj _).1 hsource)]
  | remove target =>
    intro j hi hj h
    obtain ⟨hform, hoperands⟩ := form_eq_of_text hi hj h
    cases j <;> cases hform
    rw [DataPath.text_injective hoperands]
  | setScore register value =>
    intro j hi hj h
    obtain ⟨hform, hoperands⟩ := form_eq_of_text hi hj h
    cases j <;> cases hform
    obtain ⟨rfl, hvalue⟩ := Register.text_append_inj hoperands
    rw [Int32.toInt_inj.1 (Int.repr_injective ((String.append_right_inj _).1 hvalue))]
  | storeScore register path =>
    intro j hi hj h
    obtain ⟨hform, hoperands⟩ := form_eq_of_text hi hj h
    cases j <;> cases hform
    obtain ⟨rfl, hpath⟩ := Register.text_append_inj hoperands
    rw [DataPath.text_injective ((String.append_right_inj _).1 hpath)]
  | storeData path register =>
    intro j hi hj h
    obtain ⟨hform, hoperands⟩ := form_eq_of_text hi hj h
    cases j <;> cases hform
    obtain ⟨rfl, hregister⟩ := DataPath.text_append_blank (endsPath_append rfl _)
      (endsPath_append rfl _) hoperands
    rw [(Register.text_append_inj ((String.append_right_inj _).1 hregister)).1]
  | ifScore negated register range body ih =>
    intro j hi hj h
    obtain ⟨hform, hoperands⟩ := form_eq_of_text hi hj h
    cases j <;> cases hform
    obtain ⟨rfl, hrest⟩ := Register.text_append_inj hoperands
    obtain ⟨rfl, hbody⟩ := ScoreRange.text_append_blank (endsPath_append rfl _)
      (endsPath_append rfl _) ((String.append_right_inj _).1 hrest)
    have hsame := (String.append_right_inj _).1 hbody
    rw [canonical, canonical, ih hi (by exact hj) hsame]
  | call location => exact fun hi => nomatch hi
  | comment line => exact fun hi => nomatch hi
  | raw line => exact fun hi => nomatch hi

theorem text_canonical : ∀ i : Instruction, i.canonical.text = i.text
  | .append target source => congrArg
      ("data modify storage " ++ storage ++ " " ++ target.text ++ " append " ++ ·)
      source.text_canonical
  | .set target source => congrArg
      ("data modify storage " ++ storage ++ " " ++ target.text ++ " set " ++ ·)
      source.text_canonical
  | .ifScore negated register range body => congrArg
      ("execute " ++ (if negated then "unless" else "if") ++ " score " ++ register.text ++ " " ++
        objective ++ " matches " ++ range.text ++ " run " ++ ·)
      body.text_canonical
  | .remove _ | .setScore .. | .storeScore .. | .storeData .. | .call _ | .comment _ | .raw _ => rfl

theorem canonical_eq_self : ∀ {i : Instruction}, i.hasNaN = false → i.canonical = i
  | .append _ source, h | .set _ source, h => by
    rw [canonical, Source.canonical_eq_self h]
  | .ifScore _ _ _ body, h => by rw [canonical, canonical_eq_self (i := body) h]
  | .remove _, _ | .setScore .., _ | .storeScore .., _ | .storeData .., _ | .call _, _
  | .comment _, _ | .raw _, _ => rfl

end Instruction

/-- **Texts are unambiguous.** Data values without a part that is not a number are the same if their
texts are, two paths are, and so are two instructions that are neither raw text nor comments nor
calls and write nothing that is not a number. In general two values have the same text, and two such
instructions the same command, exactly if they are the same up to the bits of what is not a
number. -/
theorem texts_unambiguous :
    (∀ v w : Nbt, v.hasNaN = false → w.hasNaN = false → v.text = w.text → v = w) ∧
      (∀ p q : DataPath, p.text = q.text → p = q) ∧
        (∀ i j : Instruction, i.isPrimitive = true → j.isPrimitive = true → i.hasNaN = false →
          j.hasNaN = false → i.text = j.text → i = j) ∧
          (∀ v w : Nbt, v.text = w.text ↔ v.canonical = w.canonical) ∧
            ∀ i j : Instruction, i.isPrimitive = true → j.isPrimitive = true →
              (i.text = j.text ↔ i.canonical = j.canonical) := by
  refine ⟨fun v w hv hw h => ?_, fun _ _ => DataPath.text_injective, fun i j hi hj hni hnj h => ?_,
    fun _ _ => Nbt.text_eq_iff,
    fun i j hi hj => ⟨Instruction.canonical_eq_of_text hi hj, fun h => ?_⟩⟩
  · rw [← Nbt.canonical_eq_self v hv, Nbt.text_eq_iff.1 h, Nbt.canonical_eq_self w hw]
  · rw [← Instruction.canonical_eq_self hni, Instruction.canonical_eq_of_text hi hj h,
      Instruction.canonical_eq_self hnj]
  · rw [← i.text_canonical, h, j.text_canonical]

/-- A record whose key and string hold brackets, commas and quotes, with a number of its own. -/
def delimited : Nbt :=
  .compound [("a,\x7d", .list [.byte 1, .string "1b],[\"", .float ⟨0x3fc00000⟩]), ("b", .list [])]

/-- A field of the record on top of its stack is written, if the result register allows it. -/
def guardedWrite (path : DataPath) : Instruction :=
  .ifScore true .result (.atLeast 1) (.set path (.value delimited))

theorem texts_unambiguous_delimited :
    delimited.text = "\x7b\"a,\x7d\":[1b,\"1b],[\\\"\",1.5f],b:[]\x7d" ∧
      delimited = delimited.canonical ∧
      (⟨.compound, [.index (-1), .key "a.b"]⟩ : DataPath) =
        (DataPath.slot .compound (-1)).field "a.b" ∧
      guardedWrite ⟨.compound, [.index (-1), .key "a.b"]⟩ =
        guardedWrite ((DataPath.slot .compound (-1)).field "a.b") ∧
      (Nbt.float ⟨0x7fc00000⟩).text = (Nbt.float ⟨0x7fc00001⟩).text ∧
      Nbt.float ⟨0x7fc00000⟩ ≠ Nbt.float ⟨0x7fc00001⟩ := by
  refine ⟨by decide +kernel, ?_, ?_, ?_, ?_, fun h => ?_⟩
  · exact texts_unambiguous.1 _ _ (by decide +kernel) (by decide +kernel) (by decide +kernel)
  · exact texts_unambiguous.2.1 _ _ (by decide +kernel)
  · exact texts_unambiguous.2.2.1 _ _ (by decide +kernel) (by decide +kernel) (by decide +kernel)
      (by decide +kernel) (by decide +kernel)
  · exact (texts_unambiguous.2.2.2.1 _ _).2 rfl
  · cases h

end Stagecraft.Target
