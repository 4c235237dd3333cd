import Stagecraft.Proofs.Aggregates
import Stagecraft.Proofs.Dispatch
import Stagecraft.Proofs.RecordEntry

/-!
# Records of captured variables

A function value is a record that has the tag of its body at the key `_` and the captured variables
at their names. `recordOf` says what is in it: code for a function value leaves that record
(`leaves_recordOf`), and the binder of the body gives every captured variable back from it
(`restores_captures`). Keys are names of variables, and nothing keeps a variable from being called
`_`. If one is captured, its value is where the tag was, and the dispatcher goes by it
(`apply_readTag_of_captured`); otherwise it goes by the tag (`apply_readTag`).
-/

namespace Stagecraft.Emit

open Target (StackKind PerKind Nbt DataPath)
open Machine (State Program run ends_of_leads)
open Flat (Capture captureFields)
open Emit.Frame (held ofBindings)

/-! ## What is in a record -/

/-- The captured variables that have a content, by name, with their values. -/
def capturedValues (ρ : Bound) : List Capture → List (String × Nbt)
  | [] => []
  | c :: rest =>
    match Keyed.find? c.v.level ρ with
    | some [(k, v)] =>
      if k = .endTag then capturedValues ρ rest else (c.v.name, v) :: capturedValues ρ rest
    | _ => capturedValues ρ rest

/-- The record of a function value with a tag and captured variables. -/
def recordOf (ρ : Bound) (tag : Nat) (captures : List Capture) : List (String × Nbt) :=
  (capturedValues ρ captures).foldl (fun fields e => Keyed.insert e.1 e.2 fields)
    [("_", .int (Int32.ofNat tag))]

/-- Captured variables are in scope, with the cells of their types. -/
def HaveCells (ρ : Bound) (captures : List Capture) : Prop :=
  ∀ c ∈ captures, ∃ cs, Keyed.find? c.v.level ρ = some cs ∧ cs.map (·.1) = c.ty.erase

section

variable {ρ : Bound} {captures : List Capture}

theorem HaveCells.tail {c : Capture} (h : HaveCells ρ (c :: captures)) : HaveCells ρ captures :=
  fun d hd => h d (List.mem_cons_of_mem c hd)

theorem keys_capturedValues_subset (ρ : Bound) (captures : List Capture) :
    Keyed.keys (capturedValues ρ captures) ⊆ captures.map (·.v.name) := by
  induction captures with
  | nil => exact List.Subset.refl _
  | cons c rest ih =>
    have hrest := List.subset_cons_of_subset c.v.name ih
    rw [List.map_cons, capturedValues]
    split
    · split
      · exact hrest
      · exact List.cons_subset_cons _ ih
    · exact hrest

theorem nodup_keys_capturedValues (h : (captures.map (·.v.name)).Nodup) :
    (Keyed.keys (capturedValues ρ captures)).Nodup := by
  induction captures with
  | nil => exact List.nodup_nil
  | cons c rest ih =>
    rw [List.map_cons, List.nodup_cons] at h
    have hrest := ih h.2
    rw [capturedValues]
    split
    · split
      · exact hrest
      · exact List.nodup_cons.2 ⟨fun hc => h.1 (keys_capturedValues_subset ρ rest hc), hrest⟩
    · exact hrest

/-- A captured variable with a content is among the values. -/
theorem mem_capturedValues {c : Capture} {k : StackKind} {v : Nbt} (hc : c ∈ captures)
    (hv : Keyed.find? c.v.level ρ = some [(k, v)]) (hk : k ≠ .endTag) :
    (c.v.name, v) ∈ capturedValues ρ captures := by
  induction captures with
  | nil => cases hc
  | cons d rest ih =>
    rcases List.mem_cons.1 hc with rfl | hc
    · rw [capturedValues, hv]
      simp only [if_neg hk]
      exact List.mem_cons_self
    · have hrest := ih hc
      rw [capturedValues]
      split
      · split
        · exact hrest
        · exact List.mem_cons_of_mem _ hrest
      · exact hrest

/-- At a key there is the captured variable of that name, and at `_` the tag if there is none. -/
theorem find?_recordOf (hnames : (captures.map (·.v.name)).Nodup) (tag : Nat) (key : String) :
    Keyed.find? key (recordOf ρ tag captures) =
      (Keyed.find? key (capturedValues ρ captures)).or
        (if "_" = key then some (.int (Int32.ofNat tag)) else none) :=
  Keyed.find?_foldl_insert (nodup_keys_capturedValues hnames) _ key

/-- Every captured variable is in the record with its value, whatever it is called. -/
theorem find?_recordOf_of_mem (hnames : (captures.map (·.v.name)).Nodup) (tag : Nat) {c : Capture}
    {k : StackKind} {v : Nbt} (hc : c ∈ captures)
    (hv : Keyed.find? c.v.level ρ = some [(k, v)]) (hk : k ≠ .endTag) :
    Keyed.find? c.v.name (recordOf ρ tag captures) = some v := by
  rw [find?_recordOf hnames, Keyed.find?_of_mem (nodup_keys_capturedValues hnames)
    (mem_capturedValues hc hv hk), Option.some_or]

/-- The tag is in the record if no captured variable is called `_`. -/
theorem find?_tag_recordOf (hnames : (captures.map (·.v.name)).Nodup)
    (htag : "_" ∉ captures.map (·.v.name)) (tag : Nat) :
    Keyed.find? "_" (recordOf ρ tag captures) = some (.int (Int32.ofNat tag)) := by
  have hnone : Keyed.find? "_" (capturedValues ρ captures) = none := by
    refine Keyed.find?_eq_none fun h => htag (keys_capturedValues_subset ρ captures h)
  rw [find?_recordOf hnames, hnone, Option.none_or, if_pos rfl]

end

/-! ## Runs -/

/-- Code that leads from its precondition to a condition without any call runs there. -/
theorem runs_of_emits {α : Type} {options : Options} {x : EmitM α} {pre : Pre α}
    (hx : Emits (Callees.unknown.calls options) x pre) {o o' : Output} {a : α}
    (h : x o = .ok (a, o')) {s : State} {Q : α → Slots → State → Prop}
    (hpre : pre o.slots s Q) :
    ∃ is, o'.instructions.toList = o.instructions.toList ++ is ∧
      ∃ n, ∃ s' : State, Q a o'.slots s' ∧ ∀ (program : Program) fuel base,
        run program (n + fuel) is (s.above base) = ⟨s'.above base, fuel, none⟩ := by
  have hcalls : (Callees.unknown.calls options).Realized
      (fun i : Program × PerKind (List Nbt) => i.1) (·.2) := by
    rintro l s _ ⟨_, _, _, _, _, -, -, hpre, -⟩
    cases hpre
  obtain ⟨is, his, hleads⟩ := hx o a o' h
  obtain ⟨n, s', hQ, hrun⟩ := ends_of_leads hcalls (hleads s Q hpre)
  exact ⟨is, his, n, s', hQ, fun program fuel base => hrun fuel (program, base)⟩

section

variable {options : Options} {ρ : Bound} {captures : List Capture}

theorem capturesPre_of_haveCells {Q : List (String × Nbt) → Prop} (hscope : HaveCells ρ captures)
    {fields : List (String × Nbt)} (hQ : Q ((capturedValues ρ captures).foldl
      (fun fields e => Keyed.insert e.1 e.2 fields) fields)) :
    capturesPre ρ captures fields Q := by
  induction captures generalizing fields with
  | nil => exact hQ
  | cons c rest ih =>
    obtain ⟨cs, hcs, hkinds⟩ := hscope c List.mem_cons_self
    rw [capturedValues, hcs] at hQ
    rw [capturesPre]
    split
    · next hend =>
      obtain ⟨⟨j, v⟩, rfl, rfl⟩ := List.map_eq_singleton_iff.1 (hkinds.trans hend)
      exact ih hscope.tail (by simpa using hQ)
    · next hend =>
      intro k hk
      obtain ⟨⟨j, v⟩, rfl, rfl⟩ := List.map_eq_singleton_iff.1 (hkinds.trans hk)
      have hne : j ≠ .endTag := fun h => hend (h ▸ hk)
      refine ⟨v, hcs, ih hscope.tail ?_⟩
      simpa only [if_neg hne, List.foldl_cons] using hQ

/-- **Making a function value leaves its record.** If code generation accepts a function value, then
on every state that matches the slots before, over any prefix, its instructions end and leave one
more slot, with the record of its tag and of the values that the captured variables hold; every
other slot of every stack is as it was. -/
theorem leaves_recordOf {ty : Flat.Ty} {tag : Nat} {F : Frame} {o o' : Output} {s : State}
    (hscope : HaveCells ρ captures)
    (hcode : term options (.closure ty tag captures) o = .ok ((), o'))
    (hF : Matches F o.slots s) (hρ : F.Represents ρ) (hsmall : F.Small 1) :
    ∃ is, o'.instructions.toList = o.instructions.toList ++ is ∧
      ∃ n, ∃ s' : State, s'.score = s.score ∧
        Matches (held .free [(.compound, .compound (recordOf ρ tag captures))] ++ F) o'.slots s' ∧
        ∀ (program : Program) fuel base,
          run program (n + fuel) is (s.above base) = ⟨s'.above base, fuel, none⟩ := by
  have hemits : Emits (Callees.unknown.calls options) (term options (.closure ty tag captures)) _ :=
    emits_term options _
  obtain ⟨is, his, n, s', ⟨hscore, hs'⟩, hrun⟩ := runs_of_emits hemits hcode (s := s)
    (Q := fun _ slots s' => s'.score = s.score ∧
      Matches (held .free [(.compound, .compound (recordOf ρ tag captures))] ++ F) slots s')
    ⟨F, ρ, hF, hρ, hsmall, capturesPre_of_haveCells hscope
      fun slots' s' hF' hscore => ⟨hscore rfl, hF'⟩⟩
  exact ⟨is, his, n, s', hscore, hs', hrun⟩

/-- Captured variables from a level on, with the cells they have in the environment. -/
def rebound (ρ : Bound) : Nat → List Capture → Bound
  | _, [] => []
  | level, c :: rest =>
    rebound ρ (level + 1) rest ++ [(level, (Keyed.find? c.v.level ρ).getD [])]

theorem le_of_mem_keys_rebound {level l : Nat} (h : l ∈ Keyed.keys (rebound ρ level captures)) :
    level ≤ l := by
  induction captures generalizing level with
  | nil => cases h
  | cons c rest ih =>
    rw [rebound, Keyed.keys, List.map_append, List.mem_append] at h
    rcases h with h | h
    · exact Nat.le_of_succ_le (ih h)
    · exact (List.mem_singleton.1 h).ge

/-- Each of them has the cells of the variable that was captured. -/
theorem find?_rebound (hscope : HaveCells ρ captures) {level i : Nat} {c : Capture}
    (h : captures[i]? = some c) :
    Keyed.find? (level + i) (rebound ρ level captures) = Keyed.find? c.v.level ρ := by
  induction captures generalizing level i with
  | nil => cases h
  | cons d rest ih =>
    rw [rebound, Keyed.find?_append]
    cases i with
    | zero =>
      obtain rfl := Option.some.inj h
      obtain ⟨cs, hcs, -⟩ := hscope d List.mem_cons_self
      have hlater : Keyed.find? level (rebound ρ (level + 1) rest) = none :=
        Keyed.find?_eq_none fun hmem => Nat.lt_irrefl _ (le_of_mem_keys_rebound hmem)
      rw [Nat.add_zero, hlater, Option.none_or, Keyed.find?, if_pos rfl, hcs, Option.getD_some]
    | succ i =>
      obtain ⟨cs, hcs, -⟩ := hscope c (List.mem_of_getElem? h)
      rw [show level + (i + 1) = level + 1 + i by omega, ih hscope.tail h, hcs, Option.some_or]

theorem fieldBindersPre_captureFields {entries : List (String × Nbt)} {Q : Bound → Prop}
    {level : Nat} (hscope : HaveCells ρ captures) (hcontent : ∀ c ∈ captures, HasContent c.ty)
    (hentries : ∀ c ∈ captures, ∀ k v, Keyed.find? c.v.level ρ = some [(k, v)] → k ≠ .endTag →
      Keyed.find? c.v.name entries = some v) (hQ : Q (rebound ρ level captures)) :
    fieldBindersPre (captureFields level captures) entries Q := by
  induction captures generalizing level Q with
  | nil => exact hQ
  | cons c rest ih =>
    intro k hk
    obtain ⟨cs, hcs, hkinds⟩ := hscope c List.mem_cons_self
    obtain ⟨⟨j, v⟩, rfl, rfl⟩ := List.map_eq_singleton_iff.1 (hkinds.trans hk)
    obtain ⟨k, hk', hne⟩ := hcontent c List.mem_cons_self
    obtain rfl : j = k := List.singleton_inj.1 (hk.symm.trans hk')
    refine ⟨v, hentries c List.mem_cons_self j v hcs hne, hkinds, ?_⟩
    refine ih hscope.tail (fun d hd => hcontent d (List.mem_cons_of_mem c hd))
      (fun d hd => hentries d (List.mem_cons_of_mem c hd)) ?_
    simpa only [rebound, hcs, Option.getD_some, List.nil_append] using hQ

/-- **Entering a body gives back what was captured.** If code generation accepts the binder of the
captured variables of a body, then on every state with their record on top of the slots that are not
bound, over any prefix, its instructions end with the record gone and each variable bound, in the
order of the captures, to the cells that it had when the function value was made. The tag, and what
else is on the stacks, makes no difference. -/
theorem restores_captures {U R : Frame} {level tag : Nat} {frame : List StackKind} {o o' : Output}
    {s : State} (hnames : (captures.map (·.v.name)).Nodup) (hscope : HaveCells ρ captures)
    (hcode : bind options (recordPattern level captures) o = .ok (frame, o'))
    (hF : Matches (U ++ held .free [(.compound, .compound (recordOf ρ tag captures))] ++ R)
      o.slots s) (hU : U.bound = U)
    (hsmall : (U ++ held .free [(.compound, .compound (recordOf ρ tag captures))] ++ R).Small
      captures.length) :
    ∃ is, o'.instructions.toList = o.instructions.toList ++ is ∧
      ∃ n, ∃ s' : State, ∃ b : Bound,
        (∀ i c, captures[i]? = some c → Keyed.find? (level + i) b = Keyed.find? c.v.level ρ) ∧
        s'.score = s.score ∧ Matches (ofBindings b ++ U ++ R) o'.slots s' ∧
        ∀ (program : Program) fuel base,
          run program (n + fuel) is (s.above base) = ⟨s'.above base, fuel, none⟩ := by
  have hcontent : ∀ c ∈ captures, HasContent c.ty :=
    hasContent_of_bind options (hF.uses ▸ free_mem_uses U R .compound _) hcode
  rw [← fieldPatternsWeight_captureFields captures level] at hsmall
  have hemits : Emits (Callees.unknown.calls options) (bind options (recordPattern level captures))
      _ := emits_bind options _
  obtain ⟨is, his, n, s', ⟨hscore, hs'⟩, hrun⟩ := runs_of_emits hemits hcode (s := s)
    (Q := fun _ slots s' => s'.score = s.score ∧
      Matches (ofBindings (rebound ρ level captures) ++ U ++ R) slots s')
    ⟨U, _, R, hF, hU, hsmall, recordOf ρ tag captures, rfl,
      fieldBindersPre_captureFields hscope hcontent
        (fun c hc k v hv hk => find?_recordOf_of_mem hnames tag hc hv hk)
        fun frame slots' s' hF' hscore _ => ⟨hscore, by simpa using hF'⟩⟩
  exact ⟨is, his, n, s', _, fun i c h => find?_rebound hscope h, hscore, hs', hrun⟩

/-! ## The tag -/

section

variable {s : State} {below : List Nbt} {tag : Nat}
  (hs : s.stack .compound = .compound (recordOf ρ tag captures) :: below)
  (hnames : (captures.map (·.v.name)).Nodup)

include hs hnames

/-- What the dispatcher does first, with a function value on top that has captured no variable
called `_`: it puts the tag into the result register. -/
theorem apply_readTag (htag : "_" ∉ captures.map (·.v.name)) :
    s.apply (.storeScore .result ((DataPath.slot .compound (-1)).field "_")) =
      .ok (s.setScore .result (Int32.ofNat tag)) :=
  Machine.apply_storeTag hs (find?_tag_recordOf hnames htag tag)

/-- **A captured variable called `_` takes the place of the tag.** Whatever the tag is, the
dispatcher goes by the number that the variable holds. -/
theorem apply_readTag_of_captured {c : Capture} {k : StackKind} {n : Int32} (hc : c ∈ captures)
    (hname : c.v.name = "_") (hv : Keyed.find? c.v.level ρ = some [(k, .int n)])
    (hk : k ≠ .endTag) :
    s.apply (.storeScore .result ((DataPath.slot .compound (-1)).field "_")) =
      .ok (s.setScore .result n) :=
  Machine.apply_storeTag hs (hname ▸ find?_recordOf_of_mem hnames tag hc hv hk)

end

example : recordOf [(1, [(.int, .int 7)]), (0, [(.int, .int 5)])] 3
    [⟨⟨"_", 0⟩, .int⟩, ⟨⟨"y", 1⟩, .int⟩] = [("_", .int 5), ("y", .int 7)] := rfl

end

end Stagecraft.Emit
