import Stagecraft.Pipeline.Build
import Stagecraft.Proofs.EmissionRelations

/-!
# Comments on the stack traffic

Comments are emitted on the side: indices are computed from the slot model alone. So whether a
definition is emitted does not depend on comments being wanted, a failure is the same one, and what
is emitted differs by the comments only (`Emit.adds_only_comments`). A build with comments is the
build without them, comments apart (`Pipeline.build?_debug`).
-/

namespace Stagecraft.Target

/-- Whether an instruction is a comment. -/
def Instruction.isComment : Instruction → Bool
  | .comment _ => true
  | .append .. | .set .. | .remove _ | .setScore .. | .storeScore .. | .storeData .. | .ifScore ..
  | .call _ | .raw _ => false

/-- Instructions without the comments among them. -/
def uncommented (is : List Instruction) : List Instruction := is.filter fun i => !i.isComment

/-- The artifact without comments. -/
def Artifact.uncommented : Artifact → Artifact
  | .function l is => .function l (Target.uncommented is)
  | .resource registry l body => .resource registry l body

theorem Artifact.uncommented_uncommented (a : Artifact) :
    a.uncommented.uncommented = a.uncommented := by
  cases a with
  | function l is =>
    simp only [Artifact.uncommented, Target.uncommented, List.filter_filter, Bool.and_self]
  | resource registry l body => rfl

end Stagecraft.Target

namespace Stagecraft.Emit

open Target (Instruction Artifact uncommented)

theorem isComment_of_isPlain {i : Instruction} (h : isPlain i = true) : i.isComment = false := by
  cases i <;> first | rfl | cases h

/-- Code without comments beside code with them. -/
theorem relates_uncommented (nspace : String) :
    Relates ⟨nspace, true⟩ ⟨nspace, false⟩ id (fun _ => True) (fun _ => True)
      fun is js => js = uncommented is where
  nil := rfl
  append h h' := by
    rw [h, h']
    exact (List.filter_append _ _).symm
  plain h := by
    rw [uncommented, List.filter_singleton, isComment_of_isPlain h]
    rfl
  remark _ := rfl
  record _ := rfl
  call _ := rfl
  jump _ _ := rfl

/-- A function is emitted with comments exactly as it is without, but for the comments. -/
theorem function_debug (nspace : String) (f : Flat.Function) :
    function ⟨nspace, false⟩ f = (function ⟨nspace, true⟩ f).map uncommented := by
  have hexit : exit f.restore = uncommented (exit f.restore) := by
    cases f.restore <;> rfl
  have hsame : { f with body := f.body.mapTags id, restore := f.restore } = f := by
    rw [Flat.Term.mapTags_id]
  rcases (relates_uncommented nspace).function f f.restore (fun _ _ => trivial)
      (fun _ _ => trivial) hexit with ⟨e, hl, hr⟩ | ⟨is, js, hl, hr, rfl⟩ <;>
    rw [hsame] at hr <;> rw [hl, hr] <;> rfl

/-- The artifact of a definition without comments is that with them, comments apart. -/
theorem artifact?_debug (nspace : String) (d : Flat.Definition) :
    artifact? ⟨nspace, false⟩ d =
      (artifact? ⟨nspace, true⟩ d).map (Option.map Artifact.uncommented) := by
  rcases d with f | b | r
  · rw [artifact?, artifact?, function_debug]
    cases function ⟨nspace, true⟩ f <;> rfl
  · rfl
  · rw [artifact?, artifact?]
    cases tree r.body <;> rfl

/-- **Debug output only adds comments.** In any namespace a definition fails with comments and
without for the same reason, or it has an artifact either way; then the one without comments is what
is left of the other once its comments are removed, and has none to remove. -/
theorem adds_only_comments (nspace : String) (d : Flat.Definition) :
    (∃ e, artifact? ⟨nspace, true⟩ d = .error e ∧ artifact? ⟨nspace, false⟩ d = .error e) ∨
      ∃ a b, artifact? ⟨nspace, true⟩ d = .ok a ∧ artifact? ⟨nspace, false⟩ d = .ok b ∧
        a.map Artifact.uncommented = b ∧ b.map Artifact.uncommented = b := by
  rw [artifact?_debug]
  cases artifact? ⟨nspace, true⟩ d with
  | error e => exact .inl ⟨e, rfl, rfl⟩
  | ok a =>
    refine .inr ⟨a, _, rfl, rfl, rfl, ?_⟩
    rw [Option.map_map]
    exact congrArg (Option.map · a) (funext Artifact.uncommented_uncommented)

theorem uncommented_dispatcher (nspace : String) (debug : Bool) (closures : Flat.ClosureTable) :
    (dispatcher ⟨nspace, debug⟩ closures).uncommented = dispatcher ⟨nspace, false⟩ closures := by
  rw [dispatcher, Artifact.uncommented, uncommented, List.filter_eq_self.2]
  · rfl
  · intro i hi
    rcases List.mem_cons.1 hi with rfl | hi
    · rfl
    · obtain ⟨e, -, rfl⟩ := List.mem_map.1 hi
      rfl

end Stagecraft.Emit

namespace Stagecraft.Pipeline

open Target (Artifact)

/-- The same definitions fail with comments and without. -/
theorem artifacts_debug (nspace : String) (flat : List Flat.Definition) :
    artifacts ⟨nspace, false⟩ flat =
      ((artifacts ⟨nspace, true⟩ flat).1.map Artifact.uncommented,
        (artifacts ⟨nspace, true⟩ flat).2) := by
  induction flat with
  | nil => rfl
  | cons d flat ih =>
    rw [artifacts, artifacts, Emit.artifact?_debug, ih]
    rcases Emit.artifact? ⟨nspace, true⟩ d with e | _ | a <;> rfl

/-- The build with the comments removed from its artifacts. -/
def Build.uncommented (b : Build) : Build :=
  { b with artifacts := b.artifacts.map Artifact.uncommented }

/-- A build with comments is the build without them, comments apart. -/
theorem build?_debug (fuel : Nat) (nspace : String) (unfoldLimit : Nat) (natives : Eval.Natives)
    (table : Staged.Table) :
    build? fuel ⟨nspace, false, unfoldLimit⟩ natives table =
      (build? fuel ⟨nspace, true, unfoldLimit⟩ natives table).map Build.uncommented := by
  unfold build?
  cases residuals? ⟨table, natives, unfoldLimit⟩ fuel table.definitions with
  | none => rfl
  | some r =>
    simp only [Option.bind_eq_bind, Option.bind_some, Option.pure_def, Option.map_some,
      Build.uncommented, Settings.emitOptions, artifacts_debug nspace, List.map_append,
      List.map_singleton, Emit.uncommented_dispatcher]

end Stagecraft.Pipeline
