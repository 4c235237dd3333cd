import Stagecraft.Proofs.Builds
import Stagecraft.Proofs.TermSlots

/-!
# Making and entering function values

A function value is made by storing the captured variables in a record, and entered by binding the
fields of that record. Both take variables of one slot only. Values of kind `end` have no content:
they are left out of the record, where the binder expects them all the same. So a function value
that captures one can be made (`exists_term_closure_iff`) and not entered
(`exists_bind_recordPattern_iff`): its body is rejected (`function_of_isBodyOf`), and the build says
so (`failure_of_captured`). Where a build has no failures, function values capture nothing of the
kind (`hasContent_of_artifacts`).
-/

namespace Stagecraft.Emit

open Target (StackKind DataPath Source)
open Flat (Pattern Capture captureFields capturesTy)
open Emit.Frame (held anonymous)

section

variable (options : Options)

theorem run_bind_of_ok {α β : Type} {x : EmitM α} {o o' : Output} {a : α} (h : x o = .ok (a, o'))
    (f : α → EmitM β) : (x >>= f) o = f a o' := by
  change x o >>= (fun r => f r.1 r.2) = _
  rw [h]
  rfl

theorem run_bind_of_error {α β : Type} {x : EmitM α} {o : Output} {e : Error}
    (h : x o = .error e) (f : α → EmitM β) : (x >>= f) o = .error e := by
  change x o >>= (fun r => f r.1 r.2) = _
  rw [h]
  rfl

/-- A push never fails. -/
theorem exists_push (k : StackKind) (src : Source) (o : Output) :
    ∃ is, push options k src o = .ok ((), ⟨o.slots.push k, is⟩) := by
  unfold push comment
  split
  · split <;> exact ⟨_, rfl⟩
  · exact ⟨_, rfl⟩

/-- A slot that was pushed can be bound. -/
theorem exists_bind_ofVar (v : Var) {ty : Flat.Ty} {k : StackKind} (hk : ty.erase = [k])
    (slots : Slots) (is : Array Target.Instruction) :
    ∃ o', bind options (.ofVar v ty) ⟨slots.push k, is⟩ = .ok ([k], o') := by
  have hfree : (slots.push k).freeDepth? k = some 0 := by
    rw [Slots.freeDepth?, Slots.stack_push, if_pos rfl, List.findIdx?_cons]
    rfl
  have hclaim : (slots.push k).claim k v.level = .ok ⟨(slots.push k).byKind.update k
      (·.set 0 (.bound v.level))⟩ := by
    rw [Slots.claim, hfree]
  refine ⟨⟨⟨(slots.push k).byKind.update k (·.set 0 (.bound v.level))⟩, is⟩, ?_⟩
  rw [Pattern.ofVar, bind]
  simp only [hk]
  have hall : claimAll v.level [k] ⟨slots.push k, is⟩ =
      .ok ((), ⟨⟨(slots.push k).byKind.update k (·.set 0 (.bound v.level))⟩, is⟩) := by
    change (liftM (([k].foldlM (fun s k => s.claim k v.level) (slots.push k) :
      Except Error Slots)) >>= fun slots => set (⟨slots, is⟩ : Output) : EmitM Unit) _ = _
    rw [List.foldlM_cons, hclaim]
    rfl
  rw [run_bind_of_ok hall]
  rfl

/-- The fields of a record are bound exactly if every captured variable has a content; otherwise it
is said that one takes several slots. -/
theorem bindFields_captureFields (record : Nat) (captures : List Capture) (level : Nat)
    (o : Output) :
    (∃ r, bindFields options record (captureFields level captures) o = .ok r ∧
      ∀ c ∈ captures, HasContent c.ty) ∨
    bindFields options record (captureFields level captures) o =
        .error (.unsupported "compound field spanning several slots") ∧
      ∃ c ∈ captures, ¬HasContent c.ty := by
  induction captures generalizing level o with
  | nil =>
    rw [captureFields, bindFields]
    exact .inl ⟨_, rfl, List.forall_mem_nil _⟩
  | cons c rest ih =>
    rw [captureFields, bindFields]
    by_cases hc : HasContent c.ty
    · obtain ⟨k, hone⟩ := oneSlot_of_hasContent hc
      have hk : c.ty.erase = [k] := (oneSlot_ok (hone "compound field")).1
      have hlift : (liftM (oneSlot c.ty "compound field") : EmitM StackKind) o = .ok (k, o) := by
        rw [hone]
        rfl
      obtain ⟨is, hpush⟩ := exists_push options k (.copy ((DataPath.slot .compound
        (o.slots.relative .compound record)).field c.v.name)) o
      obtain ⟨o₁, hbind⟩ := exists_bind_ofVar options ⟨c.v.name, level⟩ hk o.slots is
      have hget : (MonadState.get : EmitM Output) o = .ok (o, o) := rfl
      rw [Pattern.ty, Pattern.ofVar, Pattern.info, run_bind_of_ok hlift, run_bind_of_ok hget,
        run_bind_of_ok hpush]
      rw [← Pattern.ofVar, run_bind_of_ok hbind]
      rcases ih (level + 1) o₁ with ⟨r, hr, hrest⟩ | ⟨he, d, hd⟩
      · rw [run_bind_of_ok hr]
        exact .inl ⟨_, rfl, List.forall_mem_cons.2 ⟨hc, hrest⟩⟩
      · rw [run_bind_of_error he]
        exact .inr ⟨rfl, d, List.mem_cons_of_mem _ hd.1, hd.2⟩
    · have hlift : (liftM (oneSlot c.ty "compound field") : EmitM StackKind) o =
          .error (.unsupported "compound field spanning several slots") := by
        rw [oneSlot_of_not_hasContent hc]
        rfl
      exact .inr ⟨run_bind_of_error hlift _, c, List.mem_cons_self, hc⟩

/-- The binder of the captured variables in a body, from a level on. -/
def recordPattern (level : Nat) (captures : List Capture) : Pattern :=
  .compound ⟨[], capturesTy captures⟩ (captureFields level captures)

theorem fieldPatternsKindsAgree_captureFields (captures : List Capture) (level : Nat) :
    fieldPatternsKindsAgree (captureFields level captures) = true := by
  induction captures generalizing level with
  | nil => rfl
  | cons c rest ih => exact ih (level + 1)

theorem fieldPatternsWeight_captureFields (captures : List Capture) (level : Nat) :
    fieldPatternsWeight (captureFields level captures) = captures.length := by
  induction captures generalizing level with
  | nil => rfl
  | cons c rest ih =>
    rw [captureFields, fieldPatternsWeight, ih, Pattern.ofVar, patternWeight, List.length_cons]
    omega

/-- A slot that is there can be taken out. -/
theorem exists_removeAt {k : StackKind} {i : Int32} {slot : Slot} {o : Output} {slots : Slots}
    (h : o.slots.remove k i = .ok (slot, slots)) (keeps : List StackKind) :
    ∃ is, removeAt options k i keeps o = .ok ((), ⟨slots, is⟩) := by
  have htry : tryFollow (fun s => return (← s.remove k i).2) o =
      .ok ((), { o with slots := slots }) := by
    change (liftM ((do return (← o.slots.remove k i).2 : Except Error Slots)) >>= fun slots =>
      set { o with slots } : EmitM Unit) o = _
    rw [h]
    rfl
  unfold removeAt
  rw [run_bind_of_ok htry]
  unfold comment
  split
  · split <;> exact ⟨_, rfl⟩
  · exact ⟨_, rfl⟩

/-- A record on the stacks can be bound only if all that was captured has a content. Otherwise it is
said that a field takes several slots. -/
theorem bind_recordPattern_of_not_hasContent {level : Nat} {captures : List Capture} {o : Output}
    (hfree : .free ∈ o.slots.stack .compound) (h : ∃ c ∈ captures, ¬HasContent c.ty) :
    bind options (recordPattern level captures) o =
      .error (.unsupported "compound field spanning several slots") := by
  obtain ⟨d, hd⟩ := Option.isSome_iff_exists.1
    ((List.findIdx?_isSome (p := (· == Slot.free))).trans (List.any_eq_true.2 ⟨_, hfree, rfl⟩))
  have hask : ask (·.lastFree .compound) o = .ok (o.slots.length .compound - 1 - d, o) := by
    change (liftM (o.slots.lastFree .compound) : EmitM Nat) o = _
    rw [Slots.lastFree, Slots.freeDepth?, hd]
    rfl
  rw [recordPattern, bind, run_bind_of_ok hask]
  rcases bindFields_captureFields options (o.slots.length .compound - 1 - d) captures level o with
    ⟨-, -, hall⟩ | ⟨he, -⟩
  · obtain ⟨c, hc, hnot⟩ := h
    exact absurd (hall c hc) hnot
  · exact run_bind_of_error he _

theorem hasContent_of_bind {level : Nat} {captures : List Capture} {o : Output}
    {r : List StackKind × Output} (hfree : .free ∈ o.slots.stack .compound)
    (h : bind options (recordPattern level captures) o = .ok r) :
    ∀ c ∈ captures, HasContent c.ty := by
  intro c hc
  by_contra hnot
  rw [bind_recordPattern_of_not_hasContent options hfree ⟨c, hc, hnot⟩] at h
  cases h

theorem free_mem_uses (U R : Frame) (k : StackKind) (v : Target.Nbt) :
    .free ∈ (U ++ held .free [(k, v)] ++ R).uses k := by
  rw [Frame.uses_append, Frame.uses_append]
  refine List.mem_append_left _ (List.mem_append_right _ ?_)
  rw [Frame.uses, Frame.on_held_singleton, if_pos rfl]
  exact List.mem_cons_self

/-- A record on the stacks can be bound if all that was captured has a content. -/
theorem exists_bind_recordPattern {U R : Frame} {level : Nat} {captures : List Capture} {o : Output}
    (ho : o.slots.stack = (U ++ anonymous [.compound] ++ R).uses) (hU : U.bound = U)
    (hsmall : (U ++ anonymous [.compound] ++ R).Small captures.length)
    (h : ∀ c ∈ captures, HasContent c.ty) :
    ∃ r, bind options (recordPattern level captures) o = .ok r := by
  have hask : ask (·.lastFree .compound) o = .ok ((R.on .compound).length, o) := by
    change (liftM (o.slots.lastFree .compound) : EmitM Nat) o = _
    rw [Slots.lastFree_eq hU ho]
    rfl
  rw [recordPattern, bind, run_bind_of_ok hask]
  rw [← fieldPatternsWeight_captureFields captures level] at hsmall
  have hfinds := (finds_bindFields options (captureFields level captures) U R
    (fieldPatternsKindsAgree_captureFields captures level) hU hsmall).run o ho
  rcases bindFields_captureFields options (R.on .compound).length captures level o with
    ⟨⟨frame, o₁⟩, hr, -⟩ | ⟨-, c, hc, hnot⟩
  · rw [hr] at hfinds
    obtain ⟨G, hG, B, rfl, hB⟩ := hfinds
    have hlt : ((B ++ anonymous [.compound] ++ R).on .compound).length < 2 ^ 31 := by
      have h₁ := hB.length .compound
      have h₂ := hB.few .compound
      have h₃ := hsmall .compound
      simp only [Frame.on_append, List.length_append, List.count_nil] at h₂ h₃ ⊢
      omega
    obtain ⟨slots, hremove, -⟩ := Slots.exists_remove hG (Slots.toInt_relative_eq hG hlt)
    obtain ⟨is, his⟩ := exists_removeAt options hremove []
    have hget : (MonadState.get : EmitM Output) o₁ = .ok (o₁, o₁) := rfl
    rw [run_bind_of_ok hr, run_bind_of_ok hget, run_bind_of_ok his]
    exact ⟨_, rfl⟩
  · exact absurd (h c hc) hnot

/-- A record can be entered exactly if all that was captured has a content. -/
theorem exists_bind_recordPattern_iff {U R : Frame} {level : Nat} {captures : List Capture}
    {o : Output} (ho : o.slots.stack = (U ++ anonymous [.compound] ++ R).uses) (hU : U.bound = U)
    (hsmall : (U ++ anonymous [.compound] ++ R).Small captures.length) :
    (∃ r, bind options (recordPattern level captures) o = .ok r) ↔
      ∀ c ∈ captures, HasContent c.ty := by
  refine ⟨fun ⟨r, hr⟩ => hasContent_of_bind options ?_ hr,
    exists_bind_recordPattern options ho hU hsmall⟩
  rw [ho]
  exact free_mem_uses U R .compound default

/-- Captured variables that hold their slots are stored exactly if each takes one slot, be it one
without a content. -/
theorem exists_storeCaptures_iff {F : Frame} {captures : List Capture} {o : Output}
    (ho : o.slots.stack = F.uses) (hholds : ∀ c ∈ captures, F.Holds c.v.level c.ty) :
    (∃ r, storeCaptures captures o = .ok r) ↔ ∀ c ∈ captures, ∃ k, c.ty.erase = [k] := by
  induction captures generalizing o with
  | nil =>
    rw [storeCaptures]
    exact iff_of_true ⟨_, rfl⟩ (List.forall_mem_nil _)
  | cons c rest ih =>
    have ih := fun o ho => ih (o := o) ho fun d hd => hholds d (List.mem_cons_of_mem c hd)
    rw [List.forall_mem_cons]
    by_cases hend : c.ty.erase = [.endTag]
    · have hskip : storeCaptures (c :: rest) o = storeCaptures rest o := by
        rw [storeCaptures, if_neg (not_not.2 hend)]
      rw [hskip, ih o ho]
      exact ⟨fun h => ⟨⟨_, hend⟩, h⟩, And.right⟩
    by_cases hc : HasContent c.ty
    · obtain ⟨k, hone⟩ := oneSlot_of_hasContent hc
      have hk : c.ty.erase = [k] := (oneSlot_ok (hone "captured variable")).1
      have hlift : (liftM (oneSlot c.ty "captured variable") : EmitM StackKind) o = .ok (k, o) := by
        rw [hone]
        rfl
      have hget : (MonadState.get : EmitM Output) o = .ok (o, o) := rfl
      have harity : 1 ≤ (o.slots.stack k).count (.bound c.v.level) := by
        have hcount := hholds c List.mem_cons_self k
        rwa [hk, List.count_singleton_self, ← ho] at hcount
      obtain ⟨i, hi⟩ := Slots.exists_find? harity Nat.zero_lt_one
      obtain ⟨o', hslots, hstore⟩ : ∃ o', o'.slots = o.slots ∧
          storeCaptures (c :: rest) o = storeCaptures rest o' := by
        rw [storeCaptures, if_pos hend, run_bind_of_ok hlift, run_bind_of_ok hget]
        simp only [hi]
        exact ⟨{ o with instructions := o.instructions.push _ }, rfl, rfl⟩
      rw [hstore, ih o' (hslots ▸ ho)]
      exact ⟨fun h => ⟨⟨k, hk⟩, h⟩, And.right⟩
    · have hlift : (liftM (oneSlot c.ty "captured variable") : EmitM StackKind) o =
          .error (.unsupported "captured variable spanning several slots") := by
        rw [oneSlot_of_not_hasContent hc]
        rfl
      have herror : storeCaptures (c :: rest) o =
          .error (.unsupported "captured variable spanning several slots") := by
        rw [storeCaptures, if_pos hend]
        exact run_bind_of_error hlift _
      constructor
      · rintro ⟨r, hr⟩
        rw [herror] at hr
        cases hr
      · rintro ⟨⟨k, hk⟩, -⟩
        exact absurd ⟨k, hk, fun h => hend (h ▸ hk)⟩ hc

/-- A function value can be made exactly if everything that it captures takes one slot, be it one
without a content. -/
theorem exists_term_closure_iff {F : Frame} {ty : Flat.Ty} {tag : Nat} {captures : List Capture}
    {o : Output} (ho : o.slots.stack = F.uses) (hholds : ∀ c ∈ captures, F.Holds c.v.level c.ty) :
    (∃ r, term options (.closure ty tag captures) o = .ok r) ↔
      ∀ c ∈ captures, ∃ k, c.ty.erase = [k] := by
  obtain ⟨is, hpush⟩ := exists_push options .compound
    (.value (.compound [("_", .int (Int32.ofNat tag))])) o
  rw [term, run_bind_of_ok hpush]
  exact exists_storeCaptures_iff (F := anonymous [.compound] ++ F)
    (Slots.uses_push ho .compound default) fun c hc => (hholds c hc).append _

/-- A variable of the empty union can be captured but not given back. -/
example : (∃ r, term ⟨"minecraft", false⟩ (.closure (.compound []) 0 [⟨⟨"u", 0⟩, .union []⟩])
      ⟨.empty, #[]⟩ = .ok r) ∧
    ∀ r, bind ⟨"minecraft", false⟩ (recordPattern 0 [⟨⟨"u", 0⟩, .union []⟩])
      ⟨Slots.empty.push .compound, #[]⟩ ≠ .ok r :=
  ⟨⟨_, rfl⟩, fun _ h => nomatch h⟩

/-! ## Bodies -/

theorem free_mem_pushAll {ks : List StackKind} {k : StackKind} (h : k ∈ ks) (s : Slots) :
    .free ∈ (s.pushAll ks).stack k := by
  induction ks using List.reverseRecOn with
  | nil => cases h
  | append_singleton ks j ih =>
    rw [Slots.pushAll, List.foldl_append, List.foldl_cons, List.foldl_nil, ← Slots.pushAll,
      Slots.stack_push]
    split
    · exact List.mem_cons_self
    · next hj => exact ih ((List.mem_append.1 h).resolve_right fun hk =>
        hj (List.mem_singleton.1 hk).symm)

/-- The body of a local function is rejected if something that it captures has no content. -/
theorem function_of_isBodyOf {table : Staged.Table} {lambda : Staged.Term} {captures : List Capture}
    {f : Flat.Function} (hf : Flat.IsBodyOf table lambda captures f)
    (h : ∃ c ∈ captures, ¬HasContent c.ty) :
    function options f = .error (.unsupported "compound field spanning several slots") := by
  obtain ⟨-, -, -, param, scope, -, -, -, hbinder⟩ := hf
  have hrecord : StackKind.compound ∈ f.binder.ty.erase := by
    rw [hbinder]
    exact List.mem_append_right _ List.mem_cons_self
  have hcomment : ∃ is, comment options ("function " ++ f.name.text) ⟨.empty, #[]⟩ =
      .ok ((), ⟨.empty, is⟩) := by
    unfold comment
    split <;> exact ⟨_, rfl⟩
  obtain ⟨is, hcomment⟩ := hcomment
  have hfollow : follow (·.pushAll f.binder.ty.erase) ⟨.empty, is⟩ =
      .ok ((), ⟨Slots.empty.pushAll f.binder.ty.erase, is⟩) := rfl
  -- the record is on top, so it is the first that is bound
  have hbind : bind options f.binder ⟨Slots.empty.pushAll f.binder.ty.erase, is⟩ =
      .error (.unsupported "compound field spanning several slots") := by
    have hfirst : bind options (recordPattern scope.length captures)
        ⟨Slots.empty.pushAll f.binder.ty.erase, is⟩ =
          .error (.unsupported "compound field spanning several slots") :=
      bind_recordPattern_of_not_hasContent options (free_mem_pushAll hrecord _) h
    have hlast : bindAll options [recordPattern scope.length captures]
        ⟨Slots.empty.pushAll f.binder.ty.erase, is⟩ =
          .error (.unsupported "compound field spanning several slots") := by
      rw [bindAll, bindAll, pure_bind]
      exact run_bind_of_error hfirst _
    rw [hbinder] at hlast ⊢
    exact run_bind_of_error hlast _
  have hbody : functionBody options f ⟨.empty, #[]⟩ =
      .error (.unsupported "compound field spanning several slots") := by
    rw [functionBody, run_bind_of_ok hcomment, run_bind_of_ok hfollow]
    exact run_bind_of_error hbind _
  rw [function, StateT.run, hbody]
  rfl

end

end Stagecraft.Emit

namespace Stagecraft.Pipeline

open Emit (HasContent)
open Staged (Table)

/-! ## Builds -/

/-- **A function value that captures something without a content has no body to call.** The build
reports that its body takes a field of several slots, wherever the function value is made. -/
theorem failure_of_captured (options : Emit.Options) {table : Table} {ds : List Staged.Definition}
    {e : Flat.Definition} (he : e ∈ (flatten table .empty ds).1) {body : Flat.Term}
    (hbody : e.body? = some body) {tag : Nat} {captures : List Flat.Capture}
    (hvalue : (tag, captures) ∈ body.closures) (h : ∃ c ∈ captures, ¬HasContent c.ty) :
    ∃ name, (flatten table .empty ds).2.1.bodies[tag]? = some name ∧
      (name, .emission (.unsupported "compound field spanning several slots")) ∈
        (artifacts options (flatten table .empty ds).1).2 := by
  have hsession := Flat.Session.after_eq_flatten table ds
  rw [Prod.mk.injEq] at hsession
  rw [← hsession.1] at he ⊢
  rw [← hsession.2]
  obtain ⟨o, ho, he⟩ := List.mem_flatMap.1 he
  obtain ⟨t, -, hvalues⟩ :=
    ((Flat.Session.invariant_after (ds.map (Flat.Call.mk table))).holds o ho).values e he body hbody
  obtain ⟨i, hi, hget⟩ := List.mem_iff_getElem.1 hvalue
  obtain ⟨f, hname, hf, hlambda⟩ := hvalues.get (hvalues.length_eq ▸ hi) hi
  simp only [List.get_eq_getElem, hget] at hname hlambda
  refine ⟨f.name, hname, ?_⟩
  have hrejected := Emit.function_of_isBodyOf options hlambda h
  rcases @emitted_or_failed options _ f (List.mem_flatMap.2 ⟨o, ho, hf⟩) with
    ⟨is, his, -⟩ | ⟨err, herr, hmem⟩
  · rw [hrejected] at his
    cases his
  · rw [hrejected] at herr
    cases herr
    exact hmem

/-- Where nothing fails, everything that a function value captures has a content, so it can be
entered as it can be made. -/
theorem hasContent_of_artifacts {options : Emit.Options} {table : Table}
    {ds : List Staged.Definition}
    (hclean : (artifacts options (flatten table .empty ds).1).2 = []) {e : Flat.Definition}
    (he : e ∈ (flatten table .empty ds).1) {body : Flat.Term} (hbody : e.body? = some body)
    {tag : Nat} {captures : List Flat.Capture} (hvalue : (tag, captures) ∈ body.closures) :
    ∀ c ∈ captures, HasContent c.ty := by
  intro c hc
  by_contra hnot
  obtain ⟨name, -, hmem⟩ := failure_of_captured options he hbody hvalue ⟨c, hc, hnot⟩
  rw [hclean] at hmem
  cases hmem

end Stagecraft.Pipeline
