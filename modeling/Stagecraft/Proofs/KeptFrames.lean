import Stagecraft.Proofs.StackDiscipline

/-!
# Functions that keep their frame

A function drops the slots of its variables under its result, unless it or its binder keeps them.
Then they stay: `ends_with_frame` says that the code of such a function ends with the cells of the
variables under those of the result. No call site expects this. A caller counts on a result in place
of the argument, and `not_behaves_of_keepsFrame` says that a function with a slot to keep never
does what its call sites say.
-/

namespace Stagecraft.Emit

open Target (StackKind PerKind Nbt Instruction)
open Machine (State Program Calls Ends run leads ends_of_leads)
open Emit.Frame (held ofBindings)

/-! ## Code -/

section

variable {callees : Callees} (options : Options)

/-- Code for a function that keeps its frame, started on the slots of the argument alone, ends with
the cells of the variables of its binder under those of its result. -/
theorem emits_keptBody (f : Flat.Function) (hkeeps : f.has .noDrop || f.binder.has .noDrop) :
    Emits (callees.calls options) (functionBody options f) fun slots s Post =>
      ∃ args, ∃ Q : Bound → Cells → Prop, slots.stack = Frame.empty.uses ∧
        s.stack = (held .free args).values ∧ functionWeight f < 2 ^ 31 ∧
          args.map (·.1) = f.binder.ty.erase ∧
            (binderPre f.binder args fun copied kept =>
              termPre callees f.body (copied ++ kept) (Q (copied ++ kept))) ∧
            ∀ b rs slots' s', Q b rs → s'.stack = (held .free rs ++ ofBindings b).values →
              Post () slots' s' := by
  refine (emits_entered options f fun _ => Emits.ite_pos hkeeps
    ((Emits.ask _).bind fun _ => emits_restore f.restore)).mono ?_
  rintro slots s Post ⟨args, Q, huses, hvalues, hweight, hargs, h, hPost⟩
  refine ⟨args, Q, huses, hvalues, hweight, hargs, h, ?_⟩
  rintro b rs frame slots₁ s₁ hQ - - - hF₁ - - s₂ hs₂ -
  exact hPost b rs slots₁ s₂ hQ (hs₂.trans hF₁.values)

end

/-! ## Runs -/

/-- Whether a function keeps its frame and is shaped: its binder, its body in the scope of the
binder, and its result. -/
def keepsShapedFrame (f : Flat.Function) : Bool :=
  (f.has .noDrop || f.binder.has .noDrop) && patternIsShaped f.binder &&
    isShaped (Scoped.bind [] f.binder) f.body && allServe (shapes f.body.ty) (shapes f.result)

section

variable {ι : Type} {p : ι → Program} {base : ι → PerKind (List Nbt)} {options : Options}
  {f : Flat.Function} {is : List Instruction}

/-- Callees that behave end as they are known to. -/
theorem realized_calleesOf {sites : List CallSite}
    (hsites : ∀ c ∈ sites, Behaves p base [.call (.ofName options.nspace c.name)] c.param c.result
      c.keeps) : ((calleesOf sites).calls options).Realized p base := by
  have hbase : (fun i => (State.empty.above (base i)).byKind) = base := funext fun i =>
    Target.PerKind.ext_get fun k => by
      have h := State.stack_above .empty (base i) k
      simpa [State.stack, State.empty] using h
  exact hbase ▸ realized_of_behaves State.empty hsites

/-- The code of a function that keeps its frame ends with the variables of its binder, as its scope
promises them, under a result of the type of the function. -/
theorem ends_with_frame (hcode : function options f = .ok is) (hkept : keepsShapedFrame f)
    (hweight : functionWeight f < 2 ^ 31)
    (hcalls : ∀ c ∈ callSites f.body,
      Behaves p base [.call (.ofName options.nspace c.name)] c.param c.result c.keeps)
    {s : State} {args : Cells} (hs : s.stack = (held .free args).values)
    (hargs : CellsFit args (shapes f.binder.ty)) :
    Ends p base is s fun s' => ∃ b rs, ScopeFits b (Scoped.bind [] f.binder) ∧
      CellsFit rs (shapes f.result) ∧ s'.stack = (held .free rs ++ ofBindings b).values := by
  simp only [keepsShapedFrame, Bool.and_eq_true] at hkept
  obtain ⟨⟨⟨hkeeps, hbinder⟩, hbody⟩, hresult⟩ := hkept
  have hbodyWeight : termWeight f.body < 2 ^ 31 := by
    rw [functionWeight] at hweight
    omega
  have hpre : binderPre f.binder args fun copied kept =>
      termPre (calleesOf (callSites f.body)) f.body (copied ++ kept) fun rs =>
        ScopeFits (copied ++ kept) (Scoped.bind [] f.binder) ∧ CellsFit rs (shapes f.result) := by
    refine binderPre_of_isShaped hbinder hargs fun copied kept hc hk => ?_
    have hscope : ScopeFits (copied ++ kept) (Scoped.bind [] f.binder) := by
      rw [Scoped.bind, List.append_nil]
      exact hc.append hk
    exact termPre_of_isShaped hbody hscope hbodyWeight (fun _ h => h) fun rs hrs =>
      ⟨hscope, hrs.of_serves hresult⟩
  refine ends_of_leads (realized_calleesOf hcalls)
    (leads_of_emits options hcode (emits_keptBody options f hkeeps) fun slots hslots => ?_)
  exact ⟨args, fun b rs => ScopeFits b (Scoped.bind [] f.binder) ∧ CellsFit rs (shapes f.result),
    hslots, hs, hweight, hargs.erase, hpre, fun b rs _ _ h hs' => ⟨b, rs, h.1, h.2, hs'⟩⟩

/-- A slot in scope is a slot of the frame. -/
theorem ScopeFits.exists_slot {b : Bound} {Γ : Scoped} (h : ScopeFits b Γ) {v : Nat × List Shape}
    (hv : v ∈ Γ) {σ : Shape} (hσ : σ ∈ v.2) : (ofBindings b).on σ.kind ≠ [] := by
  induction h with
  | nil => cases hv
  | @cons c g _ _ hc _ ih =>
    rw [Frame.ofBindings_cons, Frame.on_append]
    intro hnil
    obtain ⟨hheld, hrest⟩ := List.append_eq_nil_iff.1 hnil
    obtain rfl | hv := List.mem_cons.1 hv
    · have hcount : (c.2.map (·.1)).count σ.kind = 0 := by
        rw [← Frame.length_held (.bound c.1), hheld, List.length_nil]
      rw [hc.2.kinds] at hcount
      exact List.count_eq_zero.1 hcount (List.mem_map_of_mem hσ)
    · exact ih hv hrest

/-- A function that keeps a slot does not leave a result in place of its argument, as its callers
take it to do: the slot comes on top of what the caller has. -/
theorem not_behaves_of_keepsFrame (i : ι) (hcode : function options f = .ok is)
    (hkept : keepsShapedFrame f) (hweight : functionWeight f < 2 ^ 31)
    (hcalls : ∀ c ∈ callSites f.body,
      Behaves p base [.call (.ofName options.nspace c.name)] c.param c.result c.keeps)
    {args : Cells} (hargs : CellsFit args (shapes f.binder.ty)) {v : Nat × List Shape}
    (hv : v ∈ Scoped.bind [] f.binder) {σ : Shape} (hσ : σ ∈ v.2) (hslot : σ.kind ≠ .endTag)
    (keeps : Bool) : ¬Behaves p base is f.binder.ty f.result keeps := by
  intro hbehaves
  obtain ⟨n, rs, t, hrs, ht, -, hrun⟩ := hbehaves State.empty args hargs
  have hs : (pushCells State.empty args).stack = (held .free args).values :=
    funext fun k => by
      rw [stack_pushCells]
      simp [State.stack, State.empty]
  obtain ⟨n', s', ⟨b, rs', hb, hrs', hs'⟩, hrun'⟩ :=
    ends_with_frame hcode hkept hweight hcalls hs hargs
  -- one run, so one state in the end
  have hends : (pushCells t rs).above (base i) = s'.above (base i) := by
    have h := (hrun n' i).symm.trans (Nat.add_comm n n' ▸ hrun' n i)
    exact congrArg (·.state) h
  have hempty : State.empty.stack σ.kind = [] := by cases σ.kind <;> rfl
  have hstacks : (held .free rs).values σ.kind =
      (held .free rs').values σ.kind ++ (ofBindings b).values σ.kind := by
    have h := congrArg (·.stack σ.kind) hends
    simp only [State.stack_above, stack_pushCells, ht, hs', Frame.values_append, hempty] at h
    simpa using List.append_cancel_right h
  have hlength : ∀ {cs : Cells}, CellsFit cs (shapes f.result) →
      ((held .free cs).values σ.kind).length = f.result.erase.count σ.kind := fun h => by
    rw [Frame.values_of_ne _ hslot, List.length_map, Frame.length_held, h.erase]
  have hframe : (ofBindings b).values σ.kind = [] := by
    have h := congrArg List.length hstacks
    rw [List.length_append, hlength hrs, hlength hrs'] at h
    exact List.length_eq_zero_iff.1 (by omega)
  rw [Frame.values_of_ne _ hslot] at hframe
  exact hb.exists_slot hv hσ (List.map_eq_nil_iff.1 hframe)

end

/-- A constant function that keeps its argument. -/
def keptConstant : Flat.Function where
  marks := [.noDrop]
  name := ⟨["main"], "g"⟩
  binder := .ofVar ⟨"a", 0⟩ .int
  result := .int
  body := .literal .int (.int 1)
  restore := none

example : ∃ is, function ⟨"minecraft", false⟩ keptConstant = .ok is ∧
    ¬Behaves (fun _ : Unit => Program.empty) (fun _ => .const []) is .int .int false := by
  obtain ⟨is, hcode⟩ : ∃ is, function ⟨"minecraft", false⟩ keptConstant = .ok is := ⟨_, rfl⟩
  have hargs : CellsFit [(.int, .int 5)] [.slot .int] := .cons ⟨rfl, .inr rfl⟩ .nil
  refine ⟨is, hcode, not_behaves_of_keepsFrame () hcode (by decide) (by decide) (fun c hc => ?_)
    hargs (.head _) (.head _) (by decide) false⟩
  cases hc

end Stagecraft.Emit
