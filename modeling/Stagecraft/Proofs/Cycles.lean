import Stagecraft.Proofs.Sessions

/-!
# No value depends on itself

On the store, a force that meets its own cell is reported as a cycle. Evaluation by name has no
cells and never gives this report (`evaluate_acyclic`, `readShape_acyclic`); since the answers of a
session are those by name, no session ever sees it (`cyclicValue_not_mem_session`). The ranks of a
chart are the reason: what runs inside a force stays below the rank of the forced cell.
-/

namespace Stagecraft.Eval

open Staged (Ty Pattern Term)

/-! ## Failures of patterns and types -/

theorem allIrrefutable_error {ps : List Pattern}
    (hps : ∀ p ∈ ps, ∀ {e : Error}, irrefutable p = .error e → e = .unexpectedHole) {e : Error}
    (h : allIrrefutable ps = .error e) : e = .unexpectedHole := by
  induction ps with
  | nil => cases h
  | cons p ps ih =>
    rw [List.forall_mem_cons] at hps
    rw [allIrrefutable] at h
    rcases hp : irrefutable p with e' | certain
    · rw [hp] at h
      cases h
      exact hps.1 hp
    · rw [hp] at h
      cases certain with
      | true => exact ih hps.2 h
      | false => cases h

theorem irrefutable_error {p : Pattern} : ∀ {e : Error}, irrefutable p = .error e →
    e = .unexpectedHole := by
  induction p using Pattern.induction with
  | hole =>
    rintro _ ⟨⟩
    rfl
  | var | wildcard | int | range | list => exact fun h => nomatch h
  | tuple info ps ih => exact fun h => allIrrefutable_error ih h
  | compound info fields ih =>
    intro e h
    rw [irrefutable, allFieldsIrrefutable_eq] at h
    exact allIrrefutable_error (List.forall_mem_map.2 ih) h

theorem resolveWithin_ne_cyclicValue (table : Staged.Table) (n : Nat) (ty : Ty) :
    resolveWithin table n ty ≠ .error .cyclicValue := by
  fun_induction resolveWithin table n ty with
  | case2 _ _ _ _ ih => exact ih
  | _ => exact nofun

namespace ByName

/-- An answer other than that a value depends on itself. -/
def Acyclic {α : Type} (x : Result α) : Prop := x ≠ .error (.failed .cyclicValue)

namespace Acyclic

variable {α β : Type} {x : Result α}

theorem ok {a : α} : Acyclic (.ok a) := nofun

theorem fail {e : Error} (he : e ≠ .cyclicValue) : Acyclic (Result.fail e : Result α) := by
  intro h
  cases h
  exact he rfl

theorem bind {f : α → Result β} (hx : Acyclic x) (hf : ∀ a, Acyclic (f a)) :
    Acyclic (x >>= f) := by
  cases x with
  | error stop =>
    intro h
    cases h
    exact hx rfl
  | ok a => exact hf a

theorem orElse {y : Result α} (hx : Acyclic x) (hy : Acyclic y) : Acyclic (Result.orElse x y) := by
  match x with
  | .ok a => exact ok
  | .error .outOfFuel => exact nofun
  | .error (.failed e) => exact hy

theorem irrefutable (p : Pattern) : Acyclic (Result.ofExcept (irrefutable p)) := by
  rcases hp : Eval.irrefutable p with e | certain
  · rw [irrefutable_error hp]
    exact fail nofun
  · exact ok

theorem resolve (table : Staged.Table) (ty : Ty) :
    Acyclic (Result.ofExcept (resolve table ty)) := by
  rcases hty : Eval.resolve table ty with e | view
  · refine fail fun he => ?_
    rw [he] at hty
    exact resolveWithin_ne_cyclicValue table _ ty hty
  · exact ok

/-- A failure that is seen as a result is none of a cycle either. -/
theorem attempt (hx : Acyclic x) {e : Error} (h : x.attempt = .ok (.error e)) :
    e ≠ .cyclicValue := by
  intro he
  match x with
  | .ok a => cases h
  | .error .outOfFuel => cases h
  | .error (.failed e') =>
    cases h
    exact hx (by rw [he])

end Acyclic

/-! ## Patterns and native functions -/

theorem atPattern_ne_cyclicValue (v : Value) (p : Pattern) : atPattern v p ≠ .cyclicValue := nofun

theorem decideInt_acyclic (p : Pattern) (accept : Int32 → Bool) (v : Value) :
    Acyclic (decideInt p accept v) := by
  unfold decideInt
  split
  · exact .ok
  · split
    · exact .ok
    · exact .fail (atPattern_ne_cyclicValue _ _)

theorem decideNeutral_acyclic (p : Pattern) : Acyclic (decideNeutral p) := by
  refine (Acyclic.irrefutable p).bind fun certain => ?_
  cases certain with
  | true => exact .ok
  | false => exact .ok

section

variable {look : Thunk → Result Value} (hlook : ∀ θ, Acyclic (look θ))

include hlook

theorem decideAll_acyclic {ps : List Pattern}
    (hps : ∀ p ∈ ps, ∀ v, Acyclic (decideMatch look p v)) (decided : Bool) (θs : List Thunk) :
    Acyclic (decideAll look decided ps θs) := by
  induction ps generalizing decided θs with
  | nil => exact .ok
  | cons p ps ih =>
    rw [List.forall_mem_cons] at hps
    cases θs with
    | nil => exact .ok
    | cons θ θs =>
      rw [decideAll]
      refine (Acyclic.irrefutable p).bind fun certain => ?_
      split
      · exact ih hps.2 decided θs
      · refine (hlook θ).bind fun v => (hps.1 v).bind fun verdict => ?_
        split
        · exact .ok
        · exact ih hps.2 decided θs
        · exact ih hps.2 false θs

theorem decideMatch_acyclic (p : Pattern) (v : Value) : Acyclic (decideMatch look p v) := by
  induction p using Pattern.induction generalizing v with
  | hole => exact .fail nofun
  | var | wildcard => exact .ok
  | int | range => exact decideInt_acyclic _ _ v
  | tuple info ps ih =>
    unfold decideMatch
    split
    · exact decideNeutral_acyclic _
    · split
      · split
        · exact decideAll_acyclic hlook ih true _
        · exact .fail (atPattern_ne_cyclicValue _ _)
      · exact .fail (atPattern_ne_cyclicValue _ _)
  | list info ps ih =>
    unfold decideMatch
    split
    · exact decideNeutral_acyclic _
    · split
      · split
        · exact decideAll_acyclic hlook ih true _
        · exact .ok
      · exact .fail (atPattern_ne_cyclicValue _ _)
  | compound info fields ih =>
    unfold decideMatch
    split
    · exact decideNeutral_acyclic _
    · split
      · split
        · rw [decideFields_eq]
          exact decideAll_acyclic hlook (List.forall_mem_map.2 ih) true _
        · exact .fail (atPattern_ne_cyclicValue _ _)
      · exact .fail (atPattern_ne_cyclicValue _ _)

omit hlook in
theorem destructureAll_acyclic {ps : List Pattern}
    (hps : ∀ p ∈ ps, ∀ θ, Acyclic (destructure look p θ)) (θs : List Thunk) :
    Acyclic (destructureAll look ps θs) := by
  induction ps generalizing θs with
  | nil => exact .ok
  | cons p ps ih =>
    rw [List.forall_mem_cons] at hps
    cases θs with
    | nil => exact .ok
    | cons θ θs =>
      rw [destructureAll]
      exact (hps.1 θ).bind fun _ => (ih hps.2 θs).bind fun _ => .ok

omit hlook in
theorem destructureFields_acyclic {fields : List (String × Pattern)}
    (hfields : ∀ f ∈ fields, ∀ θ, Acyclic (destructure look f.2 θ)) (record : Value)
    (entries : List (String × Thunk)) :
    Acyclic (destructureFields look record entries fields) := by
  induction fields with
  | nil => exact .ok
  | cons f rest ih =>
    rw [List.forall_mem_cons] at hfields
    rw [destructureFields]
    split
    · exact .fail (atPattern_ne_cyclicValue _ _)
    · exact (hfields.1 _).bind fun _ => (ih hfields.2).bind fun _ => .ok

omit hlook in
theorem elementsApart_acyclic {ps : List Pattern}
    (hps : ∀ p ∈ ps, ∀ θ, Acyclic (destructure look p θ)) (q : Pattern) (v : Value) :
    Acyclic (elementsApart look q ps v) := by
  unfold elementsApart
  split
  · split
    · exact destructureAll_acyclic hps _
    · exact .fail (atPattern_ne_cyclicValue _ _)
  · exact .fail (atPattern_ne_cyclicValue _ _)

theorem opened_acyclic {apart : Value → Result (List Thunk)} (hapart : ∀ v, Acyclic (apart v))
    (p : Pattern) (θ : Thunk) : Acyclic (opened look p apart θ) := by
  unfold opened
  split
  · exact .ok
  · refine (hlook θ).bind fun v => ?_
    split
    · exact .ok
    · exact hapart v

theorem destructure_acyclic (p : Pattern) (θ : Thunk) : Acyclic (destructure look p θ) := by
  induction p using Pattern.induction generalizing θ with
  | hole => exact .fail nofun
  | var | wildcard | int | range => exact .ok
  | tuple info ps ih =>
    rw [destructure_tuple]
    exact opened_acyclic hlook (elementsApart_acyclic ih _) _ θ
  | list info ps ih =>
    rw [destructure_list]
    exact opened_acyclic hlook (elementsApart_acyclic ih _) _ θ
  | compound info fields ih =>
    rw [destructure_compound]
    refine opened_acyclic hlook (fun v => ?_) _ θ
    unfold fieldsApart
    split
    · exact destructureFields_acyclic ih _ _
    · exact .fail (atPattern_ne_cyclicValue _ _)

theorem runNative_acyclic (n : Native) (v : Value) : Acyclic (runNative look n v) := by
  unfold runNative
  split
  · exact .ok
  · exact (hlook _).bind fun _ => (hlook _).bind fun _ => .ok
  · exact .ok

end

/-! ## Evaluation and read-back -/

theorem atType_ne_cyclicValue (v : Value) (ty : Ty) : atType v ty ≠ .cyclicValue := nofun

section

variable {cx : Context} {eval : Evaluation} (heval : ∀ ρ depth t, Acyclic (eval ρ depth t))

include heval

theorem force_acyclic : ∀ θ : Thunk, Acyclic (force eval θ)
  | .delayed ρ depth t => heval ρ depth t
  | .known _ => .ok

theorem enterBody_acyclic (ρ : List Thunk) (depth : Nat) (p : Pattern) (θ : Thunk) (b : Term) :
    Acyclic (enterBody eval ρ depth p θ b) :=
  (destructure_acyclic (force_acyclic heval) p θ).bind fun _ => heval _ depth b

theorem call_acyclic (ρ : List Thunk) (depth : Nat) (name : DefName) (a : Term) :
    Acyclic (call cx eval ρ depth name a) := by
  unfold call
  split
  · split
    · split
      · exact .fail nofun
      · refine (heval ρ depth a).bind fun v => ?_
        refine (runNative_acyclic (force_acyclic heval) _ v).bind fun r => ?_
        split
        · exact .ok
        · exact .ok
    · split
      · exact (heval ρ depth a).bind fun _ => .ok
      · exact enterBody_acyclic heval _ _ _ _ _
  · exact .fail nofun
  · exact .fail nofun
  · exact (heval ρ depth a).bind fun _ => .ok

theorem evaluateWith_acyclic (ρ : List Thunk) (depth : Nat) (t : Term) :
    Acyclic (evaluateWith cx eval ρ depth t) := by
  cases t with
  | literal | array | list | compound | ref | tuple | lambda | command | quote => exact .ok
  | hole => exact .fail nofun
  | apply _ f a =>
    refine (heval ρ depth f).bind fun v => ?_
    split
    · exact enterBody_acyclic heval _ _ _ _ _
    · exact .ok
  | cond _ c a b =>
    refine (heval ρ depth c).bind fun v => ?_
    split
    · exact heval ρ depth a
    · exact heval ρ depth b
    · exact .ok
  | letIn _ p i b => exact enterBody_acyclic heval ρ depth p _ b
  | var _ v =>
    rw [evaluateWith]
    split
    · exact force_acyclic heval _
    · exact .ok
  | call _ name a => exact call_acyclic heval ρ depth name a
  | test _ e p =>
    refine (heval ρ depth e).bind fun v => ?_
    refine (decideMatch_acyclic (force_acyclic heval) p v).bind fun verdict => ?_
    split
    · exact .ok
    · exact .ok
  | splice _ e =>
    refine (heval ρ depth e).bind fun v => ?_
    split
    · exact force_acyclic heval _
    · exact .ok

variable {shape : Value → Ty → Result Term} (hshape : ∀ v ty, Acyclic (shape v ty))

include hshape

omit heval in
theorem readBackWith_acyclic (v : Value) (ty : Ty) : Acyclic (readBackWith shape v ty) := by
  unfold readBackWith
  split
  · exact .ok
  · exact (hshape v ty).bind fun _ => .ok

theorem readThunk_acyclic (θ : Thunk) (ty : Ty) : Acyclic (readThunk eval shape θ ty) :=
  (force_acyclic heval θ).bind fun v => readBackWith_acyclic hshape v ty

theorem readThunks_acyclic (ty : Ty) (θs : List Thunk) :
    Acyclic (readThunks eval shape ty θs) := by
  induction θs with
  | nil => exact .ok
  | cons θ θs ih => exact (readThunk_acyclic heval hshape θ ty).bind fun _ => ih.bind fun _ => .ok

theorem readTuple_acyclic (θs : List Thunk) (tys : List Ty) :
    Acyclic (readTuple eval shape θs tys) := by
  induction θs generalizing tys with
  | nil => exact .ok
  | cons θ θs ih =>
    cases tys with
    | nil => exact .ok
    | cons ty tys =>
      exact (readThunk_acyclic heval hshape θ ty).bind fun _ => (ih tys).bind fun _ => .ok

theorem readFields_acyclic {onMissing : Error} (hmissing : onMissing ≠ .cyclicValue)
    (tys : List (String × Ty)) (fields : List (String × Thunk)) :
    Acyclic (readFields eval shape onMissing tys fields) := by
  induction fields with
  | nil => exact .ok
  | cons field rest ih =>
    obtain ⟨key, θ⟩ := field
    rw [readFields]
    split
    · exact .fail hmissing
    · exact (readThunk_acyclic heval hshape θ _).bind fun _ => ih.bind fun _ => .ok

omit heval in
theorem readUnion_acyclic {onNone : Error} (hnone : onNone ≠ .cyclicValue) (v : Value)
    (tys : List Ty) : Acyclic (readUnion shape onNone v tys) := by
  induction tys with
  | nil => exact .fail hnone
  | cons ty tys ih => exact (hshape v ty).orElse ih

theorem shapeWith_acyclic (v : Value) (ty : Ty) : Acyclic (shapeWith cx eval shape v ty) := by
  unfold shapeWith
  refine (Acyclic.resolve cx.definitions ty).bind fun view => ?_
  split
  · exact .ok
  · exact (readThunks_acyclic heval hshape _ _).bind fun _ => .ok
  · exact (readThunks_acyclic heval hshape _ _).bind fun _ => .ok
  · exact (readFields_acyclic heval hshape (atType_ne_cyclicValue _ ty) _ _).bind fun _ => .ok
  · exact (readThunk_acyclic heval hshape _ _).bind fun _ => .ok
  · split
    · exact (readTuple_acyclic heval hshape _ _).bind fun _ => .ok
    · exact .fail nofun
  · exact (heval _ _ _).bind fun b => (readBackWith_acyclic hshape b _).bind fun _ => .ok
  · exact (readThunk_acyclic heval hshape _ _).bind fun _ => .ok
  · exact .ok
  · exact (readBackWith_acyclic hshape _ _).bind fun _ =>
      (readThunk_acyclic heval hshape _ _).bind fun _ => .ok
  · exact (readBackWith_acyclic hshape _ _).bind fun _ =>
      (readThunk_acyclic heval hshape _ _).bind fun _ =>
        (readThunk_acyclic heval hshape _ _).bind fun _ => .ok
  · exact (readBackWith_acyclic hshape _ _).bind fun _ => .ok
  · exact (readBackWith_acyclic hshape _ _).bind fun _ => .ok
  · exact .ok
  · exact (readBackWith_acyclic hshape _ _).bind fun _ => .ok
  · exact (readBackWith_acyclic hshape _ _).bind fun _ => .ok
  · exact readUnion_acyclic hshape (atType_ne_cyclicValue v ty) _ _
  · exact .fail nofun

end

section

variable (cx : Context)

theorem evaluate_acyclic (n : Nat) (ρ : List Thunk) (depth : Nat) (t : Term) :
    Acyclic (evaluate cx n ρ depth t) := by
  induction n generalizing ρ depth t with
  | zero => exact nofun
  | succ n ih => exact evaluateWith_acyclic ih ρ depth t

theorem readShape_acyclic (n : Nat) (v : Value) (ty : Ty) : Acyclic (readShape cx n v ty) := by
  induction n generalizing v ty with
  | zero => exact nofun
  | succ n ih => exact shapeWith_acyclic (evaluate_acyclic cx n) ih v ty

end

/-! ## Sessions -/

section

variable (cx : Context) (n : Nat)

/-- The failure that ends a binding is the failure of the bindings as a whole. -/
theorem failure_ne_cyclicValue {p : Pattern} {θ : Thunk} {θs : List Thunk} {e : Error}
    (h : bindings (force (evaluate cx n)) p θ = .ok (θs, some e)) : e ≠ .cyclicValue := by
  intro he
  refine destructure_acyclic (force_acyclic (evaluate_acyclic cx n)) p θ ?_
  rw [destructure_eq_bindings, h, he]
  rfl

/-- A reply other than that a value depends on itself. -/
def AcyclicReply (x : Result Reply) : Prop :=
  ∀ w, x ≠ .ok (.failed .cyclicValue, w)

namespace AcyclicReply

variable {w : Workspace} {α : Type}

theorem ret {a : Answer} (ha : a ≠ .failed .cyclicValue) : AcyclicReply (.ok (a, w)) := by
  intro w' h
  cases h
  exact ha rfl

theorem ask {found : Option α} {reply : α → Result Reply} (h : ∀ a, AcyclicReply (reply a)) :
    AcyclicReply (w.ask found reply) := by
  cases found with
  | none => exact ret nofun
  | some a => exact h a

/-- A request that shows how a computation ends, which is none of a cycle. -/
theorem attempt {x : Result α} (hx : Acyclic x) {reply : Except Error α → Reply}
    (hok : ∀ a, (reply (.ok a)).1 ≠ .failed .cyclicValue)
    (hfailed : ∀ e, (reply (.error e)).1 = .failed e) :
    AcyclicReply (x.attempt >>= fun r => .ok (reply r)) := by
  intro w' h
  rcases hr : x.attempt with stop | r
  · rw [hr] at h
    cases h
  · rw [hr] at h
    have hreply : reply r = (.failed .cyclicValue, w') := Except.ok.inj h
    cases r with
    | ok a => exact hok a (by rw [hreply])
    | error e =>
      refine hx.attempt hr ?_
      have hanswer := hfailed e
      rw [hreply] at hanswer
      cases hanswer
      rfl

end AcyclicReply

theorem perform_acyclic (w : Workspace) (r : Request) : AcyclicReply (perform cx n w r) := by
  have hforce := force_acyclic (evaluate_acyclic cx n)
  cases r with
  | suspend | ready | takeApart | bindNeutral | enter | restore =>
    exact .ask fun _ => .ret nofun
  | get | bind => exact .ask fun _ => .ask fun _ => .ret nofun
  | destructure i p j =>
    refine .ask fun env => .ask fun θ w' h => ?_
    rcases hbound : bindings (force (evaluate cx n)) p θ with stop | ⟨θs, failure⟩
    · rw [hbound] at h
      cases h
    · rw [hbound] at h
      cases failure with
      | none => cases h
      | some e =>
        cases h
        exact failure_ne_cyclicValue cx n hbound rfl
  | evaluate =>
    exact .ask fun _ => .attempt (evaluate_acyclic cx n _ _ _) (fun _ => nofun) fun _ => rfl
  | force => exact .ask fun _ => .attempt (hforce _) (fun _ => nofun) fun _ => rfl
  | apply =>
    refine .ask fun f => .ask fun θ => ?_
    split
    · have hbody := enterBody_acyclic (evaluate_acyclic cx n)
      exact .attempt (hbody _ _ _ _ _) (fun _ => nofun) fun _ => rfl
    · exact .ret nofun
  | decide =>
    exact .ask fun _ => .attempt (decideMatch_acyclic hforce _ _) (fun _ => nofun) fun _ => rfl
  | readBack =>
    have hread := readBackWith_acyclic (readShape_acyclic cx n)
    exact .ask fun _ => .attempt (hread _ _) (fun _ => nofun) fun _ => rfl

theorem cyclicValue_not_mem_answers (rs : List Request) (w : Workspace) :
    Answer.failed .cyclicValue ∉ answers cx n rs w := by
  induction rs generalizing w with
  | nil => exact List.not_mem_nil
  | cons r rs ih =>
    rw [answers]
    rcases hrun : perform cx n w r with stop | ⟨a, w'⟩
    · exact List.not_mem_nil
    · intro hmem
      rcases List.mem_cons.1 hmem with rfl | hmem
      · exact perform_acyclic cx n w r w' hrun
      · exact ih w' hmem

end

end ByName

end Stagecraft.Eval
