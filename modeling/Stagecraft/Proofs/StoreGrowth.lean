import Stagecraft.Proofs.History
import Stagecraft.Proofs.PatternAgreement

/-!
# Stores only grow

Whatever store an evaluation starts on, and however it ends, it only adds cells and forces some of
them: a cell that holds a value keeps it, and a cell that is being forced stays marked until its own
force ends (`Store.Grows`). `Grows` is the logic of this: every primitive of the evaluator and every
way to put computations together keeps to it (`evaluate_grows`, `destructure_grows`). Nothing is
assumed of the cells, so this also holds where a store cannot be compared with anything.
-/

namespace Stagecraft.Eval

open Staged (Pattern Term)

/-- What a computation may do to the cells. -/
structure Store.Grows (s s' : Store) : Prop where
  size : s.cells.size ≤ s'.cells.size
  forcing : ∀ {c}, c < s.cells.size → s.read c = .forcing → s'.read c = .forcing
  forced : ∀ {c v}, s.read c = .forced v → s'.read c = .forced v

namespace Store.Grows

variable {s s' s'' : Store}

theorem refl (s : Store) : s.Grows s where
  size := Nat.le_refl _
  forcing _ h := h
  forced h := h

theorem trans (h : s.Grows s') (k : s'.Grows s'') : s.Grows s'' where
  size := Nat.le_trans h.size k.size
  forcing hc hread := k.forcing (Nat.lt_of_lt_of_le hc h.size) (h.forcing hc hread)
  forced hread := k.forced (h.forced hread)

theorem alloc (cell : Cell) (s : Store) : s.Grows (s.alloc cell).2 where
  size := by
    rw [size_alloc]
    exact Nat.le_succ _
  forcing hc hread := by rwa [read_alloc_of_lt hc]
  forced hread := by rwa [read_alloc_of_lt (lt_size_of_read hread nofun)]

/-- A force marks its cell, and settles it when the work inside has ended. -/
theorem around {c : CellId} {work : Suspension} {cell : Cell} (hread : s.read c = .suspended work)
    (h : (s.write c .forcing).Grows s') : s.Grows (s'.write c cell) := by
  have hc : c < s.cells.size := lt_size_of_read hread nofun
  have hle : s.cells.size ≤ s'.cells.size := by
    have := h.size
    rwa [size_write] at this
  have hother : ∀ {d}, s.read d ≠ .suspended work →
      (s.write c .forcing).read d = s.read d ∧ (s'.write c cell).read d = s'.read d := by
    intro d hd
    have hne : d ≠ c := fun heq => hd (heq ▸ hread)
    rw [read_write c d _ s hc, read_write c d _ s' (Nat.lt_of_lt_of_le hc hle), if_neg hne,
      if_neg hne]
    exact ⟨rfl, rfl⟩
  refine ⟨by rwa [size_write], fun {d} hd hmark => ?_, fun {d v} hheld => ?_⟩
  · obtain ⟨hbefore, hafter⟩ := hother (d := d) (by rw [hmark]; nofun)
    rw [hafter]
    exact h.forcing (by rwa [size_write]) (hbefore.trans hmark)
  · obtain ⟨hbefore, hafter⟩ := hother (d := d) (by rw [hheld]; nofun)
    rw [hafter]
    exact h.forced (hbefore.trans hheld)

end Store.Grows

/-- A computation that only lets the store grow, however it ends. -/
def Grows {α : Type} (x : EvalM α) : Prop := ∀ s : Store, s.Grows (x s).2

namespace Grows

variable {α β : Type}

theorem ret {a : α} : Grows (pure a : EvalM α) := fun s => .refl s

theorem fail {e : Error} : Grows (EvalM.fail e : EvalM α) := fun s => .refl s

theorem outOfFuel : Grows (EvalM.outOfFuel : EvalM α) := fun s => .refl s

theorem ofExcept {e : Except Error α} : Grows (EvalM.ofExcept e) := by
  cases e with
  | error => exact fail
  | ok => exact ret

theorem bind {x : EvalM α} {f : α → EvalM β} (hx : Grows x) (hf : ∀ a, Grows (f a)) :
    Grows (x >>= f) := by
  intro s
  have hs := hx s
  rw [EvalM.run_bind]
  rcases hrun : x s with ⟨e | a, s₁⟩
  · rwa [hrun] at hs
  · rw [hrun] at hs
    exact hs.trans (hf a s₁)

theorem alloc (cell : Cell) : Grows (EvalM.alloc cell) := fun s => .alloc cell s

theorem suspend (env : Env) (t : Term) : Grows (EvalM.suspend env t) := alloc _

theorem suspendAll (env : Env) (ts : List Term) : Grows (EvalM.suspendAll env ts) := by
  induction ts with
  | nil => exact ret
  | cons t ts ih => exact (suspend env t).bind fun _ => ih.bind fun _ => ret

theorem suspendFields (env : Env) (fields : List (String × Term)) :
    Grows (EvalM.suspendFields env fields) := by
  induction fields with
  | nil => exact ret
  | cons f rest ih => exact (suspend env f.2).bind fun _ => ih.bind fun _ => ret

theorem force {eval : Evaluation} (heval : ∀ env t, Grows (eval env t)) (c : CellId) :
    Grows (force eval c) := by
  intro s
  unfold Eval.force Memo.force
  split
  · exact .refl s
  · exact .refl s
  · next work hread =>
    have hinside := heval work.env work.term (s.write c .forcing)
    dsimp only
    split
    · next hrun =>
      rw [hrun] at hinside
      exact hinside.around hread
    · next hrun =>
      rw [hrun] at hinside
      exact hinside.around hread

end Grows

/-- A force that goes through leaves its cell with the value: the cell was there. -/
theorem read_after_force {eval : Evaluation} (heval : ∀ env t, Grows (eval env t)) {c : CellId}
    {s s' : Store} {v : Value} (h : force eval c s = (.ok v, s')) : s'.read c = .forced v := by
  have hc : c < s.cells.size := by
    refine Store.lt_size_of_read (s := s) rfl fun hread => ?_
    rw [force, Memo.force, hread] at h
    cases h
  have hgrown := (Grows.force heval c s).size
  rw [h] at hgrown
  exact read_of_force h (Nat.lt_of_lt_of_le hc hgrown)

/-! ## Patterns and native functions -/

theorem decideInt_grows (p : Pattern) (accept : Int32 → Bool) (v : Value) :
    Grows (decideInt p accept v) := by
  unfold decideInt
  split
  · exact .ret
  · split
    · exact .ret
    · exact .fail

theorem decideNeutral_grows (p : Pattern) : Grows (decideNeutral p) := by
  refine Grows.ofExcept.bind fun certain => ?_
  cases certain with
  | true => exact .ret
  | false => exact .ret

/-- A binder that only lets the store grow. -/
def BindM.Grows (x : BindM Unit) : Prop := ∀ env (s : Store), s.Grows (x env s).2

namespace BindM.Grows

theorem ret : BindM.Grows (Pure.pure () : BindM Unit) := fun _ s => .refl s

theorem bind (c : CellId) : BindM.Grows (BindM.bind c) := fun _ s => .refl s

theorem fail {e : Error} : BindM.Grows (BindM.ofEval (EvalM.fail e)) := fun _ s => .refl s

theorem seq {x y : BindM Unit} (hx : x.Grows) (hy : y.Grows) : BindM.Grows (x >>= fun _ => y) := by
  intro env s
  have hs := hx env s
  rw [BindM.run_bind]
  rcases hrun : x env s with ⟨⟨e | a, env₁⟩, s₁⟩
  · rwa [hrun] at hs
  · rw [hrun] at hs
    exact hs.trans (hy env₁ s₁)

theorem ofEval {α : Type} {x : EvalM α} {f : α → BindM Unit} (hx : Eval.Grows x)
    (hf : ∀ a, (f a).Grows) : BindM.Grows (BindM.ofEval x >>= f) := by
  intro env s
  have hs := hx s
  rw [BindM.run_ofEval_bind]
  rcases hrun : x s with ⟨e | a, s₁⟩
  · rwa [hrun] at hs
  · rw [hrun] at hs
    exact hs.trans (hf a env s₁)

theorem projections (p : Pattern) (init : Value) :
    ∀ vs : List Var, (bindProjections p init vs).Grows
  | [] => ret
  | _ :: vs => ofEval (.alloc _) fun c => (bind c).seq (projections p init vs)

end BindM.Grows

section

variable {forceCell : CellId → EvalM Value} (hforce : ∀ c, Grows (forceCell c))

include hforce

theorem decideAll_grows {ps : List Pattern}
    (hps : ∀ p ∈ ps, ∀ v, Grows (decideMatch forceCell p v)) (decided : Bool)
    (cs : List CellId) : Grows (decideAll forceCell decided ps cs) := by
  induction ps generalizing decided cs with
  | nil => exact .ret
  | cons p ps ih =>
    rw [List.forall_mem_cons] at hps
    cases cs with
    | nil => exact .ret
    | cons c cs =>
      rw [decideAll]
      refine Grows.ofExcept.bind fun certain => ?_
      split
      · exact ih hps.2 decided cs
      · refine (hforce c).bind fun v => (hps.1 v).bind fun verdict => ?_
        split
        · exact .ret
        · exact ih hps.2 decided cs
        · exact ih hps.2 false cs

theorem decideMatch_grows (p : Pattern) (v : Value) : Grows (decideMatch forceCell p v) := by
  induction p using Pattern.induction generalizing v with
  | hole => exact .fail
  | var | wildcard => exact .ret
  | int | range => exact decideInt_grows _ _ v
  | tuple info ps ih =>
    unfold decideMatch
    split
    · exact decideNeutral_grows _
    · split
      · split
        · exact decideAll_grows hforce ih true _
        · exact .fail
      · exact .fail
  | list info ps ih =>
    unfold decideMatch
    split
    · exact decideNeutral_grows _
    · split
      · split
        · exact decideAll_grows hforce ih true _
        · exact .ret
      · exact .fail
  | compound info fields ih =>
    unfold decideMatch
    split
    · exact decideNeutral_grows _
    · split
      · split
        · rw [decideFields_eq]
          exact decideAll_grows hforce (List.forall_mem_map.2 ih) true _
        · exact .fail
      · exact .fail

omit hforce in
theorem destructureAll_grows {ps : List Pattern}
    (hps : ∀ p ∈ ps, ∀ c, (destructure forceCell p c).Grows) (cs : List CellId) :
    (destructureAll forceCell ps cs).Grows := by
  induction ps generalizing cs with
  | nil => exact .ret
  | cons p ps ih =>
    rw [List.forall_mem_cons] at hps
    cases cs with
    | nil => exact .ret
    | cons c cs =>
      rw [destructureAll]
      exact (hps.1 c).seq (ih hps.2 cs)

omit hforce in
theorem destructureFields_grows {fields : List (String × Pattern)}
    (hfields : ∀ f ∈ fields, ∀ c, (destructure forceCell f.2 c).Grows) (record : Value)
    (entries : List (String × CellId)) :
    (destructureFields forceCell record entries fields).Grows := by
  induction fields with
  | nil => exact .ret
  | cons f rest ih =>
    rw [List.forall_mem_cons] at hfields
    rw [destructureFields]
    split
    · exact .fail
    · exact (hfields.1 _).seq (ih hfields.2)

theorem destructure_grows (p : Pattern) (c : CellId) : (destructure forceCell p c).Grows := by
  induction p using Pattern.induction generalizing c with
  | hole => exact .fail
  | var => exact .bind c
  | int | range | wildcard => exact .ret
  | tuple info ps ih | list info ps ih =>
    rw [destructure]
    split
    · exact .ret
    · refine .ofEval (hforce c) fun v => ?_
      split
      · exact .projections _ _ _
      · split
        all_goals first
          | exact .fail
          | split
            · exact destructureAll_grows ih _
            · exact .fail
  | compound info fields ih =>
    rw [destructure]
    split
    · exact .ret
    · refine .ofEval (hforce c) fun v => ?_
      split
      · exact .projections _ _ _
      · split
        · exact destructureFields_grows ih _ _
        · exact .fail

theorem extend_grows (env : Env) (p : Pattern) (c : CellId) : Grows (extend forceCell env p c) := by
  intro s
  have h : s.Grows ((destructure forceCell p c).run env s).2 := destructure_grows hforce p c env s
  unfold extend
  rcases hrun : (destructure forceCell p c).run env s with ⟨⟨_ | _, env'⟩, s'⟩ <;> rwa [hrun] at h

theorem native_grows (n : Native) (v : Value) : Grows (n.run forceCell v) := by
  unfold Native.run
  split
  · exact .ret
  · exact (hforce _).bind fun _ => (hforce _).bind fun _ => .ret
  · exact .ret

end

/-! ## Evaluation -/

section

variable {cx : Context} {eval : Evaluation} {forceCell : CellId → EvalM Value}
  (heval : ∀ env t, Grows (eval env t)) (hforce : ∀ c, Grows (forceCell c))

include heval hforce

theorem enterBody_grows (env : Env) (p : Pattern) (c : CellId) (b : Term) :
    Grows (enterBody eval forceCell env p c b) :=
  (extend_grows hforce env p c).bind fun _ => heval _ b

theorem call_grows (env : Env) (name : DefName) (a : Term) :
    Grows (call cx eval forceCell env name a) := by
  unfold call
  split
  · split
    · split
      · exact .fail
      · refine (heval env a).bind fun v => (native_grows hforce _ v).bind fun r => ?_
        split
        · exact .ret
        · exact .ret
    · split
      · exact (heval env a).bind fun _ => .ret
      · exact (Grows.suspend env a).bind fun c => enterBody_grows heval hforce _ _ c _
  · exact .fail
  · exact .fail
  · exact (heval env a).bind fun _ => .ret

theorem evaluateWith_grows (env : Env) (t : Term) :
    Grows (evaluateWith cx eval forceCell env t) := by
  cases t with
  | literal | lambda | command => exact .ret
  | hole => exact .fail
  | array _ _ es | list _ es | tuple _ es => exact (Grows.suspendAll env es).bind fun _ => .ret
  | compound _ fields => exact (Grows.suspendFields env fields).bind fun _ => .ret
  | ref _ e | quote _ e => exact (Grows.suspend env e).bind fun _ => .ret
  | apply _ f a =>
    refine (heval env f).bind fun v => (Grows.suspend env a).bind fun c => ?_
    split
    · exact enterBody_grows heval hforce _ _ c _
    · exact .ret
  | cond _ c a b =>
    refine (heval env c).bind fun v => ?_
    split
    · exact heval env a
    · exact heval env b
    · exact (Grows.suspend env a).bind fun _ => (Grows.suspend env b).bind fun _ => .ret
  | letIn _ p e b =>
    exact (Grows.suspend env e).bind fun c => enterBody_grows heval hforce env p c b
  | var _ v =>
    rw [evaluateWith]
    split
    · exact hforce _
    · exact .ret
  | call _ name a => exact call_grows heval hforce env name a
  | test _ e p =>
    refine (heval env e).bind fun v => (decideMatch_grows hforce p v).bind fun verdict => ?_
    split
    · exact .ret
    · exact .ret
  | splice _ e =>
    refine (heval env e).bind fun v => ?_
    split
    · exact hforce _
    · exact .ret

end

theorem evaluate_grows (cx : Context) : ∀ (n : Nat) (env : Env) (t : Term),
    Grows (evaluate cx n env t)
  | 0, _, _ => .outOfFuel
  | n + 1, env, t =>
    evaluateWith_grows (evaluate_grows cx n) (Grows.force (evaluate_grows cx n)) env t

end Stagecraft.Eval
