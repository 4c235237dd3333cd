import Stagecraft.Proofs.SharingLogic

/-!
# Sharing gives the answers of evaluation by name

Each function of the evaluator tracks its form by name. The induction on the fuel is done in both
modes at once, so evaluation and read-back on the store end whenever they end by name, and the other
way round, with the same value or the same error (`evaluate_byNeed`, `evaluate_byName`,
`normalizeAt_eq_iff`).
-/

namespace Stagecraft.Eval.ByName

open Staged (Ty Pattern Term)

section

variable {m : Mode} {cx : Context} {q : ℚ}

/-! ## Tests -/

theorem decideInt_tracks {Φ : Chart} {v : Value} {u : Eval.Value} (h : Depicts Φ q v u)
    (p : Pattern) (accept : Int32 → Bool) :
    Tracks m cx Φ q (Eval.decideInt p accept u) (fun _ => decideInt p accept v) fun _ a b =>
      a = b := by
  have hneutral := h.isNeutral
  have hatPattern := h.atPattern p
  unfold Eval.decideInt decideInt
  cases h with
  | @literal l =>
    cases l with
    | int n => exact .ret rfl
    | bool | byte | short | long | float | double | string =>
      simp only [Eval.Value.isNeutral, Value.isNeutral, hatPattern]
      exact .fail
  | array | list | compound | ref | tuple | closure | quote =>
    simp only [Eval.Value.isNeutral, Value.isNeutral, hatPattern]
    exact .fail
  | var | apply | cond | call | test | command | splice | project => exact .ret rfl

theorem decideNeutral_tracks {Φ : Chart} (p : Pattern) :
    Tracks m cx Φ q (Eval.decideNeutral p) (fun _ => decideNeutral p) fun _ a b => a = b := by
  unfold Eval.decideNeutral decideNeutral
  refine Tracks.ofExcept.bind fun certain _ Φ' _ heq => ?_
  subst heq
  cases certain <;> exact .ret rfl

/-- Records with the same keys and related parts have related parts at each key. -/
theorem find?_rel {α β : Type} {R : α → β → Prop} {xs : List (String × α)} {ys : List (String × β)}
    (h : List.Forall₂ (fun e f => e.1 = f.1 ∧ R e.2 f.2) xs ys) (key : String) :
    Option.Rel R (Keyed.find? key xs) (Keyed.find? key ys) := by
  induction h with
  | nil => exact .none
  | @cons x y xs ys hxy _ ih =>
    obtain ⟨k, a⟩ := x
    obtain ⟨k', b⟩ := y
    obtain ⟨hk, hab⟩ := hxy
    dsimp only at hk hab
    subst hk
    unfold Keyed.find?
    split
    · exact .some hab
    · exact ih

theorem FieldParts.partsAt? {Φ : Chart} {fs : List (String × Thunk)} {gs : List (String × CellId)}
    (h : FieldParts Φ q fs gs) (fields : List (String × Pattern)) :
    Option.Rel (Parts Φ q) (partsAt? fs fields) (cellsAt? gs fields) := by
  induction fields with
  | nil => exact .some .nil
  | cons field rest hrest =>
    unfold ByName.partsAt? cellsAt?
    have hfirst := find?_rel h field.1
    revert hfirst hrest
    cases Keyed.find? field.1 fs <;> cases Keyed.find? field.1 gs <;> intro hrest hfirst <;>
      cases hfirst
    · exact .none
    · next hc =>
      revert hrest
      cases ByName.partsAt? fs rest <;> cases cellsAt? gs rest <;> intro hrest <;> cases hrest
      · exact .none
      · next hcs => exact .some (.cons hc hcs)

section

variable {forceCell : CellId → EvalM Eval.Value} (hlook : Looks m cx forceCell)

include hlook

theorem decideAll_tracks {ps : List Pattern}
    (hps : ∀ p ∈ ps, ∀ {Φ : Chart} {v : Value} {u : Eval.Value}, Depicts Φ q v u →
      Tracks m cx Φ q (Eval.decideMatch forceCell p u)
        (fun k => decideMatch (force (evaluate cx k)) p v) fun _ a b => a = b)
    (decided : Bool) {Φ : Chart} {θs : List Thunk} {cs : List CellId} (hcs : Parts Φ q θs cs) :
    Tracks m cx Φ q (Eval.decideAll forceCell decided ps cs)
      (fun k => decideAll (force (evaluate cx k)) decided ps θs) fun _ a b => a = b := by
  induction ps generalizing decided Φ θs cs with
  | nil => exact .ret rfl
  | cons p ps ih =>
    rw [List.forall_mem_cons] at hps
    cases hcs with
    | nil => exact .ret rfl
    | cons hc hcs =>
      unfold Eval.decideAll decideAll
      refine Tracks.ofExcept.bind fun certain _ Φ₁ hle₁ heq => ?_
      subst heq
      cases certain with
      | true => exact ih hps.2 decided (Parts.mono hle₁ le_rfl hcs)
      | false =>
        refine (hlook (hc.mono hle₁ le_rfl)).bind fun u v Φ₂ hle₂ hu => ?_
        refine (hps.1 hu).bind fun verdict _ Φ₃ hle₃ heq => ?_
        subst heq
        have hcs₃ := Parts.mono (Chart.le_trans hle₁ (Chart.le_trans hle₂ hle₃)) le_rfl hcs
        cases verdict with
        | none => exact ih hps.2 false hcs₃
        | some b =>
          cases b with
          | false => exact .ret rfl
          | true => exact ih hps.2 decided hcs₃

theorem decideMatch_tracks (p : Pattern) {Φ : Chart} {v : Value} {u : Eval.Value}
    (h : Depicts Φ q v u) : Tracks m cx Φ q (Eval.decideMatch forceCell p u)
      (fun k => decideMatch (force (evaluate cx k)) p v) fun _ a b => a = b := by
  induction p using Pattern.induction generalizing Φ v u with
  | hole => exact .fail
  | var | wildcard => exact .ret rfl
  | int | range => exact decideInt_tracks h _ _
  | tuple info ps ih =>
    have hneutral := h.isNeutral
    have hatPattern := h.atPattern (.tuple info ps)
    unfold Eval.decideMatch decideMatch
    cases h with
    | var | apply | cond | call | test | command | splice | project =>
      exact decideNeutral_tracks _
    | tuple hparts =>
      simp only [Eval.Value.isNeutral, Value.isNeutral, hatPattern, hparts.length_eq,
        Bool.false_eq_true, if_false]
      split
      · exact decideAll_tracks hlook ih true hparts
      · exact .fail
    | literal | array | list | compound | ref | closure | quote =>
      simp only [Eval.Value.isNeutral, Value.isNeutral, hatPattern, Bool.false_eq_true, if_false]
      exact .fail
  | list info ps ih =>
    have hneutral := h.isNeutral
    have hatPattern := h.atPattern (.list info ps)
    unfold Eval.decideMatch decideMatch
    cases h with
    | var | apply | cond | call | test | command | splice | project =>
      exact decideNeutral_tracks _
    | list hparts =>
      simp only [Eval.Value.isNeutral, Value.isNeutral, hparts.length_eq, Bool.false_eq_true,
        if_false]
      split
      · exact decideAll_tracks hlook ih true hparts
      · exact .ret rfl
    | literal | array | tuple | compound | ref | closure | quote =>
      simp only [Eval.Value.isNeutral, Value.isNeutral, hatPattern, Bool.false_eq_true, if_false]
      exact .fail
  | compound info fields ih =>
    have hneutral := h.isNeutral
    have hatPattern := h.atPattern (.compound info fields)
    unfold Eval.decideMatch decideMatch
    cases h with
    | var | apply | cond | call | test | command | splice | project =>
      exact decideNeutral_tracks _
    | @compound fs gs hfields =>
      simp only [Eval.Value.isNeutral, Value.isNeutral, hatPattern, Bool.false_eq_true, if_false,
        Eval.decideFields_eq, decideFields_eq]
      have hparts := hfields.partsAt? fields
      revert hparts
      cases partsAt? fs fields <;> cases cellsAt? gs fields <;> intro hparts <;> cases hparts
      · exact .fail
      · next hparts => exact decideAll_tracks hlook (List.forall_mem_map.2 ih) true hparts
    | literal | array | tuple | list | ref | closure | quote =>
      simp only [Eval.Value.isNeutral, Value.isNeutral, hatPattern, Bool.false_eq_true, if_false]
      exact .fail

end

/-! ## Binders -/

theorem attempt_bind (x y : BindM Unit) (env : Env) :
    (x >>= fun _ => y).attempt env = x.attempt env >>= fun bound =>
      match bound.2 with
      | none => y.attempt bound.1
      | some e => pure (bound.1, some e) := by
  funext s
  rw [EvalM.run_bind, BindM.attempt, BindM.run_bind, BindM.attempt]
  rcases x env s with ⟨⟨(e | -) | a, env'⟩, s'⟩ <;> rfl

theorem attempt_ofEval {α : Type} (x : EvalM α) (f : α → BindM Unit) (env : Env) :
    (BindM.ofEval x >>= f).attempt env = x.attempt >>= fun r =>
      match r with
      | .ok a => (f a).attempt env
      | .error e => pure (env, some e) := by
  funext s
  rw [EvalM.run_bind, BindM.attempt, BindM.run_ofEval_bind, EvalM.attempt]
  rcases x s with ⟨(e | -) | a, s'⟩ <;> rfl

theorem extend_eq_attempt (forceCell : CellId → EvalM Eval.Value) (env : Env) (p : Pattern)
    (c : CellId) :
    extend forceCell env p c = (Eval.destructure forceCell p c).attempt env >>= fun bound =>
      match bound.2 with
      | none => pure bound.1
      | some e => EvalM.fail e := by
  funext s
  rw [EvalM.run_bind, BindM.attempt]
  unfold extend ExceptT.run
  rcases Eval.destructure forceCell p c env s with ⟨⟨(e | -) | a, env'⟩, s'⟩ <;> rfl

/-- The bindings of a binder, if it did not fail. -/
def Bound.complete (bound : Bound) : Result (List Thunk) :=
  match bound.2 with
  | none => .ok bound.1
  | some e => Result.fail e

theorem complete_attempt {α : Type} (x : Result α) (g : Except Error α → Result Bound)
    (hfailed : ∀ e, g (.error e) = .ok ([], some e)) :
    (x.attempt >>= g) >>= Bound.complete = x >>= fun a => g (.ok a) >>= Bound.complete := by
  match x with
  | .ok a => rfl
  | .error .outOfFuel => rfl
  | .error (.failed e) =>
    change g (.error e) >>= Bound.complete = .error (.failed e)
    rw [hfailed]
    rfl

theorem complete_andThen (x y : Result Bound) :
    Bound.andThen x y >>= Bound.complete = do
      let first ← x >>= Bound.complete
      return first ++ (← y >>= Bound.complete) := by
  match x, y with
  | .error _, _ | .ok (_, some _), _ | .ok (_, none), .error _ | .ok (_, none), .ok (_, none)
  | .ok (_, none), .ok (_, some _) => rfl

section

variable (look : Thunk → Result Value)

mutual

theorem destructure_eq_bindings : ∀ (p : Pattern) (θ : Thunk),
    destructure look p θ = bindings look p θ >>= Bound.complete
  | .hole _, _ | .var .., _ | .int .., _ | .range .., _ | .wildcard _, _ => rfl
  | .tuple info ps, θ | .list info ps, θ => by
    unfold destructure bindings
    dsimp only
    split
    · rfl
    · refine Eq.trans ?_ (complete_attempt (look θ) _ fun _ => rfl).symm
      refine congrArg _ (funext fun v => ?_)
      dsimp only
      split
      · rfl
      · split
        · split
          · exact destructureAll_eq_bindings ps _
          · rfl
        · split
          · exact destructureAll_eq_bindings ps _
          · rfl
        · rfl
  | .compound info fields, θ => by
    unfold destructure bindings
    dsimp only
    split
    · rfl
    · refine Eq.trans ?_ (complete_attempt (look θ) _ fun _ => rfl).symm
      refine congrArg _ (funext fun v => ?_)
      dsimp only
      split
      · rfl
      · split
        · exact destructureFields_eq_bindings _ _ fields
        · rfl

theorem destructureAll_eq_bindings : ∀ (ps : List Pattern) (θs : List Thunk),
    destructureAll look ps θs = bindingsOfAll look ps θs >>= Bound.complete
  | [], _ | _ :: _, [] => rfl
  | p :: ps, θ :: θs => by
    unfold destructureAll bindingsOfAll
    rw [complete_andThen, destructure_eq_bindings p θ, destructureAll_eq_bindings ps θs]

theorem destructureFields_eq_bindings (record : Value) (entries : List (String × Thunk)) :
    ∀ fields : List (String × Pattern),
      destructureFields look record entries fields =
        bindingsOfFields look record entries fields >>= Bound.complete
  | [] => rfl
  | (key, p) :: rest => by
    unfold destructureFields bindingsOfFields
    split
    · rfl
    · rw [complete_andThen, destructure_eq_bindings p _,
        destructureFields_eq_bindings record entries rest]

end

end

/-- A binder whose variables are bound to cells that stand for thunks, one each, up to the same
failure if it fails. -/
def TracksBinder (m : Mode) (cx : Context) (Φ : Chart) (q : ℚ) (env : Env) (x : BindM Unit)
    (y : Nat → Result Bound) : Prop :=
  Tracks m cx Φ q (x.attempt env) y fun Φ' a b =>
    a.2 = b.2 ∧ ∃ cs, a.1 = env.bindAll cs ∧ Parts Φ' q b.1 cs

namespace TracksBinder

variable {Φ : Chart} {env : Env}

theorem ret : TracksBinder m cx Φ q env (pure ()) fun _ => .ok ([], none) :=
  Tracks.ret ⟨rfl, [], env.bindAll_nil.symm, .nil⟩

theorem cell {θ : Thunk} {c : CellId} (hc : Stands Φ q θ c) :
    TracksBinder m cx Φ q env (BindM.bind c) fun _ => .ok ([θ], none) :=
  Tracks.ret ⟨rfl, [c], rfl, .cons hc .nil⟩

theorem fail {e : Error} :
    TracksBinder m cx Φ q env (BindM.ofEval (EvalM.fail e)) fun _ => .ok ([], some e) :=
  Tracks.ret ⟨rfl, [], env.bindAll_nil.symm, .nil⟩

theorem afterEval {α β : Type} {x : EvalM α} {y : Nat → Result β} {f : α → BindM Unit}
    {g : Nat → Except Error β → Result Bound} {Q : Chart → α → β → Prop}
    (hx : Tracks m cx Φ q x y Q) (hfailed : ∀ k e, g k (.error e) = .ok ([], some e))
    (hf : ∀ a b Φ', Φ ≤ Φ' → Q Φ' a b →
      TracksBinder m cx Φ' q env (f a) fun k => g k (.ok b)) :
    TracksBinder m cx Φ q env (BindM.ofEval x >>= f) fun k => (y k).attempt >>= g k := by
  unfold TracksBinder
  rw [attempt_ofEval]
  refine hx.attempt.bind fun r r' Φ₁ hle₁ hends => ?_
  cases hends with
  | ok hab => exact hf _ _ Φ₁ hle₁ hab
  | failed =>
    simp only [hfailed]
    exact .ret ⟨rfl, [], env.bindAll_nil.symm, .nil⟩

theorem seq {x y : BindM Unit} {x' y' : Nat → Result Bound}
    (hx : TracksBinder m cx Φ q env x x')
    (hy : ∀ Φ' env', Φ ≤ Φ' → TracksBinder m cx Φ' q env' y y') :
    TracksBinder m cx Φ q env (x >>= fun _ => y) fun k => Bound.andThen (x' k) (y' k) := by
  unfold TracksBinder
  rw [attempt_bind]
  refine Tracks.bind hx ?_
  rintro ⟨_, stop⟩ ⟨θs, _⟩ Φ₁ hle₁ ⟨rfl, cs, rfl, hcs⟩
  cases stop with
  | some e => exact .ret ⟨rfl, cs, rfl, hcs⟩
  | none =>
    have hrest := hy Φ₁ (env.bindAll cs) hle₁
    unfold TracksBinder at hrest
    have hwhole : Tracks m cx Φ₁ q (y.attempt (env.bindAll cs) >>= fun bound => pure bound)
        (fun k => y' k >>= fun bound => .ok (θs ++ bound.1, bound.2)) fun Φ' a b =>
          a.2 = b.2 ∧ ∃ cs, a.1 = env.bindAll cs ∧ Parts Φ' q b.1 cs := by
      refine hrest.bind ?_
      rintro ⟨_, stop⟩ ⟨θs', _⟩ Φ₂ hle₂ ⟨rfl, cs', rfl, hcs'⟩
      refine .ret ⟨rfl, cs ++ cs', Env.bindAll_bindAll .., ?_⟩
      exact List.rel_append (Parts.mono hle₂ le_rfl hcs) hcs'
    rwa [bind_pure] at hwhole

theorem projections {p : Pattern} {v : Value} {u : Eval.Value} : ∀ {Φ : Chart} {env : Env}
    (vars : List Var), Depicts Φ q v u →
      TracksBinder m cx Φ q env (bindProjections p u vars) fun _ =>
        .ok (vars.map fun x => .known (.project p v x), none)
  | _, _, [], _ => ret
  | Φ, env, x :: xs, h => by
    have hmade : Tracks m cx Φ q (EvalM.alloc (.forced (.project p u x)))
        (fun _ => .ok (Thunk.known (.project p v x))) fun Φ' c θ => Stands Φ' q θ c :=
      .ofMakes (Makes.known (.project h)) fun _ _ hc => hc
    have hbound : TracksBinder m cx Φ q env (bindProjections p u (x :: xs)) fun k =>
        (Result.attempt (.ok (Thunk.known (.project p v x)))) >>= fun r =>
          match r with
          | .ok θ => Bound.andThen (.ok ([θ], none))
              (.ok (xs.map fun x => .known (.project p v x), none))
          | .error e => .ok ([], some e) := by
      refine afterEval hmade (fun _ _ => rfl) fun c θ Φ₁ hle₁ hc => ?_
      exact (cell hc).seq fun Φ₂ env' hle₂ =>
        projections xs (h.mono (Chart.le_trans hle₁ hle₂) le_rfl)
    exact hbound

end TracksBinder

/-! ## Native functions -/

/-- A native function sees of its operands the numbers and truth values that they are. -/
theorem onPair_congr (n : Native) {a b a' b' : Eval.Value} (hint : a.int? = a'.int?)
    (hbool : a.bool? = a'.bool?) (hint' : b.int? = b'.int?) (hbool' : b.bool? = b'.bool?) :
    n.onPair a b = n.onPair a' b' := by
  cases n <;> simp only [Native.onPair, hint, hbool, hint', hbool']

section

variable {forceCell : CellId → EvalM Eval.Value} (hlook : Looks m cx forceCell)

include hlook

mutual

theorem destructure_tracks : ∀ (p : Pattern) {Φ : Chart} {env : Env} {θ : Thunk} {c : CellId},
    Stands Φ q θ c → TracksBinder m cx Φ q env (Eval.destructure forceCell p c)
      fun k => bindings (force (evaluate cx k)) p θ
  | .hole _, _, _, _, _, _ => .fail
  | .var .., _, _, _, _, hc => .cell hc
  | .int .., _, _, _, _, _ | .range .., _, _, _, _, _ | .wildcard _, _, _, _, _, _ => .ret
  | .tuple info ps, Φ, env, θ, c, hc | .list info ps, Φ, env, θ, c, hc => by
    unfold Eval.destructure bindings
    dsimp only
    split
    · exact .ret
    · refine TracksBinder.afterEval (hlook hc) (fun _ _ => rfl) fun u v Φ₁ hle₁ hu => ?_
      have hstuck (p : Pattern) : TracksBinder m cx Φ₁ q env (bindProjections p u p.binders)
          fun _ => .ok (projections p v, none) := .projections _ hu
      have hatPattern := hu.atPattern
      cases hu with
      | var | apply | cond | call | test | command | splice | project => exact hstuck _
      | tuple hparts | list hparts =>
        simp only [Eval.Value.isNeutral, Value.isNeutral, hatPattern, hparts.length_eq,
          Bool.false_eq_true, if_false]
        split
        · exact destructureAll_tracks ps hparts
        · exact .fail
      | literal | array | compound | ref | closure | quote =>
        simp only [Eval.Value.isNeutral, Value.isNeutral, hatPattern, Bool.false_eq_true, if_false]
        exact .fail
  | .compound info fields, Φ, env, θ, c, hc => by
    unfold Eval.destructure bindings
    dsimp only
    split
    · exact .ret
    · refine TracksBinder.afterEval (hlook hc) (fun _ _ => rfl) fun u v Φ₁ hle₁ hu => ?_
      have hstuck (p : Pattern) : TracksBinder m cx Φ₁ q env (bindProjections p u p.binders)
          fun _ => .ok (projections p v, none) := .projections _ hu
      have hatPattern := hu.atPattern
      have hu' := hu
      cases hu with
      | var | apply | cond | call | test | command | splice | project => exact hstuck _
      | compound hfields =>
        simp only [Eval.Value.isNeutral, Value.isNeutral, Bool.false_eq_true, if_false]
        exact destructureFields_tracks fields hu' hfields
      | literal | array | list | tuple | ref | closure | quote =>
        simp only [Eval.Value.isNeutral, Value.isNeutral, hatPattern, Bool.false_eq_true, if_false]
        exact .fail

theorem destructureAll_tracks : ∀ (ps : List Pattern) {Φ : Chart} {env : Env} {θs : List Thunk}
    {cs : List CellId}, Parts Φ q θs cs →
      TracksBinder m cx Φ q env (Eval.destructureAll forceCell ps cs)
        fun k => bindingsOfAll (force (evaluate cx k)) ps θs
  | [], _, _, _, _, _ => .ret
  | _ :: _, _, _, _, _, .nil => .ret
  | p :: ps, _, _, _, _, .cons hc hcs => by
    unfold Eval.destructureAll bindingsOfAll
    exact (destructure_tracks p hc).seq fun Φ₁ env' hle₁ =>
      destructureAll_tracks ps (Parts.mono hle₁ le_rfl hcs)

theorem destructureFields_tracks : ∀ (fields : List (String × Pattern)) {Φ : Chart} {env : Env}
    {record : Value} {record' : Eval.Value} {fs : List (String × Thunk)}
    {gs : List (String × CellId)}, Depicts Φ q record record' → FieldParts Φ q fs gs →
      TracksBinder m cx Φ q env (Eval.destructureFields forceCell record' gs fields)
        fun k => bindingsOfFields (force (evaluate cx k)) record fs fields
  | [], _, _, _, _, _, _, _, _ => .ret
  | (key, p) :: rest, _, _, _, _, fs, gs, hrecord, hfields => by
    unfold Eval.destructureFields bindingsOfFields
    have hfind := find?_rel hfields key
    rw [hrecord.atPattern]
    revert hfind
    cases Keyed.find? key fs <;> cases Keyed.find? key gs <;> intro hfind <;> cases hfind
    · exact .fail
    · next hc =>
      exact (destructure_tracks p hc).seq fun Φ₁ env' hle₁ =>
        destructureFields_tracks rest (hrecord.mono hle₁ le_rfl) (hfields.mono hle₁ le_rfl)

end

/-- A binder bound to the parts of a cell. -/
theorem extend_tracks {Φ : Chart} {ρ : List Thunk} {depth : Nat} {env : Env} {θ : Thunk}
    {c : CellId} (henv : EnvStands Φ q ρ depth env) (hc : Stands Φ q θ c) (p : Pattern) :
    Tracks m cx Φ q (extend forceCell env p c)
      (fun k => destructure (force (evaluate cx k)) p θ) fun Φ' env' θs =>
        EnvStands Φ' q (ρ ++ θs) depth env' := by
  have hbinder : TracksBinder m cx Φ q env (Eval.destructure forceCell p c)
      fun k => bindings (force (evaluate cx k)) p θ := destructure_tracks hlook p hc
  rw [extend_eq_attempt]
  simp only [destructure_eq_bindings]
  refine Tracks.bind hbinder ?_
  rintro ⟨_, stop⟩ ⟨θs, _⟩ Φ₁ hle₁ ⟨rfl, cs, rfl, hcs⟩
  cases stop with
  | some e => exact .fail
  | none => exact .ret ⟨henv.depth, List.rel_append (henv.cells.mono hle₁ le_rfl) hcs⟩

theorem runNative_tracks {Φ : Chart} {v : Value} {u : Eval.Value} (h : Depicts Φ q v u)
    (n : Native) :
    Tracks m cx Φ q (n.run forceCell u) (fun k => runNative (force (evaluate cx k)) n v)
      fun Φ' a b => Option.Rel (Depicts Φ' q) b a := by
  unfold Native.run runNative
  cases h with
  | @literal l => cases n <;> cases l <;> first | exact .ret .none | exact .ret (.some .literal)
  | @tuple θs cs hparts =>
    match θs, cs, hparts with
    | [], [], .nil => cases n <;> exact .ret .none
    | [_], [_], .cons _ .nil => cases n <;> exact .ret .none
    | _ :: _ :: _ :: _, _ :: _ :: _ :: _, .cons _ (.cons _ (.cons _ _)) =>
      cases n <;> exact .ret .none
    | [θ, θ'], [c, c'], .cons hc (.cons hc' .nil) =>
      have hpair : Tracks m cx Φ q
          (do
            let a ← forceCell c
            let b ← forceCell c'
            return (n.onPair a b).map Eval.Value.literal)
          (fun k => do
            let a ← force (evaluate cx k) θ
            let b ← force (evaluate cx k) θ'
            return (n.onPair a.seen b.seen).map Value.literal)
          fun Φ' a b => Option.Rel (Depicts Φ' q) b a := by
        refine (hlook hc).bind fun u v Φ₁ hle₁ hu => ?_
        refine (hlook (hc'.mono hle₁ le_rfl)).bind fun u' v' Φ₂ _ hu' => .ret ?_
        rw [onPair_congr n hu.int? hu.bool? hu'.int? hu'.bool?]
        cases n.onPair v.seen v'.seen with
        | none => exact .none
        | some l => exact .some .literal
      cases n with
      | boolNot => exact .ret .none
      | intAdd | intSub | intMul | intDiv | intMod | intEq | intLt | boolAnd | boolOr => exact hpair
  | array | list | compound | ref | closure | quote | var | apply | cond | call | test | command
  | splice | project => cases n <;> exact .ret .none

end

end

end Stagecraft.Eval.ByName
