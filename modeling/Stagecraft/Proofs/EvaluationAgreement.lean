import Stagecraft.Proofs.PatternAgreement

/-!
# Evaluation by need agrees with conversion

The head form that the evaluator finds for a term shows the flat value of its converted form, if
that has one (`evaluate_agrees`). The induction is on the evaluator's fuel. What carries it is that
a term is only ever suspended together with a reason why it stands for a flat value, and that a
function value and its closure agree on every captured name.
-/

namespace Stagecraft.Eval

open Scope (levelOf?)
open Flat (Program Flattened FlattenedAll FlattenedFields Mirrors Bindings Capture bindCaptures
  Evaluates EvaluatesAll EvaluatesFields Runs Converted dispatcher)

/-! ## Environments -/

section

variable {Ω : World} {names flatNames more : List String} {env : Env} {ρ ws : List Flat.Value}
  {cs : List CellId}

theorem EnvShows.empty (depth : Nat) : EnvShows Ω [] ⟨.empty, depth⟩ [] [] where
  length := rfl
  flatLength := rfl
  var h := nomatch h

/-- A name bound before is still in scope under binders of other names. -/
theorem InScope.bindAll {name : String} {w : Flat.Value} (h : InScope Ω names env name w)
    (hname : name ∉ more) : InScope Ω (names ++ more) (env.bindAll cs) name w := by
  obtain ⟨level, c, hlevel, hc, hw⟩ := h
  refine ⟨level, c, ?_, Env.get?_bindAll_of_some hc cs, hw⟩
  rw [Scope.levelOf?_append_of_notMem hname, hlevel]

/-- The innermost of the names just bound stands for its value. -/
theorem InScope.bindAll_self (hlen : env.cells.items.length = names.length) (hcs : Cells Ω ws cs)
    (hws : ws.length = more.length) {name : String} {i : Nat} (hi : levelOf? more name = some i) :
    ∃ w, ws[i]? = some w ∧ InScope Ω (names ++ more) (env.bindAll cs) name w := by
  have hlt : i < ws.length := by
    rw [hws]
    exact (List.getElem?_eq_some_iff.1 (Scope.levelOf?_some hi)).1
  have hlt' : i < cs.length := by rw [← hcs.length_eq]; exact hlt
  have hcell := hcs.get (i := i) hlt hlt'
  refine ⟨ws[i], List.getElem?_eq_getElem hlt, names.length + i, cs[i], ?_, ?_, hcell⟩
  · exact Scope.levelOf?_append_of_some hi
  · rw [← hlen, Env.get?_bindAll_add, List.getElem?_eq_getElem hlt']

/-- Both environments grow by the values of one binder. -/
theorem EnvShows.bindAll (h : EnvShows Ω names env flatNames ρ) (hcs : Cells Ω ws cs)
    (hws : ws.length = more.length) :
    EnvShows Ω (names ++ more) (env.bindAll cs) (flatNames ++ more) (ρ ++ ws) where
  length := by simp [Env.bindAll, h.length, ← hws, hcs.length_eq]
  flatLength := by simp [h.flatLength, hws]
  var {name level} hlevel := by
    rw [Scope.levelOf?_append] at hlevel
    cases hi : levelOf? more name with
    | some i =>
      rw [hi] at hlevel
      cases hlevel
      obtain ⟨w, hw, hin⟩ := InScope.bindAll_self h.length hcs hws hi
      refine ⟨w, ?_, hin⟩
      rw [← h.flatLength, List.getElem?_append_right (Nat.le_add_right _ _),
        Nat.add_sub_cancel_left, hw]
    | none =>
      rw [hi] at hlevel
      obtain ⟨w, hw, hin⟩ := h.var hlevel
      refine ⟨w, ?_, hin.bindAll (Scope.levelOf?_eq_none.1 hi)⟩
      rw [List.getElem?_append_left (List.getElem?_eq_some_iff.1 hw).1, hw]

/-- The environment of a closure body: the parameter first, then what was captured. By need, the
captured variables are where they were bound and the parameter comes last. -/
theorem EnvShows.enterClosure {captured : List (String × Flat.Value)} {captures : List Capture}
    {ws' : List Flat.Value} (hlen : env.cells.items.length = names.length)
    (hin : ∀ {name w}, Keyed.find? name captured = some w →
      name ∉ more ∧ InScope Ω names env name w)
    (hcs : Cells Ω ws cs) (hws : ws.length = more.length)
    (hcaptures : List.Forall₂ (fun c w => Keyed.find? c.v.name captured = some w) captures ws') :
    EnvShows Ω (names ++ more) (env.bindAll cs) (more ++ captures.map (·.v.name)) (ws ++ ws') where
  length := by simp [Env.bindAll, hlen, ← hws, hcs.length_eq]
  flatLength := by simp [hws, hcaptures.length_eq]
  var {name level} hlevel := by
    rw [Scope.levelOf?_append] at hlevel
    cases hi : levelOf? (captures.map (·.v.name)) name with
    | some i =>
      rw [hi] at hlevel
      cases hlevel
      obtain ⟨hlt, hname⟩ := List.getElem?_eq_some_iff.1 (Scope.levelOf?_some hi)
      rw [List.getElem_map] at hname
      rw [List.length_map] at hlt
      have hlt' : i < ws'.length := by rw [← hcaptures.length_eq]; exact hlt
      have hfind := hcaptures.get (i := i) hlt hlt'
      rw [List.get_eq_getElem, List.get_eq_getElem, hname] at hfind
      obtain ⟨hnot, hold⟩ := hin hfind
      refine ⟨ws'[i], ?_, hold.bindAll hnot⟩
      rw [← hws, List.getElem?_append_right (Nat.le_add_right _ _), Nat.add_sub_cancel_left,
        List.getElem?_eq_getElem hlt']
    | none =>
      rw [hi] at hlevel
      obtain ⟨w, hw, hself⟩ := InScope.bindAll_self hlen hcs hws hlevel
      refine ⟨w, ?_, hself⟩
      rw [List.getElem?_append_left (List.getElem?_eq_some_iff.1 hw).1, hw]

end

/-! ## Native functions -/

section

variable {table : Staged.Table} {P : Program} {forceCell : CellId → EvalM Value}

theorem Value.int?_some {v : Value} {n : Int32} (h : v.int? = some n) : v = .literal (.int n) := by
  unfold int? at h
  split at h
  · cases h
    rfl
  · cases h

theorem Value.bool?_some {v : Value} {b : Bool} (h : v.bool? = some b) :
    v = .literal (.bool b) := by
  unfold bool? at h
  split at h
  · cases h
    rfl
  · cases h

/-- A pair of known values gives the same as the flat literals it shows. -/
theorem onPair_agrees {Ω : World} {n : Native} {w w' r : Flat.Value} {a b : Value} {l : Literal}
    (ha : Shows table P Ω w a) (hb : Shows table P Ω w' b)
    (hr : Flat.native? n (.tuple [w, w']) = some r) (hl : n.onPair a b = some l) :
    r = .literal l := by
  have hliteral : ∃ k k', a = .literal k ∧ b = .literal k' := by
    cases n <;> simp only [Native.onPair, Option.bind_eq_bind, Option.bind_eq_some_iff,
      reduceCtorEq] at hl
    all_goals obtain ⟨x, hx, y, hy, -⟩ := hl
    all_goals first
      | exact ⟨_, _, Value.int?_some hx, Value.int?_some hy⟩
      | exact ⟨_, _, Value.bool?_some hx, Value.bool?_some hy⟩
  obtain ⟨k, k', rfl, rfl⟩ := hliteral
  cases ha with
  | neutral h => cases h
  | literal =>
    cases hb with
    | neutral h => cases h
    | literal =>
      simp only [Flat.native?, hl, Option.map_some, Option.some.injEq] at hr
      exact hr.symm

/-- Where a native function has an answer, it is the one on the flat value. -/
theorem native_agrees (hforce : Forces table P forceCell) {Ω : World} {n : Native}
    {w r : Flat.Value} {u : Value} (hu : Shows table P Ω w u) (hr : Flat.native? n w = some r) :
    Yields table P Ω (n.run forceCell u) fun Ω' result =>
      ∀ v, result = some v → Shows table P Ω' r v := by
  unfold Native.run
  split
  · next v =>
    refine .ret fun v' hv' => ?_
    obtain ⟨b, hb, rfl⟩ := Option.map_eq_some_iff.1 hv'
    have hv := Value.bool?_some hb
    subst hv
    cases hu with
    | neutral h => cases h
    | literal =>
      simp only [Flat.native?, if_pos, Option.some.injEq] at hr
      subst hr
      exact .literal
  · next x y _ =>
    cases hu with
    | neutral h => cases h
    | tuple hcells =>
      cases hcells with
      | cons hx hcells =>
        cases hcells with
        | cons hy hnil =>
          cases hnil
          refine (hforce hx).bind fun a Ω₁ hle₁ ha => ?_
          refine (hforce (hle₁ _ _ hy)).bind fun b Ω₂ hle₂ hb => .ret fun v hv => ?_
          obtain ⟨l, hl, rfl⟩ := Option.map_eq_some_iff.1 hv
          rw [onPair_agrees (ha.mono hle₂) hb hr hl]
          exact .literal
  · exact .ret fun v hv => nomatch hv

end

/-! ## Terms -/

section

variable {table : Staged.Table} {P : Program}

/-- Every element of a converted list stands for its flat value. -/
theorem justifiedAll {Ω : World} {names : List String} {env : Env} {S : Bindings}
    {ρ : List Flat.Value} (henv : EnvShows Ω names env (Bindings.names S) ρ) :
    ∀ {ts : List Staged.Term} {ts' : List Flat.Term} {ws : List Flat.Value},
      Staged.Term.areScoped names ts = true → FlattenedAll table P S ts ts' →
      EvaluatesAll P ρ ts' ws → List.Forall₂ (Justified table P Ω env) ts ws
  | [], _, _, _, .nil, .nil => .nil
  | t :: ts, _, _, hs, .cons ht hts, .cons hw hws => by
    simp only [Staged.Term.areScoped, Bool.and_eq_true] at hs
    exact .cons (.term henv hs.1 ht hw) (justifiedAll henv hs.2 hts hws)

/-- Every field of a converted record stands for its flat value. -/
theorem justifiedFields {Ω : World} {names : List String} {env : Env} {S : Bindings}
    {ρ : List Flat.Value} (henv : EnvShows Ω names env (Bindings.names S) ρ) :
    ∀ {fields : List (String × Staged.Term)} {fields' : List (String × Flat.Term)}
      {ws : List (String × Flat.Value)}, Staged.Term.areFieldsScoped names fields = true →
      FlattenedFields table P S fields fields' → EvaluatesFields P ρ fields' ws →
      List.Forall₂ (fun f e => f.1 = e.1 ∧ Justified table P Ω env f.2 e.2) fields ws
  | [], _, _, _, .nil, .nil => .nil
  | (key, t) :: rest, _, _, hs, .cons ht hrest, .cons hw hws => by
    simp only [Staged.Term.areFieldsScoped, Bool.and_eq_true] at hs
    exact .cons ⟨rfl, .term henv hs.1 ht hw⟩ (justifiedFields henv hs.2 hrest hws)

theorem justifiedAll_data {Ω : World} {env : Env} : ∀ {ts : List Staged.Term}
    {ws : List Flat.Value}, ofDataAll? ts = some ws →
      List.Forall₂ (Justified table P Ω env) ts ws
  | [], ws, h => by
    cases h
    exact .nil
  | t :: ts, ws, h => by
    simp only [ofDataAll?, Option.bind_eq_bind, Option.bind_eq_some_iff, Option.pure_def,
      Option.some.injEq] at h
    obtain ⟨w, hw, ws', hws, rfl⟩ := h
    exact .cons (.data hw) (justifiedAll_data hws)

theorem justifiedFields_data {Ω : World} {env : Env} : ∀ {fields : List (String × Staged.Term)}
    {ws : List (String × Flat.Value)}, ofDataFields? fields = some ws →
      List.Forall₂ (fun f e => f.1 = e.1 ∧ Justified table P Ω env f.2 e.2) fields ws
  | [], ws, h => by
    cases h
    exact .nil
  | (key, t) :: rest, ws, h => by
    simp only [ofDataFields?, Option.bind_eq_bind, Option.bind_eq_some_iff, Option.pure_def,
      Option.some.injEq] at h
    obtain ⟨w, hw, ws', hws, rfl⟩ := h
    exact .cons ⟨rfl, .data hw⟩ (justifiedFields_data hws)

/-- An evaluation that finds the flat value of whatever stands for one. -/
def Faithful (table : Staged.Table) (P : Program) (eval : Evaluation) : Prop :=
  ∀ ⦃Ω env t w⦄, Justified table P Ω env t w →
    Yields table P Ω (eval env t) fun Ω' u => Shows table P Ω' w u

theorem Faithful.force {eval : Evaluation} (h : Faithful table P eval) :
    Forces table P (force eval) :=
  fun _ _ _ hc => Yields.force (fun hj => h hj) hc

variable {cx : Context} {eval : Evaluation} {forceCell : CellId → EvalM Value}

/-- A body entered with its binder bound to the parts of a cell. -/
theorem enterBody_agrees (heval : Faithful table P eval) (hforce : Forces table P forceCell)
    {Ω : World} {env : Env} {p : Staged.Pattern} {S S' : Bindings} {p' : Flat.Pattern}
    {c : CellId} {w r : Flat.Value} {ws : List Flat.Value} {b : Staged.Term}
    (hc : Ω c = some w) (hp : Mirrors table S p p' S') (hws : p'.bind? w = some ws)
    (hb : ∀ Ω' cs, Ω ≤ Ω' → Cells Ω' ws cs → Justified table P Ω' (env.bindAll cs) b r) :
    Yields table P Ω (enterBody eval forceCell env p c b) fun Ω' u => Shows table P Ω' r u := by
  unfold enterBody
  refine (extend_agrees hforce hc hp hws).bind fun env' Ω' hle henv' => ?_
  obtain ⟨cs, rfl, hcs⟩ := henv'
  exact heval (hb Ω' cs hle hcs)

/-- Data is what it stands for. -/
theorem evaluateWith_data {Ω : World} {env : Env} {t : Staged.Term} {w : Flat.Value}
    (ht : ofData? t = some w) :
    Yields table P Ω (evaluateWith cx eval forceCell env t) fun Ω' u => Shows table P Ω' w u := by
  cases t <;> simp only [ofData?, Option.map_eq_some_iff, Option.some.injEq, reduceCtorEq] at ht
  case literal =>
    subst ht
    exact .ret .literal
  case array =>
    obtain ⟨ws, hws, rfl⟩ := ht
    exact (Yields.suspendAll (justifiedAll_data hws)).bind fun cs Ω' _ hcs => .ret (.array hcs)
  case list =>
    obtain ⟨ws, hws, rfl⟩ := ht
    exact (Yields.suspendAll (justifiedAll_data hws)).bind fun cs Ω' _ hcs => .ret (.list hcs)
  case compound =>
    obtain ⟨ws, hws, rfl⟩ := ht
    exact (Yields.suspendFields (justifiedFields_data hws)).bind fun cs Ω' _ hcs =>
      .ret (.compound hcs)
  case ref =>
    obtain ⟨w, hw, rfl⟩ := ht
    exact (Yields.suspend (.data hw)).bind fun c Ω' _ hc => .ret (.ref hc)
  case tuple =>
    obtain ⟨ws, hws, rfl⟩ := ht
    exact (Yields.suspendAll (justifiedAll_data hws)).bind fun cs Ω' _ hcs => .ret (.tuple hcs)

/-- A function value and the closure that its conversion builds. -/
theorem closureShows {Ω : World} {names : List String} {env : Env} {S inner : Bindings}
    {ρ : List Flat.Value} {t : Staged.Ty} {p : Staged.Pattern} {p' : Flat.Pattern}
    {b : Staged.Term} {b' : Flat.Term} {τ : Flat.Ty} {captures : List Capture} {tag : Nat}
    {captured : List (String × Flat.Value)} (henv : EnvShows Ω names env (Bindings.names S) ρ)
    (hs : b.isScoped (names ++ p.binderNames) = true)
    (hcaptures : Flat.capturesOf S (Staged.Term.lambda t p b).freeNames.names = .ok captures)
    (hp : Mirrors table .empty p p' inner)
    (hb : Flattened table P (bindCaptures inner captures).2 b b')
    (hbody : P.HasBody tag (.ofTuple [p', (bindCaptures inner captures).1]) τ b')
    (hcaptured : Flat.captured? ρ captures = some captured) :
    ClosureShows table P Ω tag captured p b env names p' inner captures τ b' where
  length := henv.length
  bodyScoped := hs
  mirrors := hp
  flattened := hb
  body := hbody
  captured {name w} hname := by
    obtain ⟨hmem, level, hlevel, hw⟩ := Flat.captured?_ok hcaptures hcaptured hname
    obtain ⟨w', hw', hin⟩ := henv.var hlevel
    rw [hw] at hw'
    cases hw'
    refine ⟨fun hbound => ?_, hin⟩
    rw [Staged.Term.freeNames] at hmem
    exact (NameSet.mem_names_diff.1 hmem).2 (NameSet.mem_names_ofList.2 hbound)

/-- Applying a function value gives what the body at the tag of its closure gives. -/
theorem applyClosure_agrees (heval : Faithful table P eval) (hforce : Forces table P forceCell)
    {Ω : World} {tag : Nat} {captured : List (String × Flat.Value)} {p : Staged.Pattern}
    {b : Staged.Term} {env : Env} {names : List String} {p' : Flat.Pattern} {inner : Bindings}
    {captures : List Capture} {τ : Flat.Ty} {b' : Flat.Term} {c : CellId} {w r : Flat.Value}
    {name : DefName}
    (h : ClosureShows table P Ω tag captured p b env names p' inner captures τ b')
    (hc : Ω c = some w) (hname : P.closures.bodies[tag]? = some name)
    (hr : Runs P name (.tuple [w, .compound captured]) r) :
    Yields table P Ω (enterBody eval forceCell env p c b) fun Ω' u => Shows table P Ω' r u := by
  obtain ⟨name', hname', hfun⟩ := h.body
  rw [hname] at hname'
  cases hname'
  obtain ⟨ws, hws, hrun⟩ := hr.of_function hfun
  obtain ⟨ws₁, ws₂, hws₁, hws₂, rfl⟩ := Flat.bind?_pair hws
  rw [Flat.bindCaptures_eq] at hws₂
  have hcaptures := Flat.bindFields?_captureFields hws₂
  refine enterBody_agrees heval hforce hc h.mirrors hws₁ fun Ω' cs hle hcs => ?_
  have hlen : ws₁.length = p.binderNames.length := by
    rw [h.mirrors.length_bind? hws₁, Staged.Pattern.binderNames, List.length_map]
  have hinner : Bindings.names (bindCaptures inner captures).2 =
      p.binderNames ++ captures.map (·.v.name) := by
    rw [Flat.bindCaptures_names, h.mirrors.names_eq]
    rfl
  refine .term ?_ h.bodyScoped h.flattened hrun
  rw [hinner]
  exact EnvShows.enterClosure h.length
    (fun hn => ⟨(h.captured hn).1, (h.captured hn).2.mono hle⟩) hcs hlen hcaptures

/-- What the simulation assumes of a definition table and a program. -/
structure Agreement (cx : Context) (table : Staged.Table) (P : Program) : Prop where
  definitions : cx.definitions = table
  natives : cx.natives = P.natives
  converted : Converted table P
  allScoped : table.isScoped = true
  noDispatcher : table.find? dispatcher = none

/-- A call to a definition gives what the definition of that name in the program gives. -/
theorem call_agrees (h : Agreement cx table P) (heval : Faithful table P eval)
    (hforce : Forces table P forceCell) {Ω : World} {env : Env} {name : DefName} {a : Staged.Term}
    {w r : Flat.Value} (ha : Justified table P Ω env a w) (hr : Runs P name w r) :
    Yields table P Ω (call cx eval forceCell env name a) fun Ω' u => Shows table P Ω' r u := by
  unfold call
  rw [h.definitions]
  split
  · next f hf =>
    obtain ⟨hmem, rfl⟩ := Staged.Table.find?_function hf
    split
    · next hb =>
      split
      · exact .fail
      · next native hnative =>
        obtain ⟨b, hfind, -⟩ := h.converted.builtin hmem hb
        obtain ⟨n, hn, hres⟩ := hr.of_builtin hfind
        rw [← h.natives, hnative] at hn
        cases hn
        refine (heval ha).bind fun u Ω₁ _ hu => ?_
        refine (native_agrees hforce hu hres).bind fun result Ω₂ _ hresult => ?_
        split
        · next v => exact .ret (hresult v rfl)
        · exact .ret (.neutral rfl)
    · next hb =>
      split
      · exact (heval ha).bind fun u Ω₁ _ _ => .ret (.neutral rfl)
      · obtain ⟨f', scope, hfun, hf'⟩ := h.converted.function hmem (by simpa using hb)
        obtain ⟨ws, hws, hrun⟩ := hr.of_function hfun
        refine (Yields.suspend ha).bind fun c Ω₁ _ hc => ?_
        refine enterBody_agrees heval hforce hc hf'.binder hws fun Ω₂ cs _ hcs => ?_
        have hlen : ws.length = f.binder.binderNames.length := by
          rw [hf'.binder.length_bind? hws, Staged.Pattern.binderNames, List.length_map]
        have henv := (EnvShows.empty (Ω := Ω₂) (env.depth + 1)).bindAll hcs hlen
        simp only [List.nil_append] at henv
        have hinner : Bindings.names scope = f.binder.binderNames := by
          rw [hf'.binder.names_eq]
          rfl
        rw [← hinner] at henv
        exact .term henv (hinner ▸ Staged.Table.isScoped_function h.allScoped hmem) hf'.body hrun
  · exact .fail
  · exact .fail
  · exact (heval ha).bind fun u Ω₁ _ _ => .ret (.neutral rfl)

/-- A term whose flat form has a value has a head form that shows it. -/
theorem evaluateWith_term (h : Agreement cx table P) (heval : Faithful table P eval)
    (hforce : Forces table P forceCell) {Ω : World} {env : Env} {names : List String}
    {S : Bindings} {ρ : List Flat.Value} {t : Staged.Term} {t' : Flat.Term} {w : Flat.Value}
    (henv : EnvShows Ω names env (Bindings.names S) ρ) (hs : t.isScoped names = true)
    (ht : Flattened table P S t t') (hw : Evaluates P ρ t' w) :
    Yields table P Ω (evaluateWith cx eval forceCell env t) fun Ω' u => Shows table P Ω' w u := by
  cases ht with
  | literal =>
    cases hw
    exact .ret .literal
  | array _ hes =>
    cases hw with
    | array hws =>
      exact (Yields.suspendAll (justifiedAll henv hs hes hws)).bind fun cs Ω' _ hcs =>
        .ret (.array hcs)
  | list _ hes =>
    cases hw with
    | list hws =>
      exact (Yields.suspendAll (justifiedAll henv hs hes hws)).bind fun cs Ω' _ hcs =>
        .ret (.list hcs)
  | compound _ hfields =>
    cases hw with
    | compound hws =>
      exact (Yields.suspendFields (justifiedFields henv hs hfields hws)).bind fun cs Ω' _ hcs =>
        .ret (.compound hcs)
  | ref _ he =>
    cases hw with
    | ref hw =>
      rw [Staged.Term.isScoped] at hs
      exact (Yields.suspend (.term henv hs he hw)).bind fun c Ω' _ hc => .ret (.ref hc)
  | tuple _ hes =>
    cases hw with
    | tuple hws =>
      exact (Yields.suspendAll (justifiedAll henv hs hes hws)).bind fun cs Ω' _ hcs =>
        .ret (.tuple hcs)
  | lambda _ hcaptures hp hb hbody =>
    cases hw with
    | closure hcaptured =>
      exact .ret (.closure (closureShows henv hs hcaptures hp hb hbody hcaptured))
  | apply _ hf ha =>
    simp only [Staged.Term.isScoped, Bool.and_eq_true] at hs
    cases hw with
    | call hne => exact absurd rfl hne
    | dispatch hpair hname hr =>
      cases hpair with
      | tuple hpair =>
        cases hpair with
        | cons haw hrest =>
          cases hrest with
          | cons hfw hnil =>
            refine (heval (.term henv hs.1 hf hfw)).bind fun u Ω₁ hle₁ hu => ?_
            refine (Yields.suspend (.term (henv.mono hle₁) hs.2 ha haw)).bind fun c Ω₂ hle₂ hc => ?_
            cases hu with
            | neutral hn =>
              split
              · cases hn
              · exact .ret (.neutral rfl)
            | closure hclosure =>
              exact applyClosure_agrees heval hforce (hclosure.mono hle₂) hc hname hr
  | @cond _ _ _ c _ a _ b _ thenName elseName _ hc ha hthen hb helse =>
    simp only [Staged.Term.isScoped, Bool.and_eq_true] at hs
    cases hw with
    | @branch _ _ _ _ _ _ verdict _ _ hcw harg hr =>
      have hlen : ρ.length = S.length := by
        rw [henv.flatLength, Bindings.names, List.length_map]
        rfl
      cases Bindings.evaluates_argument harg hlen
      have hbind := Bindings.binder_bind? hlen
      refine (heval (.term henv hs.1.1 hc hcw)).bind fun u Ω₁ hle₁ hu => ?_
      cases hu with
      | neutral hn =>
        split
        · next hu => rw [Value.bool?_some hu] at hn; cases hn
        · next hu => rw [Value.bool?_some hu] at hn; cases hn
        · exact Yields.alloc.bind fun _ _ _ _ =>
            Yields.alloc.bind fun _ _ _ _ => .ret (.neutral rfl)
      | literal =>
        cases verdict with
        | true =>
          obtain ⟨ws, hws, hrun⟩ := hr.of_function hthen
          rw [hbind] at hws
          cases hws
          exact heval (.term (henv.mono hle₁) hs.1.2 ha hrun)
        | false =>
          obtain ⟨ws, hws, hrun⟩ := hr.of_function helse
          rw [hbind] at hws
          cases hws
          exact heval (.term (henv.mono hle₁) hs.2 hb hrun)
  | letIn _ hi hp hb =>
    simp only [Staged.Term.isScoped, Bool.and_eq_true] at hs
    cases hw with
    | letIn hiw hws hbw =>
      refine (Yields.suspend (.term henv hs.1 hi hiw)).bind fun c Ω₁ hle₁ hc => ?_
      refine enterBody_agrees heval hforce hc hp hws fun Ω₂ cs hle₂ hcs => ?_
      refine .term ?_ hs.2 hb hbw
      rw [hp.names_eq]
      refine (henv.mono (World.le_trans hle₁ hle₂)).bindAll hcs ?_
      rw [hp.length_bind? hws, Staged.Pattern.binderNames, List.length_map]
  | @var _ _ _ _ v _ _ hv =>
    cases hw with
    | var hw =>
      obtain ⟨-, hlevel⟩ := Bindings.resolve_ok hv
      obtain ⟨w', hw', level, c, hlevel', hc, hshows⟩ := henv.var hlevel
      rw [hw] at hw'
      cases hw'
      simp only [Staged.Term.isScoped, beq_iff_eq, hlevel', Option.some.injEq] at hs
      subst hs
      simp only [evaluateWith, hc]
      exact hforce hshows
  | call _ hname ha =>
    rw [Staged.Term.isScoped] at hs
    cases hw with
    | call _ haw hr => exact call_agrees h heval hforce (.term henv hs ha haw) hr
    | dispatch haw _ _ =>
      simp only [evaluateWith, Eval.call, h.definitions, h.noDispatcher]
      exact (heval (.term henv hs ha haw)).bind fun u Ω₁ _ _ => .ret (.neutral rfl)
  | test _ he hp =>
    rw [Staged.Term.isScoped] at hs
    cases hw with
    | test hew hb =>
      refine (heval (.term henv hs he hew)).bind fun u Ω₁ _ hu => ?_
      refine (decideMatch_agrees hforce hu hp hb).bind fun verdict Ω₂ _ hverdict => ?_
      split
      · next v => rw [hverdict v rfl]; exact .ret .literal
      · exact .ret (.neutral rfl)
  | command => exact .ret (.neutral rfl)

/-- Whatever stands for a flat value is evaluated to a head form that shows it. -/
theorem evaluate_agrees (h : Agreement cx table P) : ∀ fuel, Faithful table P (evaluate cx fuel)
  | 0 => fun _ _ _ _ _ => Yields.outOfFuel
  | fuel + 1 => by
    have heval := evaluate_agrees h fuel
    intro Ω env t w ht
    cases ht with
    | term henv hs ht hw => exact evaluateWith_term h heval heval.force henv hs ht hw
    | data hd => exact evaluateWith_data hd

end

end Stagecraft.Eval
