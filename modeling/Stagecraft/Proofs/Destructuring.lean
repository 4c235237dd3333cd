import Stagecraft.Proofs.StoreGrowth

/-!
# What a binder binds

Every variable of a pattern has a route: the turns that a value has to be followed along to come to
the part that the variable names (`routes`). A binder that goes through appends one cell for each
variable, in the order of `Pattern.binders`, and the cell of a variable is the one at the end of its
route, or a projection where the route meets a stuck value (`BoundTo`). `destructure_follows_routes`
is the main statement. It puts the cells of a binder next to those of `EvalM.bindNeutral`, which
binds the variables of the same pattern to themselves: both make every level mean the same variable.
-/

namespace Stagecraft.Eval

open Staged (Pattern)

/-! ## Routes -/

/-- A way from a value to one of its parts. -/
inductive Step where
  | element (i : Nat)
  | field (key : String)
deriving DecidableEq, Repr

/-- A step, with the sub-pattern that takes the value apart there. -/
structure Turn where
  pattern : Pattern
  step : Step

/-- The turns from a value to the part that a variable of a pattern names. -/
abbrev Route := List Turn × Var

/-- A route that starts one turn further out. -/
def Route.through (turn : Turn) (r : Route) : Route := (turn :: r.1, r.2)

mutual

/-- The routes to the variables of a pattern, from left to right. -/
def routes : Pattern → List Route
  | .int .. | .range .. | .wildcard _ | .hole _ => []
  | .var _ v => [([], v)]
  | .list info ps => elementRoutes (.list info ps) 0 ps
  | .tuple info ps => elementRoutes (.tuple info ps) 0 ps
  | .compound info fields => fieldRoutes (.compound info fields) fields

/-- The routes through the elements from position `i` on. -/
def elementRoutes (q : Pattern) (i : Nat) : List Pattern → List Route
  | [] => []
  | p :: ps => (routes p).map (Route.through ⟨q, .element i⟩) ++ elementRoutes q (i + 1) ps

/-- The routes through fields. -/
def fieldRoutes (q : Pattern) : List (String × Pattern) → List Route
  | [] => []
  | (key, p) :: rest => (routes p).map (Route.through ⟨q, .field key⟩) ++ fieldRoutes q rest

end

theorem map_snd_through (turn : Turn) (rs : List Route) :
    (rs.map (Route.through turn)).map Prod.snd = rs.map Prod.snd := by
  rw [List.map_map]
  rfl

mutual

/-- The variables at the ends of the routes are the binders of the pattern. -/
theorem routes_binders : ∀ p : Pattern, (routes p).map Prod.snd = p.binders
  | .int .. | .range .. | .wildcard _ | .hole _ | .var .. => rfl
  | .list _ ps | .tuple _ ps => elementRoutes_binders _ 0 ps
  | .compound _ fields => fieldRoutes_binders _ fields

theorem elementRoutes_binders (q : Pattern) : ∀ (i : Nat) (ps : List Pattern),
    (elementRoutes q i ps).map Prod.snd = Pattern.bindersOfAll ps
  | _, [] => rfl
  | i, p :: ps => by
    rw [elementRoutes, List.map_append, map_snd_through, routes_binders p,
      elementRoutes_binders q (i + 1) ps, Pattern.bindersOfAll]

theorem fieldRoutes_binders (q : Pattern) : ∀ fields : List (String × Pattern),
    (fieldRoutes q fields).map Prod.snd = Pattern.bindersOfFields fields
  | [] => rfl
  | (_, p) :: rest => by
    rw [fieldRoutes, List.map_append, map_snd_through, routes_binders p,
      fieldRoutes_binders q rest, Pattern.bindersOfFields]

end

/-- Routes that all begin at one sub-pattern. -/
def BeginAt (q : Pattern) (rs : List Route) : Prop :=
  ∀ r ∈ rs, ∃ step rest, r.1 = ⟨q, step⟩ :: rest

theorem BeginAt.append {q : Pattern} {rs rs' : List Route} (h : BeginAt q rs)
    (h' : BeginAt q rs') : BeginAt q (rs ++ rs') := by
  intro r hr
  rcases List.mem_append.1 hr with hr | hr
  · exact h r hr
  · exact h' r hr

theorem BeginAt.through (q : Pattern) (step : Step) (rs : List Route) :
    BeginAt q (rs.map (Route.through ⟨q, step⟩)) := by
  intro r hr
  obtain ⟨r', -, rfl⟩ := List.mem_map.1 hr
  exact ⟨step, r'.1, rfl⟩

theorem elementRoutes_beginAt (q : Pattern) : ∀ (i : Nat) (ps : List Pattern),
    BeginAt q (elementRoutes q i ps)
  | _, [] => nofun
  | i, p :: ps => (BeginAt.through q _ (routes p)).append (elementRoutes_beginAt q (i + 1) ps)

theorem fieldRoutes_beginAt (q : Pattern) : ∀ fields : List (String × Pattern),
    BeginAt q (fieldRoutes q fields)
  | [] => nofun
  | (_, p) :: rest => (BeginAt.through q _ (routes p)).append (fieldRoutes_beginAt q rest)

/-! ## The cell of a variable -/

/-- The cell of a part of a value. -/
def Value.part? : Value → Step → Option CellId
  | .tuple cells, .element i | .list cells, .element i => cells[i]?
  | .compound entries, .field key => Keyed.find? key entries
  | _, _ => none

/-- What a variable is bound to that is found by a route from a cell: the cell at the end of the
route, or, where a value on the way is stuck, its projection out of that value. -/
inductive BoundTo (s : Store) : CellId → List Turn → Var → CellId → Prop
  | arrived {c v} : BoundTo s c [] v c
  | stuck {c w q step rest v d} : s.read c = .forced w → w.isNeutral = true →
      s.read d = .forced (.project q w v) → BoundTo s c (⟨q, step⟩ :: rest) v d
  | onward {c w q step e rest v d} : s.read c = .forced w → w.isNeutral = false →
      w.part? step = some e → BoundTo s e rest v d → BoundTo s c (⟨q, step⟩ :: rest) v d

theorem BoundTo.mono {s s' : Store} (hs : s.Grows s') {c d : CellId} {turns : List Turn} {v : Var}
    (h : BoundTo s c turns v d) : BoundTo s' c turns v d := by
  induction h with
  | arrived => exact .arrived
  | stuck hc hw hd => exact .stuck (hs.forced hc) hw (hs.forced hd)
  | onward hc hw he _ ih => exact .onward (hs.forced hc) hw he ih

/-- The cells of variables that are found by routes from one cell. -/
def AllBoundTo (s : Store) (c : CellId) (rs : List Route) (ds : List CellId) : Prop :=
  List.Forall₂ (fun r d => BoundTo s c r.1 r.2 d) rs ds

namespace AllBoundTo

variable {s s' : Store} {c : CellId} {rs rs' : List Route} {ds ds' : List CellId}

theorem mono (hs : s.Grows s') (h : AllBoundTo s c rs ds) : AllBoundTo s' c rs ds :=
  h.imp fun _ _ hr => hr.mono hs

theorem append (h : AllBoundTo s c rs ds) (h' : AllBoundTo s c rs' ds') :
    AllBoundTo s c (rs ++ rs') (ds ++ ds') :=
  List.rel_append h h'

/-- One turn further out, at a cell whose value is known. -/
theorem through {w : Value} {q : Pattern} {step : Step} {e : CellId} (hc : s.read c = .forced w)
    (hw : w.isNeutral = false) (he : w.part? step = some e) (h : AllBoundTo s e rs ds) :
    AllBoundTo s c (rs.map (Route.through ⟨q, step⟩)) ds :=
  List.forall₂_map_left_iff.2 (h.imp fun _ _ hr => .onward hc hw he hr)

/-- All projections out of one stuck value. -/
theorem projections {w : Value} {q : Pattern} (hq : BeginAt q rs) (hc : s.read c = .forced w)
    (hw : w.isNeutral = true)
    (h : List.Forall₂ (fun v d => s.read d = .forced (.project q w v)) (rs.map Prod.snd) ds) :
    AllBoundTo s c rs ds := by
  rw [List.forall₂_map_left_iff] at h
  induction h with
  | nil => exact .nil
  | @cons r d rs ds hd _ ih =>
    refine .cons ?_ (ih fun r' hr' => hq r' (List.mem_cons_of_mem _ hr'))
    obtain ⟨step, rest, hr⟩ := hq r List.mem_cons_self
    rw [hr]
    exact .stuck hc hw hd

end AllBoundTo

/-! ## Binders that go through -/

/-- A binder that goes through: it appended cells, and they are what the routes lead to. -/
def Collects (x : BindM Unit) (s : Store) (c : CellId) (rs : List Route) : Prop :=
  ∀ ⦃env env' s'⦄, x env s = ((.ok (), env'), s') →
    ∃ ds, env' = env.bindAll ds ∧ AllBoundTo s' c rs ds

namespace Collects

variable {s : Store} {c : CellId} {rs rs' : List Route}

theorem ret : Collects (pure ()) s c [] := by
  intro env env' s' h
  cases h
  exact ⟨[], env.bindAll_nil.symm, .nil⟩

theorem fail {e : Error} : Collects (BindM.ofEval (EvalM.fail e)) s c rs := fun _ _ _ h => nomatch h

theorem bind (c : CellId) (v : Var) : Collects (BindM.bind c) s c [([], v)] := by
  intro env env' s' h
  cases h
  exact ⟨[c], rfl, .cons .arrived .nil⟩

/-- One binder after another: the second one only lets the store grow. -/
theorem seq {x y : BindM Unit} (hx : Collects x s c rs) (hgrows : x.Grows) (hgrows' : y.Grows)
    (hy : ∀ s', s.Grows s' → Collects y s' c rs') :
    Collects (x >>= fun _ => y) s c (rs ++ rs') := by
  intro env env'' s'' h
  rw [BindM.run_bind] at h
  split at h
  · next env' s' hrun =>
    have hs := hgrows env s
    have hs' := hgrows' env' s'
    rw [hrun] at hs
    rw [h] at hs'
    obtain ⟨ds, rfl, hds⟩ := hx hrun
    obtain ⟨ds', rfl, hds'⟩ := hy s' hs h
    exact ⟨ds ++ ds', env.bindAll_bindAll ds ds', (hds.mono hs').append hds'⟩
  · cases h

/-- A look at the cell before its value is taken apart. -/
theorem look {eval : Evaluation} (heval : ∀ env t, Grows (eval env t)) {f : Value → BindM Unit}
    (hf : ∀ v s', s'.read c = .forced v → Collects (f v) s' c rs) :
    Collects (BindM.ofEval (force eval c) >>= f) s c rs := by
  intro env env' s'' h
  rw [BindM.run_ofEval_bind] at h
  split at h
  · next v s' hrun => exact hf v s' (read_after_force heval hrun) h
  · cases h

end Collects

theorem Env.bindAll_bind (env : Env) (c : CellId) (ds : List CellId) :
    (env.bind c).bindAll ds = env.bindAll (c :: ds) :=
  env.bindAll_bindAll [c] ds

/-- Every variable is bound to a cell of its own that holds its projection. -/
theorem bindProjections_run (q : Pattern) (w : Value) : ∀ (vs : List Var) (env : Env) (s : Store),
    ∃ ds s', bindProjections q w vs env s = ((.ok (), env.bindAll ds), s') ∧
      List.Forall₂ (fun v d => s'.read d = .forced (.project q w v)) vs ds
  | [], env, s => ⟨[], s, by rw [Env.bindAll_nil]; rfl, .nil⟩
  | v :: vs, env, s => by
    obtain ⟨ds, s', hrun, hds⟩ := bindProjections_run q w vs (env.bind s.cells.size)
      (s.alloc (.forced (.project q w v))).2
    have hgrown := BindM.Grows.projections q w vs (env.bind s.cells.size)
      (s.alloc (.forced (.project q w v))).2
    rw [hrun] at hgrown
    refine ⟨s.cells.size :: ds, s', ?_, .cons (hgrown.forced (Store.read_alloc_size ..)) hds⟩
    rw [← Env.bindAll_bind]
    exact hrun

/-- A stuck value: every variable of the sub-pattern is a projection out of it. -/
theorem Collects.stuck {q : Pattern} {w : Value} {s : Store} {c : CellId} {rs : List Route}
    (hq : BeginAt q rs) (hc : s.read c = .forced w) (hw : w.isNeutral = true) :
    Collects (bindProjections q w (rs.map Prod.snd)) s c rs := by
  intro env env' s' h
  obtain ⟨ds, s₁, hrun, hds⟩ := bindProjections_run q w (rs.map Prod.snd) env s
  have hgrown := BindM.Grows.projections q w (rs.map Prod.snd) env s
  rw [hrun] at h hgrown
  cases h
  exact ⟨ds, rfl, .projections hq (hgrown.forced hc) hw hds⟩

/-- What a tuple pattern and a list pattern do with a value. -/
theorem elements_collect {eval : Evaluation} {q : Pattern} {ps : List Pattern} {s : Store}
    {c : CellId} {w : Value} {e : Error} (hc : s.read c = .forced w)
    (hbinders : q.binders = Pattern.bindersOfAll ps)
    (hparts : ∀ cells, (∀ i, w.part? (.element i) = cells[i]?) → w.isNeutral = false →
      ps.length = cells.length →
        Collects (destructureAll (force eval) ps cells) s c (elementRoutes q 0 ps)) :
    Collects (if w.isNeutral then bindProjections q w q.binders
      else match w with
        | .tuple cells | .list cells =>
          if ps.length = cells.length then destructureAll (force eval) ps cells
          else BindM.ofEval (EvalM.fail e)
        | _ => BindM.ofEval (EvalM.fail e)) s c (elementRoutes q 0 ps) := by
  split
  · next hw =>
    rw [hbinders, ← elementRoutes_binders q 0 ps]
    exact .stuck (elementRoutes_beginAt q 0 ps) hc hw
  · next hw =>
    have hknown := Bool.not_eq_true _ ▸ hw
    split
    · split
      · next hlen => exact hparts _ (fun _ => rfl) hknown hlen
      · exact .fail
    · split
      · next hlen => exact hparts _ (fun _ => rfl) hknown hlen
      · exact .fail
    · exact .fail

section

variable {eval : Evaluation} (heval : ∀ env t, Grows (eval env t))

include heval

mutual

theorem destructure_collects : ∀ (p : Pattern) (c : CellId) (s : Store),
    Collects (destructure (force eval) p c) s c (routes p)
  | .hole _, _, _ => .fail
  | .var _ v, c, _ => .bind c v
  | .int .., _, _ | .range .., _, _ | .wildcard _, _, _ => .ret
  | .tuple info ps, c, s | .list info ps, c, s => by
    rw [destructure]
    split
    · next hnone =>
      have hroutes : routes _ = [] :=
        List.map_eq_nil_iff.1 ((routes_binders _).trans (List.isEmpty_iff.1 hnone))
      rw [hroutes]
      exact .ret
    · refine .look heval fun w s' hc => elements_collect hc rfl fun cells hpart hw hlen => ?_
      exact destructureAll_collects _ hw 0 ps cells s' hlen hc fun i => by rw [Nat.zero_add, hpart]
  | .compound info fields, c, s => by
    rw [destructure]
    split
    · next hnone =>
      have hroutes : routes (.compound info fields) = [] :=
        List.map_eq_nil_iff.1 ((routes_binders _).trans (List.isEmpty_iff.1 hnone))
      rw [hroutes]
      exact .ret
    · refine .look heval fun w s' hc => ?_
      split
      · next hw =>
        rw [← routes_binders]
        exact .stuck (fieldRoutes_beginAt _ fields) hc hw
      · next hw =>
        split
        · exact destructureFields_collects _ (Bool.not_eq_true _ ▸ hw) _ fields s' hc fun _ => rfl
        · exact .fail

/-- The elements from position `i` on of a cell whose value is known. -/
theorem destructureAll_collects {c : CellId} {w : Value} (q : Pattern) (hw : w.isNeutral = false) :
    ∀ (i : Nat) (ps : List Pattern) (cells : List CellId) (s : Store), ps.length = cells.length →
      s.read c = .forced w → (∀ j, w.part? (.element (i + j)) = cells[j]?) →
        Collects (destructureAll (force eval) ps cells) s c (elementRoutes q i ps)
  | _, [], _, _, _, _, _ => .ret
  | _, _ :: _, [], _, hlen, _, _ => nomatch hlen
  | i, p :: ps, e :: cells, s, hlen, hc, hpart => by
    rw [destructureAll]
    refine Collects.seq (fun env env' s' h => ?_) (destructure_grows (.force heval) p e)
      (destructureAll_grows (fun p _ => destructure_grows (.force heval) p) cells) fun s' hs => ?_
    · have hgrown := destructure_grows (Grows.force heval) p e env s
      rw [h] at hgrown
      obtain ⟨ds, henv, hds⟩ := destructure_collects p e s h
      exact ⟨ds, henv, hds.through (hgrown.forced hc) hw (hpart 0)⟩
    · refine destructureAll_collects q hw (i + 1) ps cells s' (Nat.succ.inj hlen) (hs.forced hc) ?_
      intro j
      rw [Nat.add_right_comm, Nat.add_assoc, hpart (j + 1), List.getElem?_cons_succ]

theorem destructureFields_collects {c : CellId} {w : Value} (q : Pattern)
    (hw : w.isNeutral = false) (entries : List (String × CellId)) :
    ∀ (fields : List (String × Pattern)) (s : Store), s.read c = .forced w →
      (∀ key, w.part? (.field key) = Keyed.find? key entries) →
        Collects (destructureFields (force eval) w entries fields) s c (fieldRoutes q fields)
  | [], _, _, _ => .ret
  | (key, p) :: rest, s, hc, hpart => by
    rw [destructureFields]
    split
    · exact .fail
    · next e he =>
      refine Collects.seq (fun env env' s' h => ?_) (destructure_grows (.force heval) p e)
        (destructureFields_grows (fun f _ => destructure_grows (.force heval) f.2) w entries)
        fun s' hs => ?_
      · have hgrown := destructure_grows (Grows.force heval) p e env s
        rw [h] at hgrown
        obtain ⟨ds, henv, hds⟩ := destructure_collects p e s h
        exact ⟨ds, henv, hds.through (hgrown.forced hc) hw ((hpart key).trans he)⟩
      · exact destructureFields_collects q hw entries rest s' (hs.forced hc) hpart

end

end

/-! ## Levels -/

/-- Variables that are bound to themselves, each to a cell of its own. -/
theorem bindNeutral_run : ∀ (vs : List Var) (env : Env) (s : Store),
    ∃ ds s', EvalM.bindNeutral env vs s = (.ok (env.bindAll ds), s') ∧
      List.Forall₂ (fun v d => s'.read d = .forced (.var v)) vs ds ∧ s.Grows s'
  | [], env, s => ⟨[], s, by rw [Env.bindAll_nil]; rfl, .nil, .refl s⟩
  | v :: vs, env, s => by
    obtain ⟨ds, s', hrun, hds, hgrown⟩ := bindNeutral_run vs (env.bind s.cells.size)
      (s.alloc (.forced (.var v))).2
    refine ⟨s.cells.size :: ds, s', ?_, .cons (hgrown.forced (Store.read_alloc_size ..)) hds,
      (Store.Grows.alloc _ s).trans hgrown⟩
    rw [← Env.bindAll_bind]
    exact hrun

/-- A binder that goes through appends one cell for each variable of the pattern, in the order of
the binders, and leaves the bindings before as they are. The cell of a variable is the part of the
value at the end of its route, or its projection out of the first stuck value on the way. Binding
the variables to themselves appends as many cells, in the same order. -/
theorem destructure_follows_routes (cx : Context) (fuel : Nat) (p : Pattern) (c : CellId)
    (env env' : Env) (s s' : Store)
    (h : (destructure (force (evaluate cx fuel)) p c).run env s = ((.ok (), env'), s')) :
    (routes p).map Prod.snd = p.binders ∧
      ∃ ds, env' = env.bindAll ds ∧ ds.length = p.binders.length ∧
        AllBoundTo s' c (routes p) ds ∧
          ∀ t, ∃ ds' t', EvalM.bindNeutral env p.binders t = (.ok (env.bindAll ds'), t') ∧
            ds'.length = ds.length ∧
              List.Forall₂ (fun v d => t'.read d = .forced (.var v)) p.binders ds' := by
  obtain ⟨ds, henv, hds⟩ := destructure_collects (evaluate_grows cx fuel) p c s h
  have hlength : ds.length = p.binders.length := by
    rw [← routes_binders, List.length_map]
    exact hds.length_eq.symm
  refine ⟨routes_binders p, ds, henv, hlength, hds, fun t => ?_⟩
  obtain ⟨ds', t', hrun, hds', -⟩ := bindNeutral_run p.binders env t
  exact ⟨ds', t', hrun, hds'.length_eq.symm.trans hlength.symm, hds'⟩

theorem Env.bindAll_inj {env : Env} {cs ds : List CellId} (h : env.bindAll cs = env.bindAll ds) :
    cs = ds := by
  simpa [bindAll] using h

/-- A tuple with a stuck tuple, a list and a cell that is not looked at. -/
theorem destructure_follows_routes_nested :
    let x : Var := ⟨"x", 7⟩
    let var (name : String) : Pattern := .var (Pattern.plain .int) ⟨name, 0⟩
    let pair : Pattern := .tuple (Pattern.plain (.tuple [.int, .int])) [var "a", var "b"]
    let list : Pattern := .list (Pattern.plain (.list .int)) [.int (Pattern.plain .int) 3, var "c"]
    let p : Pattern :=
      .tuple (Pattern.plain (.tuple [pair.ty, list.ty, .int])) [pair, list, var "d"]
    let work : Cell := .suspended ⟨.empty, .var .int x⟩
    let s : Store := ⟨#[.forced (.tuple [1, 2, 3]), work, .forced (.list [3, 1]), work]⟩
    let s' : Store := ⟨#[.forced (.tuple [1, 2, 3]), .forced (.var x), .forced (.list [3, 1]), work,
      .forced (.project pair (.var x) ⟨"a", 0⟩), .forced (.project pair (.var x) ⟨"b", 0⟩)]⟩
    let env : Env := Env.empty.bind 2
    (destructure (force (evaluate ⟨⟨[], by decide⟩, [], 0⟩ 1)) p 0).run env s =
        ((.ok (), env.bindAll [4, 5, 1, 3]), s') ∧
      AllBoundTo s' 0 (routes p) [4, 5, 1, 3] := by
  intro x var pair list p work s s' env
  refine ⟨rfl, ?_⟩
  obtain ⟨-, ds, henv, -, hds, -⟩ := destructure_follows_routes ⟨⟨[], by decide⟩, [], 0⟩ 1 p 0 env
    (env.bindAll [4, 5, 1, 3]) s s' rfl
  rw [Env.bindAll_inj henv]
  exact hds

end Stagecraft.Eval
