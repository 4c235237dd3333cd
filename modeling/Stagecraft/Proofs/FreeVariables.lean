import Stagecraft.Proofs.AliasExpansion
import Stagecraft.Proofs.ClosureTags
import Stagecraft.Proofs.NodeTypes

/-!
# Free variables

What a local function captures is decided before its body is converted, by a list of names that a
separate traversal collects. `Term.occurrences` is what that list is about, the occurrences of
variables with the names bound around each. `freeNames_spec` says that the list has the names that
occur free, in the order in which they first do, and that conversion looks up exactly these: it
fails for want of a variable only if one of them is not in scope, and goes through only if all are.

Sets of names are compared through the lists they are made of, `NameSet.ofList`. Conversion is
described by `LooksUp`, which has one rule for each way to put computations together.
-/

namespace Stagecraft

/-! ## Names by first use -/

namespace NameSet

theorem ext_names {s t : NameSet} (h : s.names = t.names) : s = t := by
  cases s
  cases t
  cases h
  rfl

theorem add_of_mem {s : NameSet} {name : String} (h : name ∈ s.names) : s.add name = s := dif_pos h

theorem names_add_of_notMem {s : NameSet} {name : String} (h : name ∉ s.names) :
    (s.add name).names = s.names ++ [name] := by
  rw [add, dif_neg h]

theorem ofList_concat (names : List String) (name : String) :
    ofList (names ++ [name]) = (ofList names).add name := by
  rw [ofList, List.foldl_append]
  rfl

/-- The names of a list, each where it comes first. -/
theorem names_ofList (names : List String) : (ofList names).names = names.eraseDups := by
  induction names using List.reverseRecOn with
  | nil => rfl
  | append_singleton names name ih =>
    rw [ofList_concat, List.eraseDups_append, ← ih]
    by_cases h : name ∈ names
    · have hnone : [name].removeAll names = [] := by simp [List.removeAll, h]
      rw [add_of_mem (mem_names_ofList.2 h), hnone, List.eraseDups_nil, List.append_nil]
    · have hone : [name].removeAll names = [name] := by simp [List.removeAll, h]
      rw [names_add_of_notMem (mem_names_ofList.not.2 h), hone]
      rfl

/-- Adding names one by one is adding each where it comes first. -/
theorem foldl_add_ofList (s : NameSet) (names : List String) :
    (ofList names).names.foldl add s = names.foldl add s := by
  induction names using List.reverseRecOn with
  | nil => rfl
  | append_singleton names name ih =>
    rw [ofList_concat, List.foldl_append, List.foldl_cons, List.foldl_nil]
    by_cases h : name ∈ names
    · rw [add_of_mem (mem_names_ofList.2 h), ih, add_of_mem]
      exact (mem_names_foldl_add names s).2 (.inr h)
    · rw [names_add_of_notMem (mem_names_ofList.not.2 h), List.foldl_append, ih]
      rfl

theorem ofList_append (names more : List String) :
    ofList (names ++ more) = ofList names ++ ofList more := by
  change _ = (ofList more).names.foldl add (ofList names)
  rw [foldl_add_ofList, ofList, List.foldl_append]
  rfl

theorem ofList_names (s : NameSet) : ofList s.names = s := by
  refine ext_names ?_
  obtain ⟨names, hnodup⟩ := s
  induction names using List.reverseRecOn with
  | nil => rfl
  | append_singleton names name ih =>
    obtain ⟨hnames, -, hdisjoint⟩ := List.nodup_append.1 hnodup
    have hnew : name ∉ names := fun h => hdisjoint name h name List.mem_cons_self rfl
    rw [ofList_concat, names_add_of_notMem (mem_names_ofList.not.2 hnew), ih hnames]

/-- Names are taken away from a set by taking all their occurrences away from a list. -/
theorem ofList_filter (names hidden : List String) :
    ofList (names.filter fun n => n ∉ hidden) = ofList names \ ofList hidden := by
  refine ext_names ?_
  induction names using List.reverseRecOn with
  | nil => rfl
  | append_singleton names name ih =>
    change _ = (ofList (names ++ [name])).names.filter fun n => !(ofList hidden).contains n
    change _ = (ofList names).names.filter (fun n => !(ofList hidden).contains n) at ih
    have hcontains : (ofList hidden).contains name = decide (name ∈ hidden) := by
      rw [contains, List.contains_eq_mem, decide_eq_decide, mem_names_ofList]
    rw [List.filter_append, ofList_concat]
    by_cases hhidden : name ∈ hidden
    · rw [List.filter_cons_of_neg (by simpa using hhidden), List.filter_nil, List.append_nil, ih]
      by_cases h : name ∈ names
      · rw [add_of_mem (mem_names_ofList.2 h)]
      · rw [names_add_of_notMem (mem_names_ofList.not.2 h), List.filter_append,
          List.filter_cons_of_neg (by simpa [hcontains] using hhidden), List.filter_nil,
          List.append_nil]
    · rw [List.filter_cons_of_pos (by simpa using hhidden), List.filter_nil, ofList_concat]
      by_cases h : name ∈ names
      · rw [add_of_mem (mem_names_ofList.2 h), add_of_mem, ih]
        exact mem_names_ofList.2 (List.mem_filter.2 ⟨h, by simpa using hhidden⟩)
      · rw [names_add_of_notMem (mem_names_ofList.not.2 h), names_add_of_notMem, ih,
          List.filter_append, List.filter_cons_of_pos (by simpa [hcontains] using hhidden),
          List.filter_nil]
        exact fun hmem => h (List.mem_filter.1 (mem_names_ofList.1 hmem)).1

theorem union_sdiff (s t u : NameSet) : (s ++ t) \ u = (s \ u) ++ (t \ u) := by
  rw [← ofList_names s, ← ofList_names t, ← ofList_names u, ← ofList_append, ← ofList_filter,
    ← ofList_filter, ← ofList_filter, List.filter_append, ofList_append]

theorem sdiff_sdiff (s : NameSet) (names more : List String) :
    (s \ ofList names) \ ofList more = s \ ofList (names ++ more) := by
  rw [← ofList_names s, ← ofList_filter, ← ofList_filter, ← ofList_filter, List.filter_filter]
  congr 2
  funext n
  simp [Bool.and_comm]

theorem sdiff_nil (s : NameSet) : s \ ofList [] = s := by
  rw [← ofList_names s, ← ofList_filter]
  simp

theorem union_assoc (s t u : NameSet) : s ++ t ++ u = s ++ (t ++ u) := by
  rw [← ofList_names s, ← ofList_names t, ← ofList_names u, ← ofList_append, ← ofList_append,
    ← ofList_append, ← ofList_append, List.append_assoc]

end NameSet

/-! ## Occurrences -/

namespace Staged.Term

/-- An occurrence of a variable and the names that binders around it bind. -/
structure Occurrence where
  name : String
  bound : List String
deriving DecidableEq

/-- An occurrence is free if it is under no binder of its name. -/
def Occurrence.isFree (o : Occurrence) : Bool := o.name ∉ o.bound

mutual

/-- The occurrences of variables in a term, from left to right, where the names `bound` are bound
around it. A binder binds in its body alone, and a pattern test binds nothing. -/
def occurrences (bound : List String) : Term → List Occurrence
  | .literal .. | .command .. | .hole _ => []
  | .array _ _ es | .list _ es | .tuple _ es => occurrencesOfAll bound es
  | .compound _ fields => occurrencesOfFields bound fields
  | .ref _ e | .quote _ e | .splice _ e | .call _ _ e | .test _ e _ => e.occurrences bound
  | .lambda _ p b => b.occurrences (p.binders.map (·.name) ++ bound)
  | .apply _ f a => f.occurrences bound ++ a.occurrences bound
  | .cond _ c a b => c.occurrences bound ++ a.occurrences bound ++ b.occurrences bound
  | .letIn _ p i b => i.occurrences bound ++ b.occurrences (p.binders.map (·.name) ++ bound)
  | .var _ v => [⟨v.name, bound⟩]

def occurrencesOfAll (bound : List String) : List Term → List Occurrence
  | [] => []
  | t :: ts => t.occurrences bound ++ occurrencesOfAll bound ts

def occurrencesOfFields (bound : List String) : List (String × Term) → List Occurrence
  | [] => []
  | (_, t) :: rest => t.occurrences bound ++ occurrencesOfFields bound rest

end

/-- The names of the free occurrences among some, in order. -/
def freeAmong (os : List Occurrence) : List String := (os.filter Occurrence.isFree).map (·.name)

theorem freeAmong_append (os os' : List Occurrence) :
    freeAmong (os ++ os') = freeAmong os ++ freeAmong os' := by
  rw [freeAmong, List.filter_append, List.map_append]
  rfl

theorem ofList_freeAmong_append (os os' : List Occurrence) :
    NameSet.ofList (freeAmong (os ++ os')) =
      NameSet.ofList (freeAmong os) ++ NameSet.ofList (freeAmong os') := by
  rw [freeAmong_append, NameSet.ofList_append]

theorem empty_union (s : NameSet) : NameSet.empty ++ s = s := s.ofList_names

mutual

/-- The free names of a term are those of its free occurrences, whatever is bound around it. -/
theorem ofList_occurrences : ∀ (t : Term) (bound : List String),
    NameSet.ofList (freeAmong (t.occurrences bound)) = t.freeNames \ NameSet.ofList bound
  | .literal .., bound | .command .., bound | .hole _, bound => rfl
  | .array _ _ es, bound | .list _ es, bound | .tuple _ es, bound => by
    rw [occurrences, freeNames, ← ofList_occurrencesOfAll es .empty bound]
    exact (empty_union _).symm
  | .compound _ fields, bound => by
    rw [occurrences, freeNames, ← ofList_occurrencesOfFields fields .empty bound]
    exact (empty_union _).symm
  | .ref _ e, bound | .quote _ e, bound | .splice _ e, bound | .call _ _ e, bound
  | .test _ e _, bound => ofList_occurrences e bound
  | .lambda _ p b, bound => by
    rw [occurrences, freeNames, ofList_occurrences b, ← NameSet.sdiff_sdiff]
    rfl
  | .apply _ f a, bound => by
    rw [occurrences, freeNames, ofList_freeAmong_append, ofList_occurrences f,
      ofList_occurrences a, NameSet.union_sdiff]
  | .cond _ c a b, bound => by
    rw [occurrences, freeNames, ofList_freeAmong_append, ofList_freeAmong_append,
      ofList_occurrences c, ofList_occurrences a, ofList_occurrences b, NameSet.union_sdiff,
      NameSet.union_sdiff]
  | .letIn _ p i b, bound => by
    rw [occurrences, freeNames, ofList_freeAmong_append, ofList_occurrences i,
      ofList_occurrences b, NameSet.union_sdiff, ← NameSet.sdiff_sdiff]
    rfl
  | .var _ v, bound => by
    have hfree : freeAmong [⟨v.name, bound⟩] = [v.name].filter fun n => n ∉ bound := by
      by_cases h : v.name ∈ bound <;> simp [freeAmong, Occurrence.isFree, h]
    rw [occurrences, freeNames, hfree, NameSet.ofList_filter]
    rfl

theorem ofList_occurrencesOfAll : ∀ (ts : List Term) (seen : NameSet) (bound : List String),
    (seen \ NameSet.ofList bound) ++ NameSet.ofList (freeAmong (occurrencesOfAll bound ts)) =
      freeNamesOfAll seen ts \ NameSet.ofList bound
  | [], seen, bound => rfl
  | t :: ts, seen, bound => by
    rw [occurrencesOfAll, freeNamesOfAll, ← ofList_occurrencesOfAll ts, ofList_freeAmong_append,
      ofList_occurrences t, ← NameSet.union_assoc, NameSet.union_sdiff]

theorem ofList_occurrencesOfFields : ∀ (fields : List (String × Term)) (seen : NameSet)
    (bound : List String),
    (seen \ NameSet.ofList bound) ++ NameSet.ofList (freeAmong (occurrencesOfFields bound fields)) =
      freeNamesOfFields seen fields \ NameSet.ofList bound
  | [], seen, bound => rfl
  | (_, t) :: rest, seen, bound => by
    rw [occurrencesOfFields, freeNamesOfFields, ← ofList_occurrencesOfFields rest,
      ofList_freeAmong_append, ofList_occurrences t, ← NameSet.union_assoc, NameSet.union_sdiff]

end

/-- The free names of a term, each where it first occurs free. -/
theorem names_freeNames (t : Term) :
    t.freeNames.names = (freeAmong (t.occurrences [])).eraseDups := by
  rw [← NameSet.names_ofList, ofList_occurrences, NameSet.sdiff_nil]

theorem mem_freeAmong {t : Term} {bound : List String} {name : String} :
    name ∈ freeAmong (t.occurrences bound) ↔ name ∈ t.freeNames.names ∧ name ∉ bound := by
  rw [← NameSet.mem_names_ofList, ofList_occurrences]
  exact NameSet.mem_names_diff.trans (and_congr_right' (not_congr NameSet.mem_names_ofList))

theorem mem_freeNames_lambda {ty : Ty} {p : Pattern} {b : Term} {name : String} :
    name ∈ (Term.lambda ty p b).freeNames.names ↔
      name ∈ b.freeNames.names ∧ name ∉ p.binders.map (·.name) := by
  change name ∈ (b.freeNames.diff p.names).names ↔ _
  rw [NameSet.mem_names_diff, Pattern.names, NameSet.mem_names_ofList]

end Staged.Term

namespace Flat

open Staged (Table)

/-! ## Failures of lookup -/

/-- Not a failure to look up a variable. -/
def Error.IsOther (e : Error) : Prop := ∀ name, e ≠ .unresolvedVariable name

/-- An answer that no variable is looked up for. -/
def LooksUpNone {α : Type} (x : Except Error α) : Prop := ∀ e, x = .error e → e.IsOther

namespace LooksUpNone

variable {α β : Type}

theorem ok (a : α) : LooksUpNone (.ok a) := fun _ h => nomatch h

theorem error {e : Error} (h : e.IsOther) : LooksUpNone (.error e : Except Error α) := by
  intro e' he
  cases he
  exact h

theorem bind {x : Except Error α} {f : α → Except Error β} (hx : LooksUpNone x)
    (hf : ∀ a, LooksUpNone (f a)) : LooksUpNone (x >>= f) := by
  cases x with
  | error e => exact error (hx e rfl)
  | ok a => exact hf a

end LooksUpNone

theorem looksUpNone_ty (table : Table) (t : Staged.Ty) : LooksUpNone (Ty.ofStaged table t) := by
  intro e he name
  rcases Ty.ofStaged_cases table t with ⟨-, herror⟩ | ⟨a, herror, -⟩
  · cases herror e he <;> simp
  · rw [herror] at he
    cases he
    simp

theorem looksUpNone_marks (marks : List Staged.Mark) : LooksUpNone (Mark.ofStagedAll marks) := by
  induction marks with
  | nil => exact .ok _
  | cons a marks ih =>
    cases a with
    | exported => exact ih
    | tick | load | noDrop | builtin => exact ih.bind fun _ => .ok _
    | inlined | static => exact .error fun _ => by simp

theorem looksUpNone_checkClause (table : Table) (expected : List Target.StackKind)
    (clause : Staged.Term) : LooksUpNone (checkClause table expected clause) := by
  refine (looksUpNone_ty table clause.ty).bind fun τ => ?_
  change LooksUpNone (if τ.erase = expected then .ok () else .error (.branchShapeMismatch _ _))
  split
  · exact .ok _
  · exact .error fun _ => by simp

mutual

theorem looksUpNone_pattern (table : Table) : ∀ (p : Staged.Pattern) (S : Bindings),
    LooksUpNone (Pattern.ofStaged table S p)
  | .int info _, S | .range info _ _, S | .var info _, S | .wildcard info, S =>
    (looksUpNone_ty table info.ty).bind fun _ => (looksUpNone_marks info.marks).bind fun _ => .ok _
  | .list info ps, S | .tuple info ps, S =>
    (looksUpNone_ty table info.ty).bind fun _ => (looksUpNone_patterns table ps S).bind fun _ =>
      (looksUpNone_marks info.marks).bind fun _ => .ok _
  | .compound info fields, S =>
    (looksUpNone_ty table info.ty).bind fun _ => (looksUpNone_fields table fields S).bind fun _ =>
      (looksUpNone_marks info.marks).bind fun _ => .ok _
  | .hole info, S => (looksUpNone_ty table info.ty).bind fun _ => .error fun _ => by simp

theorem looksUpNone_patterns (table : Table) : ∀ (ps : List Staged.Pattern) (S : Bindings),
    LooksUpNone (Pattern.ofStagedAll table S ps)
  | [], _ => .ok _
  | p :: ps, S => (looksUpNone_pattern table p S).bind fun r =>
    (looksUpNone_patterns table ps r.2).bind fun _ => .ok _

theorem looksUpNone_fields (table : Table) : ∀ (fields : List (String × Staged.Pattern))
    (S : Bindings), LooksUpNone (Pattern.ofStagedFields table S fields)
  | [], _ => .ok _
  | (_, p) :: rest, S => (looksUpNone_pattern table p S).bind fun r =>
    (looksUpNone_fields table rest r.2).bind fun _ => .ok _

end

/-! ## Lookup in conversion -/

/-- A computation where the names `bound` are bound looks up the names `free`: it fails to look up
a variable only if that is one of `free` and not bound, and goes through only if all of `free` are
bound. -/
structure LooksUp (bound free : List String) {α : Type} (x : ConvertM α) : Prop where
  error : ∀ {p name}, x.run p = .error (.unresolvedVariable name) → name ∈ free ∧ name ∉ bound
  ok : ∀ {p r}, x.run p = .ok r → free ⊆ bound

namespace LooksUp

variable {bound free more : List String} {α β : Type}

theorem ret (a : α) : LooksUp bound [] (pure a : ConvertM α) where
  error h := nomatch h
  ok _ := List.nil_subset _

theorem throw {e : Error} (h : e.IsOther) : LooksUp bound free (throw e : ConvertM α) where
  error he := absurd (Except.error.inj he) (h _)
  ok h := nomatch h

theorem answer {x : Except Error α}
    (herror : ∀ {name}, x = .error (.unresolvedVariable name) → name ∈ free ∧ name ∉ bound)
    (hok : ∀ {a}, x = .ok a → free ⊆ bound) : LooksUp bound free (liftM x : ConvertM α) where
  error {p name} he := by
    cases x with
    | ok _ => cases he
    | error e =>
      cases he
      exact herror rfl
  ok {p r} h := by
    cases x with
    | ok a => exact hok rfl
    | error e => cases h

theorem lift {x : Except Error α} (h : LooksUpNone x) :
    LooksUp bound [] (liftM x : ConvertM α) :=
  answer (fun he => absurd rfl (h _ he _)) fun _ => List.nil_subset _

theorem bind {x : ConvertM α} {f : α → ConvertM β} (hx : LooksUp bound free x)
    (hf : ∀ a, LooksUp bound more (f a)) : LooksUp bound (free ++ more) (x >>= f) where
  error {p name} he := by
    rw [StateT.run_bind] at he
    cases hrun : x.run p with
    | error e =>
      rw [hrun] at he
      cases he
      exact ⟨List.mem_append_left _ (hx.error hrun).1, (hx.error hrun).2⟩
    | ok r =>
      rw [hrun] at he
      obtain ⟨hmem, hbound⟩ := (hf r.1).error he
      exact ⟨List.mem_append_right _ hmem, hbound⟩
  ok {p r} h := by
    rw [StateT.run_bind, Except.bind_ok] at h
    obtain ⟨a, ha, hb⟩ := h
    exact List.append_subset.2 ⟨hx.ok ha, (hf a.1).ok hb⟩

/-- Nothing is looked up at first. -/
theorem after {x : ConvertM α} {f : α → ConvertM β} (hx : LooksUp bound [] x)
    (hf : ∀ a, LooksUp bound free (f a)) : LooksUp bound free (x >>= f) := hx.bind hf

/-- Nothing more is looked up. -/
theorem before {x : ConvertM α} {f : α → ConvertM β} (hx : LooksUp bound free x)
    (hf : ∀ a, LooksUp bound [] (f a)) : LooksUp bound free (x >>= f) :=
  free.append_nil ▸ hx.bind hf

/-- What follows an answer depends on it. -/
theorem bindLift {x : Except Error α} {f : α → ConvertM β}
    (hx : LooksUp bound free (liftM x : ConvertM α))
    (hf : ∀ a, x = .ok a → LooksUp bound more (f a)) :
    LooksUp bound (free ++ more) (liftM x >>= f) := by
  cases x with
  | error e =>
    refine ⟨fun {p _} he => ?_, nofun⟩
    cases he
    obtain ⟨hmem, hbound⟩ := hx.error (p := p) rfl
    exact ⟨List.mem_append_left _ hmem, hbound⟩
  | ok a =>
    have hfree : free ⊆ bound := hx.ok (p := default) rfl
    refine ⟨fun he => ?_, fun h => List.append_subset.2 ⟨hfree, (hf a rfl).ok h⟩⟩
    exact ⟨List.mem_append_right _ ((hf a rfl).error he).1, ((hf a rfl).error he).2⟩

/-- Only which names are looked up matters. -/
theorem congr {x : ConvertM α} (h : LooksUp bound free x) (hmem : ∀ n, n ∈ free ↔ n ∈ more) :
    LooksUp bound more x where
  error he := ⟨(hmem _).1 (h.error he).1, (h.error he).2⟩
  ok hx := fun _ hn => h.ok hx ((hmem _).2 hn)

/-- Names that are bound inside are not looked up outside. -/
theorem inside {x : ConvertM α} {inner : List String} (h : LooksUp (bound ++ inner) free x)
    (hmem : ∀ n, n ∈ more ↔ n ∈ free ∧ n ∉ inner) : LooksUp bound more x where
  error he := by
    obtain ⟨hfree, hbound⟩ := h.error he
    rw [List.mem_append, not_or] at hbound
    exact ⟨(hmem _).2 ⟨hfree, hbound.2⟩, hbound.1⟩
  ok hx := by
    intro n hn
    obtain ⟨hfree, hinner⟩ := (hmem n).1 hn
    exact (List.mem_append.1 (h.ok hx hfree)).resolve_right hinner

/-- Where everything that is looked up is bound, nothing else can be missing. -/
theorem settled {x : ConvertM α} {inner : List String} (h : LooksUp inner free x)
    (hfree : free ⊆ inner) : LooksUp bound [] x where
  error he := absurd (hfree (h.error he).1) (h.error he).2
  ok _ := List.nil_subset _

end LooksUp

/-! ## The lookups of conversion -/

/-- A name is resolved if it is one in scope. -/
theorem Bindings.resolve_cases (S : Bindings) (name : String) :
    (name ∉ S.names ∧ S.resolve name = .error (.unresolvedVariable name)) ∨
      (name ∈ S.names ∧ ∃ r, S.resolve name = .ok r) := by
  rw [Bindings.names, Bindings.resolve]
  cases h : S.innermost? (·.name == name) with
  | none =>
    refine .inl ⟨fun hmem => ?_, rfl⟩
    obtain ⟨b, hb, hname⟩ := List.mem_map.1 hmem
    exact Bool.false_ne_true ((Scope.lastIndex?_eq_none.1 h b hb).symm.trans (beq_iff_eq.2 hname))
  | some level =>
    obtain ⟨b, hb, hname⟩ := Scope.lastIndex?_some h
    have hget : S.get? level = some b := hb
    refine .inr ⟨List.mem_map.2 ⟨b, List.mem_of_getElem? hb, beq_iff_eq.1 hname⟩, ?_⟩
    exact ⟨(⟨name, level⟩, b.ty), by simp only [hget]⟩

theorem looksUp_resolve (S : Bindings) (name : String) :
    LooksUp S.names [name] (liftM (S.resolve name) : ConvertM (Var × Ty)) := by
  rcases S.resolve_cases name with ⟨hname, h⟩ | ⟨hname, r, h⟩ <;> rw [h]
  · refine .answer (fun he => ?_) nofun
    cases he
    exact ⟨List.mem_cons_self, hname⟩
  · exact .answer nofun fun _ => List.cons_subset.2 ⟨hname, List.nil_subset _⟩

theorem looksUp_captures (S : Bindings) (names : List String) :
    LooksUp S.names names (liftM (capturesOf S names) : ConvertM (List Capture)) := by
  have hcaptures : (∀ n, capturesOf S names = .error (.unresolvedVariable n) →
      n ∈ names ∧ n ∉ S.names) ∧ ∀ cs, capturesOf S names = .ok cs → names ⊆ S.names := by
    induction names with
    | nil => exact ⟨fun _ he => (by cases he), fun _ _ => List.nil_subset _⟩
    | cons name rest ih =>
      rw [capturesOf]
      rcases S.resolve_cases name with ⟨hname, h⟩ | ⟨hname, r, h⟩ <;> rw [h]
      · refine ⟨fun n he => ?_, fun _ hcs => by cases hcs⟩
        cases he
        exact ⟨List.mem_cons_self, hname⟩
      · refine ⟨fun n he => ?_, fun cs hcs => ?_⟩
        · cases hrest : capturesOf S rest with
          | error e =>
            have hen : e = .unresolvedVariable n := by
              simpa [bind, Except.bind, hrest] using he
            obtain ⟨hmem, hbound⟩ := ih.1 n (hen ▸ hrest)
            exact ⟨List.mem_cons_of_mem _ hmem, hbound⟩
          | ok more => simp [bind, Except.bind, hrest, pure, Except.pure] at he
        · simp only [Except.bind_ok] at hcs
          obtain ⟨-, -, more, hmore, -⟩ := hcs
          exact List.cons_subset.2 ⟨hname, ih.2 more hmore⟩
  exact .answer (fun h => hcaptures.1 _ h) fun h => hcaptures.2 _ h

theorem looksUp_addClause {bound : List String} (site : Site) (S : Bindings) (result : Ty)
    (body : Term) (restore : Option Int32) :
    LooksUp bound [] (addClause site S result body restore) :=
  ⟨nofun, fun _ => List.nil_subset _⟩

theorem looksUp_addClosure {bound : List String} (site : Site) (binder : Pattern) (result : Ty)
    (body : Term) : LooksUp bound [] (addClosure site binder result body) :=
  ⟨nofun, fun _ => List.nil_subset _⟩

/-- The free names of the body of a local function are bound by its binder or captured. -/
theorem freeNames_subset_inner {table : Table} {S inner : Bindings} {t : Staged.Ty}
    {p : Staged.Pattern} {b : Staged.Term} {captures : List Capture} {p' : Pattern}
    (hcaptures : capturesOf S (Staged.Term.lambda t p b).freeNames.names = .ok captures)
    (hp : Pattern.ofStaged table .empty p = .ok (p', inner)) :
    b.freeNames.names ⊆ Bindings.names (bindCaptures inner captures).2 := by
  intro name hname
  rw [bindCaptures_names, (mirrors_ofStaged hp).names_eq, names_capturesOf hcaptures]
  by_cases hbound : name ∈ p.binders.map (·.name)
  · exact List.mem_append_left _ (List.mem_append_right _ hbound)
  · exact List.mem_append_right _ (Staged.Term.mem_freeNames_lambda.2 ⟨hname, hbound⟩)

section

open Staged.Term (occurrences occurrencesOfAll occurrencesOfFields freeAmong freeAmong_append
  mem_freeAmong)

variable {table : Table} {site : Site}

mutual

/-- Conversion looks up the variables that occur free. -/
theorem looksUp_ofStaged : ∀ (t : Staged.Term) (S : Bindings),
    LooksUp S.names (freeAmong (t.occurrences [])) (Term.ofStaged table site S t)
  | .literal t l, S => by
    unfold Term.ofStaged
    exact (LooksUp.lift (looksUpNone_ty table t)).after fun τ => .ret _
  | .array t kind es, S => by
    unfold Term.ofStaged
    refine (LooksUp.lift (looksUpNone_ty table t)).after fun τ => ?_
    exact (looksUpAll_ofStaged es S).before fun es' => .ret _
  | .list t es, S => by
    unfold Term.ofStaged
    refine (LooksUp.lift (looksUpNone_ty table t)).after fun τ => ?_
    exact (looksUpAll_ofStaged es S).before fun es' => .ret _
  | .compound t fields, S => by
    unfold Term.ofStaged
    refine (LooksUp.lift (looksUpNone_ty table t)).after fun τ => ?_
    exact (looksUpFields_ofStaged fields S).before fun fields' => .ret _
  | .ref t e, S => by
    unfold Term.ofStaged
    refine (LooksUp.lift (looksUpNone_ty table t)).after fun τ => ?_
    exact (looksUp_ofStaged e S).before fun e' => .ret _
  | .tuple t es, S => by
    unfold Term.ofStaged
    refine (LooksUp.lift (looksUpNone_ty table t)).after fun τ => ?_
    exact (looksUpAll_ofStaged es S).before fun es' => .ret _
  | .lambda t p b, S => by
    unfold Term.ofStaged
    refine (LooksUp.lift (looksUpNone_ty table t)).after fun τ => ?_
    have hfree : ∀ n, n ∈ (Staged.Term.lambda t p b).freeNames.names ++ [] ↔
        n ∈ freeAmong ((Staged.Term.lambda t p b).occurrences []) := by
      intro n
      rw [List.append_nil, mem_freeAmong, and_iff_left (List.not_mem_nil)]
    refine LooksUp.congr ?_ hfree
    refine (looksUp_captures S _).bindLift fun captures hcaptures => ?_
    split
    · next σ τ =>
      refine (LooksUp.lift (looksUpNone_pattern table p .empty)).bindLift fun ⟨p', inner⟩ hp => ?_
      -- all that the body looks up is in its scope by now, the captures having been resolved
      have hbody :
          LooksUp S.names [] (Term.ofStaged table site (bindCaptures inner captures).2 b) :=
        (looksUp_ofStaged b _).settled fun n hn =>
          freeNames_subset_inner hcaptures hp (mem_freeAmong.1 hn).1
      exact hbody.after fun b' => (looksUp_addClosure site _ τ b').after fun tag => .ret _
    · exact .throw fun _ => by simp
  | .apply t f a, S => by
    unfold Term.ofStaged
    rw [occurrences, freeAmong_append]
    refine (LooksUp.lift (looksUpNone_ty table t)).after fun τ => ?_
    exact (looksUp_ofStaged f S).bind fun f' => (looksUp_ofStaged a S).before fun a' => .ret _
  | .cond t c a b, S => by
    unfold Term.ofStaged
    rw [occurrences, freeAmong_append, freeAmong_append, List.append_assoc]
    refine (LooksUp.lift (looksUpNone_ty table t)).after fun τ => ?_
    refine (LooksUp.lift (looksUpNone_checkClause table τ.erase a)).after fun _ => ?_
    refine (LooksUp.lift (looksUpNone_checkClause table τ.erase b)).after fun _ => ?_
    refine (looksUp_ofStaged c S).bind fun c' => (looksUp_ofStaged a S).bind fun a' => ?_
    refine (looksUp_addClause site S τ a' (some 1)).after fun thenName => ?_
    refine (looksUp_ofStaged b S).before fun b' => ?_
    exact (looksUp_addClause site S τ b' none).after fun elseName => .ret _
  | .letIn t p i b, S => by
    unfold Term.ofStaged
    rw [occurrences, freeAmong_append]
    refine (LooksUp.lift (looksUpNone_ty table t)).after fun τ => ?_
    refine (looksUp_ofStaged i S).bind fun i' => ?_
    refine (LooksUp.lift (looksUpNone_pattern table p S)).bindLift fun ⟨p', inner⟩ hp => ?_
    have hbody := looksUp_ofStaged b inner
    rw [(mirrors_ofStaged hp).names_eq] at hbody
    have hmem : ∀ n, n ∈ freeAmong (b.occurrences (p.binders.map (·.name) ++ [])) ↔
        n ∈ freeAmong (b.occurrences []) ∧ n ∉ p.binders.map (·.name) := by
      intro n
      rw [mem_freeAmong, mem_freeAmong, List.append_nil, and_iff_left List.not_mem_nil]
    exact (hbody.inside hmem).before fun b' => .ret _
  | .var t v, S => by
    unfold Term.ofStaged
    refine (LooksUp.lift (looksUpNone_ty table t)).after fun τ => ?_
    exact (looksUp_resolve S v.name).before fun r => .ret _
  | .call t name a, S => by
    unfold Term.ofStaged
    refine (LooksUp.lift (looksUpNone_ty table t)).after fun τ => ?_
    split
    · exact .throw fun _ => by simp
    · exact (looksUp_ofStaged a S).before fun a' => .ret _
  | .test t e p, S => by
    unfold Term.ofStaged
    refine (LooksUp.lift (looksUpNone_ty table t)).after fun τ => ?_
    refine (looksUp_ofStaged e S).before fun e' => ?_
    exact (LooksUp.lift (looksUpNone_pattern table p S)).after fun r => .ret _
  | .command t line, S => by
    unfold Term.ofStaged
    exact (LooksUp.lift (looksUpNone_ty table t)).after fun τ => .ret _
  | .quote t _, S => by
    unfold Term.ofStaged
    exact (LooksUp.lift (looksUpNone_ty table t)).after fun _ => .throw fun _ => by simp
  | .splice t _, S => by
    unfold Term.ofStaged
    exact (LooksUp.lift (looksUpNone_ty table t)).after fun _ => .throw fun _ => by simp
  | .hole t, S => by
    unfold Term.ofStaged
    exact (LooksUp.lift (looksUpNone_ty table t)).after fun _ => .throw fun _ => by simp

theorem looksUpAll_ofStaged : ∀ (ts : List Staged.Term) (S : Bindings),
    LooksUp S.names (freeAmong (occurrencesOfAll [] ts)) (Term.ofStagedAll table site S ts)
  | [], S => by
    unfold Term.ofStagedAll
    exact .ret _
  | t :: ts, S => by
    unfold Term.ofStagedAll
    rw [occurrencesOfAll, freeAmong_append]
    exact (looksUp_ofStaged t S).bind fun t' =>
      (looksUpAll_ofStaged ts S).before fun ts' => .ret _

theorem looksUpFields_ofStaged : ∀ (fields : List (String × Staged.Term)) (S : Bindings),
    LooksUp S.names (freeAmong (occurrencesOfFields [] fields))
      (Term.ofStagedFields table site S fields)
  | [], S => by
    unfold Term.ofStagedFields
    exact .ret _
  | (key, t) :: rest, S => by
    unfold Term.ofStagedFields
    rw [occurrencesOfFields, freeAmong_append]
    exact (looksUp_ofStaged t S).bind fun t' =>
      (looksUpFields_ofStaged rest S).before fun rest' => .ret _

end

end

/-- **Free variables.** The free names of a term are without repetition the names that occur under
no binder of theirs, in the order in which they first do. Converting the term in any scope fails to
look up a variable only if it is a free name that is not in scope, and goes through only if all free
names are in scope. So the body of a local function finds all its variables once the captured ones
are resolved. -/
theorem freeNames_spec (t : Staged.Term) :
    t.freeNames.names.Nodup ∧
    t.freeNames.names = (Staged.Term.freeAmong (t.occurrences [])).eraseDups ∧
    (∀ (table : Table) (site : Site) (S : Bindings) (progress : Progress),
      (∀ name, (Term.ofStaged table site S t).run progress = .error (.unresolvedVariable name) →
        name ∈ t.freeNames.names ∧ name ∉ S.names) ∧
      ∀ r, (Term.ofStaged table site S t).run progress = .ok r → t.freeNames.names ⊆ S.names) ∧
    ∀ (table : Table) (S : Bindings) ty binder body, t = .lambda ty binder body →
      ∀ captures param inner, capturesOf S t.freeNames.names = .ok captures →
        Pattern.ofStaged table .empty binder = .ok (param, inner) →
        ∀ site progress name,
          (Term.ofStaged table site (bindCaptures inner captures).2 body).run progress ≠
            .error (.unresolvedVariable name) := by
  have hmem : ∀ {n}, n ∈ Staged.Term.freeAmong (t.occurrences []) ↔ n ∈ t.freeNames.names :=
    fun {n} => Staged.Term.mem_freeAmong.trans (and_iff_left List.not_mem_nil)
  refine ⟨t.freeNames.nodup, t.names_freeNames, fun table site S progress => ⟨?_, ?_⟩, ?_⟩
  · intro name herror
    obtain ⟨hfree, hbound⟩ := (looksUp_ofStaged t S).error herror
    exact ⟨hmem.1 hfree, hbound⟩
  · intro r hok name hname
    exact (looksUp_ofStaged t S).ok hok (hmem.2 hname)
  · rintro table S ty binder body rfl captures param inner hcaptures hbinder site progress name
      herror
    obtain ⟨hfree, hbound⟩ := (looksUp_ofStaged body _).error herror
    exact hbound (freeNames_subset_inner hcaptures hbinder (Staged.Term.mem_freeAmong.1 hfree).1)

/-- A local function uses `b` and `a` of its surroundings, in this order, and an initializer is
outside its own binding. -/
example : (Staged.Term.lambda (.function .int .int) (.var (Staged.Pattern.plain .int) ⟨"y", 2⟩)
    (.tuple .int [.var .int ⟨"b", 1⟩, .var .int ⟨"y", 2⟩,
      .letIn .int (.var (Staged.Pattern.plain .int) ⟨"b", 3⟩) (.var .int ⟨"a", 0⟩)
        (.tuple .int [.var .int ⟨"b", 3⟩, .var .int ⟨"a", 0⟩])])).freeNames.names = ["b", "a"] := by
  decide

end Flat

end Stagecraft
