import Mathlib
import Stagecraft.Proofs.Conversion

/-!
# A logic for splitting off helpers

A conversion grows a list of helpers while it goes through the term. `Registers` is partial
correctness of such a computation: it only adds to the list, the helpers keep their numbering, and
every helper added is `Fine`, whatever that means for the theorem at hand. Facts about results are
relative to the progress `R` at the end of the whole conversion, so that they need not be carried
from one step to the next.

The second argument of `Registers` collects what is known so far; `Registers.bind` adds the answer
of the first computation to it.
-/

namespace Stagecraft.Flat

open Staged (Table)

/-- The name of a helper: that of the converted definition and a count. -/
def helperName (name : DefName) (i : Nat) : DefName :=
  name.sibling (name.name ++ ":" ++ toString i)

theorem append_colon_inj {a b x y : List Char} (ha : ':' ∉ a) (hb : ':' ∉ b)
    (h : a ++ ':' :: x = b ++ ':' :: y) : a = b ∧ x = y := by
  induction a generalizing b with
  | nil =>
    cases b with
    | nil => exact ⟨rfl, (List.cons.inj h).2⟩
    | cons c b => exact absurd (List.cons.inj h).1 fun e => hb (e ▸ List.mem_cons_self)
  | cons c a ih =>
    cases b with
    | nil => exact absurd (List.cons.inj h).1.symm fun e => ha (e ▸ List.mem_cons_self)
    | cons d b =>
      obtain ⟨rfl, hrest⟩ := List.cons.inj h
      obtain ⟨rfl, hxy⟩ := ih (fun m => ha (List.mem_cons_of_mem _ m))
        (fun m => hb (List.mem_cons_of_mem _ m)) hrest
      exact ⟨rfl, hxy⟩

/-- Helpers of definitions whose names are free of colons have different names. -/
theorem helperName_inj {m n : DefName} {i j : Nat} (hm : ':' ∉ m.name.toList)
    (hn : ':' ∉ n.name.toList) (h : helperName m i = helperName n j) : m = n ∧ i = j := by
  obtain ⟨path, name⟩ := m
  obtain ⟨path', name'⟩ := n
  simp only [helperName, DefName.sibling, DefName.mk.injEq] at h
  obtain ⟨rfl, h⟩ := h
  have hl := congrArg String.toList h
  simp only [String.toList_append, List.append_assoc] at hl
  obtain ⟨hname, hcount⟩ := append_colon_inj hm hn hl
  have hij : i.repr = j.repr := String.toList_inj.1 hcount
  exact ⟨congrArg _ (String.toList_inj.1 hname), Nat.repr_injective hij⟩

theorem helperName_ne {m n : DefName} {i : Nat} (hn : ':' ∉ n.name.toList) :
    helperName m i ≠ n := by
  rintro rfl
  exact hn (by simp [helperName, DefName.sibling])

/-- The helpers of one definition have different names. -/
theorem helperName_count_inj {name : DefName} {i j : Nat}
    (h : helperName name i = helperName name j) : i = j := by
  have hname := congrArg (fun n : DefName => n.name.toList) h
  simp only [helperName, DefName.sibling, String.toList_append, List.append_assoc] at hname
  have hcount := List.append_cancel_left (List.append_cancel_left hname)
  exact Nat.repr_injective (String.toList_inj.1 hcount)

theorem helperName_ne_self (name : DefName) (i : Nat) : helperName name i ≠ name := by
  intro h
  have hlength := congrArg (fun n : DefName => n.name.toList.length) h
  simp only [helperName, DefName.sibling, String.toList_append, List.length_append] at hlength
  have hcolon : ":".toList.length = 1 := rfl
  omega

/-! ## Numbering -/

/-- Helpers are counted in the order they are split off, and the closure bodies among them restore
consecutive tags. -/
structure Progress.Numbered (site : Site) (p : Progress) : Prop where
  named : p.named = p.helpers.length
  names : p.helpers.map (·.name) = (List.range p.helpers.length).map (helperName site.name)
  bodies : ∀ {i name}, p.closures[i]? = some name →
    ∃ f ∈ p.helpers, f.name = name ∧ f.restore = some (Int32.ofNat (site.firstTag + i))

theorem Progress.numbered_empty (site : Site) : Progress.Numbered site ⟨0, [], []⟩ :=
  ⟨rfl, rfl, fun h => nomatch h⟩

theorem Progress.Numbered.addHelper {site : Site} {p : Progress} (h : p.Numbered site)
    {f : Function} (hf : f.name = helperName site.name p.named) :
    Progress.Numbered site ⟨p.named + 1, p.closures, p.helpers ++ [f]⟩ where
  named := by simp [h.named]
  names := by
    rw [List.map_append, h.names, List.length_append, List.length_singleton, List.range_succ,
      List.map_append, List.map_singleton, List.map_singleton, hf, h.named]
  bodies hi := by
    obtain ⟨g, hg, hname, hrestore⟩ := h.bodies hi
    exact ⟨g, List.mem_append_left _ hg, hname, hrestore⟩

theorem Progress.Numbered.addClosure {site : Site} {p : Progress} (h : p.Numbered site)
    {f : Function} (hf : f.name = helperName site.name p.named)
    (hrestore : f.restore = some (Int32.ofNat (site.firstTag + p.closures.length))) :
    Progress.Numbered site ⟨p.named + 1, p.closures ++ [f.name], p.helpers ++ [f]⟩ where
  named := (h.addHelper hf).named
  names := (h.addHelper hf).names
  bodies {i name} hi := by
    rcases Nat.lt_trichotomy i p.closures.length with hlt | rfl | hgt
    · rw [List.getElem?_append_left hlt] at hi
      exact (h.addHelper hf).bodies hi
    · rw [List.getElem?_concat_length, Option.some.injEq] at hi
      exact ⟨f, List.mem_append_right _ List.mem_cons_self, hi, hrestore⟩
    · have hnone : (p.closures ++ [f.name])[i]? = none :=
        List.getElem?_eq_none (by simp only [List.length_append, List.length_singleton]; omega)
      rw [hnone] at hi
      cases hi

/-! ## Computations that register helpers -/

section

variable (R : Progress) (site : Site) (Fine : Function → Prop)

/-- What is kept while helpers are split off. -/
structure Progress.Kept (p : Progress) : Prop where
  numbered : p.Numbered site
  fine : ∀ f ∈ p.helpers, Fine f

/-- A computation that only adds fine helpers, in order; its result is right if everything it
split off is still there in the end. -/
def Registers {α : Type} (pre : Prop) (x : ConvertM α) (Q : α → Prop) : Prop :=
  ∀ ⦃p a p'⦄, x.run p = .ok (a, p') →
    p.Extends p' ∧ (pre → p'.Extends R → p.Kept site Fine → p'.Kept site Fine ∧ Q a)

/-- A closure body among the helpers, at the tag of its function values. -/
def Progress.HasBody (tag : Nat) (binder : Pattern) (result : Ty) (body : Term) : Prop :=
  ∃ i name, tag = site.firstTag + i ∧ R.closures[i]? = some name ∧
    ⟨[], name, binder, result, body, some (Int32.ofNat tag)⟩ ∈ R.helpers

end

namespace Registers

variable {R : Progress} {site : Site} {Fine : Function → Prop} {α β : Type} {pre : Prop}

theorem mono {x : ConvertM α} {Q Q' : α → Prop} (h : Registers R site Fine pre x Q)
    (hQ : ∀ a, pre → Q a → Q' a) : Registers R site Fine pre x Q' := by
  intro p a p' hx
  refine ⟨(h hx).1, fun hpre hR hp => ?_⟩
  obtain ⟨hp', ha⟩ := (h hx).2 hpre hR hp
  exact ⟨hp', hQ a hpre ha⟩

theorem ret {a : α} {Q : α → Prop} (h : pre → Q a) : Registers R site Fine pre (pure a) Q := by
  intro p b p' hx
  cases hx
  exact ⟨.refl p, fun hpre _ hp => ⟨hp, h hpre⟩⟩

theorem bind {x : ConvertM α} {f : α → ConvertM β} {Q : α → Prop} {Q' : β → Prop}
    (hx : Registers R site Fine pre x Q)
    (hf : ∀ a, Registers R site Fine (pre ∧ Q a) (f a) Q') :
    Registers R site Fine pre (x >>= f) Q' := by
  intro p b p'' h
  rw [StateT.run_bind, Except.bind_ok] at h
  obtain ⟨⟨a, p'⟩, ha, hb⟩ := h
  obtain ⟨hpp', hQ⟩ := hx ha
  obtain ⟨hpp'', hQ'⟩ := hf a hb
  refine ⟨hpp'.trans hpp'', fun hpre hR hp => ?_⟩
  obtain ⟨hp', hQa⟩ := hQ hpre (hpp''.trans hR) hp
  exact hQ' ⟨hpre, hQa⟩ hR hp'

/-- An answer that splits off nothing. -/
theorem lift {e : Except Error α} : Registers R site Fine pre (liftM e) fun a => e = .ok a := by
  intro p a p' h
  cases e with
  | error _ => cases h
  | ok b =>
    cases h
    exact ⟨.refl p, fun _ _ hp => ⟨hp, rfl⟩⟩

theorem throw {e : Error} {Q : α → Prop} : Registers R site Fine pre (throw e) Q :=
  fun _ _ _ h => nomatch h

theorem addClause_mem {scope : Bindings} {result : Ty} {body : Term} {restore : Option Int32}
    (h : pre → ∀ name, Fine ⟨[], name, scope.binder, result, body, restore⟩) :
    Registers R site Fine pre (Flat.addClause site scope result body restore)
      fun name => ⟨[], name, scope.binder, result, body, restore⟩ ∈ R.helpers := by
  intro p name p' hx
  cases hx
  refine ⟨⟨List.prefix_append _ _, List.prefix_refl _⟩, fun hpre hR hp => ⟨⟨?_, ?_⟩, ?_⟩⟩
  · exact hp.numbered.addHelper rfl
  · intro f hf
    rcases List.mem_append.1 hf with hf | hf
    · exact hp.fine f hf
    · rw [List.mem_singleton] at hf
      exact hf ▸ h hpre _
  · exact hR.helpers.subset (List.mem_append_right _ List.mem_cons_self)

theorem addClause {scope : Bindings} {result : Ty} {body : Term} {restore : Option Int32}
    (h : pre → ∀ name, Fine ⟨[], name, scope.binder, result, body, restore⟩) :
    Registers R site Fine pre (addClause site scope result body restore)
      fun name => ∃ f ∈ R.helpers, f.name = name :=
  (addClause_mem h).mono fun _ _ hmem => ⟨_, hmem, rfl⟩

theorem addClosure {binder : Pattern} {result : Ty} {body : Term}
    (h : pre → ∀ name restore, Fine ⟨[], name, binder, result, body, restore⟩) :
    Registers R site Fine pre (addClosure site binder result body)
      fun tag => R.HasBody site tag binder result body := by
  intro p tag p' hx
  cases hx
  refine ⟨⟨List.prefix_append _ _, List.prefix_append _ _⟩, fun hpre hR hp => ⟨⟨?_, ?_⟩, ?_⟩⟩
  · exact hp.numbered.addClosure (f := ⟨[], _, _, _, _, _⟩) rfl rfl
  · intro f hf
    rcases List.mem_append.1 hf with hf | hf
    · exact hp.fine f hf
    · rw [List.mem_singleton] at hf
      exact hf ▸ h hpre _ _
  · refine ⟨p.closures.length, _, rfl, ?_,
      hR.helpers.subset (List.mem_append_right _ List.mem_cons_self)⟩
    have hlast := List.getElem?_concat_length (l := p.closures)
      (a := site.name.sibling (site.name.name ++ ":" ++ toString p.named))
    obtain ⟨hlt, heq⟩ := List.getElem?_eq_some_iff.1 hlast
    exact heq ▸ List.prefix_iff_getElem?.1 hR.closures _ hlt

end Registers

end Stagecraft.Flat
