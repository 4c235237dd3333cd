import Stagecraft.Proofs.Failures

/-!
# Locations

A location is the module path of a name and, behind it, the name with every unusual byte written as
a dot and a number in base 36. Numbers are not padded, so the form of a byte below 8 other than 0 is
the beginning of the form of a larger one; among the other bytes no form begins another
(`escapedByte_append_inj`). A name without those seven bytes is determined by its location, if no
component of its module path has a slash in it (`ofName_inj`). So no two artifacts of a build share
a location: helpers have names of their own, which the colon in them keeps apart from the names of
definitions (`nodup_locations`).
-/

namespace Stagecraft.Text

/-! ## Bytes in a location -/

/-- Whether the form of a byte is not the beginning of the form of another one. -/
def isSelfDelimiting (b : UInt8) : Bool := b == 0 || 8 ≤ b

theorem base36Digit_toNat {n : Nat} (h : n < 36) :
    (base36Digit n).toNat = if n < 10 then 48 + n else 87 + n := by
  have hvalid : ∀ m < 128, (Char.ofNat m).toNat = m := by decide
  rw [base36Digit]
  split
  · exact hvalid _ (by omega)
  · exact hvalid _ (by omega)

theorem base36Digit_inj {m n : Nat} (hm : m < 36) (hn : n < 36)
    (h : base36Digit m = base36Digit n) : m = n := by
  have htoNat := congrArg Char.toNat h
  rw [base36Digit_toNat hm, base36Digit_toNat hn] at htoNat
  split at htoNat <;> split at htoNat <;> omega

/-- A byte that stands for itself is a letter, a digit, `_` or `-`. -/
theorem toNat_of_isLocationByte {b : UInt8} (h : isLocationByte b = true) :
    (Char.ofNat b.toNat).toNat = b.toNat ∧ b.toNat ≠ 46 ∧ b.toNat ≠ 47 := by
  have hall : ∀ n < 256, isLocationByte (UInt8.ofNat n) = true →
      (Char.ofNat n).toNat = n ∧ n ≠ 46 ∧ n ≠ 47 := by decide +kernel
  exact hall b.toNat b.toNat_lt (by rwa [UInt8.ofNat_toNat])

theorem ne_dot_of_isLocationByte {b : UInt8} (h : isLocationByte b = true) :
    Char.ofNat b.toNat ≠ '.' := by
  intro heq
  obtain ⟨hnat, hne, -⟩ := toNat_of_isLocationByte h
  exact hne (hnat.symm.trans (congrArg Char.toNat heq))

theorem toNat_of_isSelfDelimiting {b : UInt8} (h : isSelfDelimiting b = true) :
    b.toNat = 0 ∨ 8 ≤ b.toNat := by
  rw [isSelfDelimiting, Bool.or_eq_true, beq_iff_eq, decide_eq_true_eq, UInt8.le_iff_toNat_le] at h
  exact h.imp_left fun h => congrArg UInt8.toNat h

/-- The numbers of bytes that delimit themselves do not begin each other. -/
theorem base36_append_inj {a b : UInt8} (ha : isSelfDelimiting a = true)
    (hb : isSelfDelimiting b = true) {x y : List Char} (h : base36 a ++ x = base36 b ++ y) :
    a = b ∧ x = y := by
  have ha' := toNat_of_isSelfDelimiting ha
  have hb' := toNat_of_isSelfDelimiting hb
  have hla := a.toNat_lt
  have hlb := b.toNat_lt
  simp only [base36] at h
  split at h <;> split at h <;> simp only [List.cons_append, List.nil_append] at h
  · next hsa hsb =>
    obtain ⟨hd, rfl⟩ := List.cons.inj h
    exact ⟨UInt8.toNat_inj.1 (base36Digit_inj hsa hsb hd), rfl⟩
  -- the first of two digits is one of the numbers from 1 to 7
  · next hsa hsb =>
    have hfirst := base36Digit_inj hsa (by omega) (List.cons.inj h).1
    omega
  · next hsa hsb =>
    have hfirst := base36Digit_inj (by omega) hsb (List.cons.inj h).1
    omega
  · next hsa hsb =>
    obtain ⟨hd, hrest⟩ := List.cons.inj h
    obtain ⟨he, rfl⟩ := List.cons.inj hrest
    have hdiv := base36Digit_inj (by omega) (by omega) hd
    have hmod := base36Digit_inj (Nat.mod_lt _ (by decide)) (Nat.mod_lt _ (by decide)) he
    exact ⟨UInt8.toNat_inj.1 (by omega), rfl⟩

/-- The forms of bytes that delimit themselves do not begin each other. -/
theorem escapedByte_append_inj {a b : UInt8} (ha : isSelfDelimiting a = true)
    (hb : isSelfDelimiting b = true) {x y : List Char}
    (h : escapedByte a ++ x = escapedByte b ++ y) : a = b ∧ x = y := by
  rw [escapedByte, escapedByte] at h
  split at h <;> split at h <;>
    simp only [List.cons_append, List.nil_append, List.cons.injEq] at h
  · next hla hlb =>
    have hnat := congrArg Char.toNat h.1
    rw [(toNat_of_isLocationByte hla).1, (toNat_of_isLocationByte hlb).1] at hnat
    exact ⟨UInt8.toNat_inj.1 hnat, h.2⟩
  · next hla _ => exact absurd h.1 (ne_dot_of_isLocationByte hla)
  · next _ hlb => exact absurd h.1.symm (ne_dot_of_isLocationByte hlb)
  · exact base36_append_inj ha hb h.2

theorem escapedByte_ne_nil (b : UInt8) : escapedByte b ≠ [] := by
  rw [escapedByte]
  split <;> exact List.cons_ne_nil _ _

theorem flatMap_escapedByte_inj {bs cs : List UInt8} (hbs : ∀ b ∈ bs, isSelfDelimiting b = true)
    (hcs : ∀ c ∈ cs, isSelfDelimiting c = true)
    (h : bs.flatMap escapedByte = cs.flatMap escapedByte) : bs = cs := by
  induction bs generalizing cs with
  | nil =>
    cases cs with
    | nil => rfl
    | cons c cs => simp [escapedByte_ne_nil] at h
  | cons b bs ih =>
    cases cs with
    | nil => simp [escapedByte_ne_nil] at h
    | cons c cs =>
      rw [List.flatMap_cons, List.flatMap_cons] at h
      obtain ⟨hb, hbs⟩ := List.forall_mem_cons.1 hbs
      obtain ⟨hc, hcs⟩ := List.forall_mem_cons.1 hcs
      obtain ⟨hbc, hrest⟩ := escapedByte_append_inj hb hc h
      rw [hbc, ih hbs hcs hrest]

/-! ## Names in a location -/

theorem bytesOf_inj {s t : String} (h : bytesOf s = bytesOf t) : s = t := by
  have hbytes := congrArg List.toByteArray h
  exact String.toByteArray_inj.1 (String.utf8Encode_toList ▸ String.utf8Encode_toList ▸ hbytes)

theorem bytesOf_append (s t : String) : bytesOf (s ++ t) = bytesOf s ++ bytesOf t := by
  simp only [bytesOf, String.toList_append, List.flatMap_append]

/-- The digits of a number delimit themselves. -/
theorem isSelfDelimiting_of_mem_count {i : Nat} {b : UInt8} (h : b ∈ bytesOf (toString i)) :
    isSelfDelimiting b = true := by
  have hdigits : ∀ n < 58, 48 ≤ n → ∀ b ∈ String.utf8EncodeChar (Char.ofNat n),
      isSelfDelimiting b = true := by decide +kernel
  obtain ⟨c, hc, hb⟩ := List.mem_flatMap.1 h
  have hdigit := Nat.isDigit_of_mem_toDigits (by decide) (by decide)
    (show c ∈ Nat.toDigits 10 i by simpa using hc)
  rw [Char.isDigit, Bool.and_eq_true, decide_eq_true_eq, decide_eq_true_eq] at hdigit
  have hlow : 48 ≤ c.toNat := UInt32.le_iff_toNat_le.1 hdigit.1
  have hhigh : c.toNat ≤ 57 := UInt32.le_iff_toNat_le.1 hdigit.2
  rw [← Char.ofNat_toNat c] at hb
  exact hdigits c.toNat (by omega) hlow b hb

/-- A name is determined by how it stands in a location. -/
theorem escaped_inj {s t : String} (hs : ∀ b ∈ bytesOf s, isSelfDelimiting b = true)
    (ht : ∀ b ∈ bytesOf t, isSelfDelimiting b = true) (h : escaped s = escaped t) : s = t :=
  bytesOf_inj (flatMap_escapedByte_inj hs ht (String.ofList_injective h))

/-- No name brings a slash into its location. -/
theorem slash_notMem_escaped (s : String) : '/' ∉ (escaped s).toList := by
  have hdigit : ∀ n < 36, '/' ≠ base36Digit n := by decide
  rw [escaped, String.toList_ofList]
  intro h
  obtain ⟨b, -, hb⟩ := List.mem_flatMap.1 h
  rw [escapedByte] at hb
  split at hb
  · next hl =>
    obtain ⟨hnat, -, hne⟩ := toNat_of_isLocationByte hl
    rw [List.mem_singleton] at hb
    exact hne (hnat.symm.trans (congrArg Char.toNat hb.symm))
  · have hlt := b.toNat_lt
    simp only [base36] at hb
    split at hb <;> simp only [List.mem_cons, List.not_mem_nil, or_false] at hb
    · next hs => exact hb.elim (by decide) (hdigit _ hs)
    · rcases hb with hb | hb | hb
      · exact absurd hb (by decide)
      · exact hdigit _ (by omega) hb
      · exact hdigit _ (Nat.mod_lt _ (by decide)) hb

end Stagecraft.Text

namespace Stagecraft

open Target (Location)

/-- A name that its location determines: no component of the module path has a slash in it, and the
bytes of the name delimit themselves. -/
structure DefName.IsLocatable (n : DefName) : Prop where
  path : ∀ c ∈ n.path, '/' ∉ c.toList
  name : ∀ b ∈ Text.bytesOf n.name, Text.isSelfDelimiting b = true

/-- A location determines the module path, if no component of it has a slash in it, and how the name
stands in it. -/
theorem DefName.components_of_ofName_eq {nspace : String} {m n : DefName}
    (hm : ∀ c ∈ m.path, '/' ∉ c.toList) (hn : ∀ c ∈ n.path, '/' ∉ c.toList)
    (h : Location.ofName nspace m = Location.ofName nspace n) :
    m.path = n.path ∧ Text.escaped m.name = Text.escaped n.name := by
  have hparts : ∀ {k : DefName}, (∀ c ∈ k.path, '/' ∉ c.toList) →
      ∀ l ∈ (k.path ++ [Text.escaped k.name]).map String.toList, '/' ∉ l := by
    intro k hk l hl
    obtain ⟨c, hc, rfl⟩ := List.mem_map.1 hl
    rcases List.mem_append.1 hc with hc | hc
    · exact hk c hc
    · exact List.mem_singleton.1 hc ▸ Text.slash_notMem_escaped k.name
  have hjoined := congrArg (fun l : Location => l.path.toList) h
  simp only [Location.ofName, String.toList_intercalate] at hjoined
  have hsplit := congrArg (List.splitOn '/') hjoined
  rw [show "/".toList = ['/'] from rfl, List.splitOn_intercalate '/' (hparts hm) (by simp),
    List.splitOn_intercalate '/' (hparts hn) (by simp)] at hsplit
  have hlist := List.map_injective_iff.2 (fun _ _ => String.toList_inj.1) hsplit
  obtain ⟨hpath, hname⟩ := List.append_inj' hlist rfl
  exact ⟨hpath, List.singleton_inj.1 hname⟩

/-- In one namespace, locatable names of one location are the same. -/
theorem DefName.ofName_inj {nspace : String} {m n : DefName} (hm : m.IsLocatable)
    (hn : n.IsLocatable) (h : Location.ofName nspace m = Location.ofName nspace n) : m = n := by
  obtain ⟨hpath, hname⟩ := components_of_ofName_eq hm.path hn.path h
  have hescaped := Text.escaped_inj hm.name hn.name hname
  cases m
  cases n
  rw [DefName.mk.injEq]
  exact ⟨hpath, hescaped⟩

/-- Helpers of a locatable name are locatable. -/
theorem DefName.IsLocatable.helperName {n : DefName} (h : n.IsLocatable) (i : Nat) :
    (Flat.helperName n i).IsLocatable where
  path := h.path
  name := by
    intro b hb
    have hcolon : ∀ b ∈ Text.bytesOf ":", Text.isSelfDelimiting b = true := by decide +kernel
    simp only [Flat.helperName, DefName.sibling, Text.bytesOf_append, List.mem_append] at hb
    rcases hb with (hb | hb) | hb
    · exact h.name b hb
    · exact hcolon b hb
    · exact Text.isSelfDelimiting_of_mem_count hb

/-- The dispatcher has a locatable name. -/
theorem Flat.isLocatable_dispatcher : dispatcher.IsLocatable where
  path := by simp [dispatcher]
  name := by decide +kernel

end Stagecraft

namespace Stagecraft.Pipeline

open Staged (Table)
open Target (Location Artifact)

/-! ## Locations of a build -/

theorem location_of_artifact? {options : Emit.Options} {d : Flat.Definition} {a : Artifact}
    (h : Emit.artifact? options d = .ok (some a)) :
    a.location = .ofName options.nspace d.name := by
  rcases d with f | b | r
  · rw [Emit.artifact?, Except.bind_ok] at h
    obtain ⟨is, -, h⟩ := h
    cases h
    rfl
  · cases h
  · rw [Emit.artifact?, Except.bind_ok] at h
    obtain ⟨tree, -, h⟩ := h
    cases h
    rfl

/-- Every artifact stands where its flat definition belongs. -/
theorem locations_artifacts (options : Emit.Options) (flat : List Flat.Definition) :
    ((artifacts options flat).1.map Artifact.location).Sublist
      ((flat.map Flat.Definition.name).map (.ofName options.nspace)) := by
  induction flat with
  | nil => exact List.Sublist.refl _
  | cons d flat ih =>
    rw [artifacts, List.map_cons, List.map_cons]
    cases hd : Emit.artifact? options d with
    | error e => exact ih.cons _
    | ok a? =>
      cases a? with
      | none => exact ih.cons _
      | some a =>
        rw [List.map_cons, location_of_artifact? hd]
        exact ih.cons_cons _

theorem BelongsTo.isLocatable {name owner : DefName} (h : BelongsTo name owner)
    (howner : owner.IsLocatable) : name.IsLocatable := by
  rcases h with rfl | ⟨i, rfl⟩
  · exact howner
  · exact howner.helperName i

/-- A name that belongs to an owner other than the dispatcher is not the dispatcher's. -/
theorem BelongsTo.ne_dispatcher {name owner : DefName} (h : BelongsTo name owner)
    (howner : owner ≠ Flat.dispatcher) : name ≠ Flat.dispatcher := by
  rcases h with rfl | ⟨i, rfl⟩
  · exact howner
  · exact Flat.helperName_ne (by decide +kernel)

/-- **Locations never collide.** In a table in which the name of every definition is locatable, has
no colon in it and is not that of the dispatcher, the artifacts of a build, helpers and dispatcher
included, have locations of their own, in any namespace and even if some definitions fail. -/
theorem nodup_locations {fuel : Nat} {settings : Settings} {natives : Eval.Natives} {table : Table}
    {b : Build} (hbuild : build? fuel settings natives table = some b)
    (hnames : ∀ d ∈ table.definitions,
      ':' ∉ d.name.name.toList ∧ d.name.IsLocatable ∧ d.name ≠ Flat.dispatcher) :
    (b.artifacts.map Artifact.location).Nodup := by
  obtain ⟨staged, failures, -, hsub, -, -, hartifacts, -⟩ := phases_of_build? hbuild
  have hnodup := hsub.nodup table.nodup
  have hstagedNames : ∀ d ∈ staged,
      ':' ∉ d.name.name.toList ∧ d.name.IsLocatable ∧ d.name ≠ Flat.dispatcher := by
    intro d hd
    obtain ⟨d', hd', heq⟩ := List.mem_map.1 (hsub.subset (List.mem_map_of_mem hd))
    exact heq ▸ hnames d' hd'
  -- the names of flat definitions are distinct, and so are their locations
  have howners : ∀ e ∈ (flatten (.ofList staged) .empty staged).1,
      e.name.IsLocatable ∧ e.name ≠ Flat.dispatcher := by
    intro e he
    obtain ⟨d, hd, howner, -⟩ := exists_owner hnodup he
    obtain ⟨-, hlocatable, hdispatcher⟩ := hstagedNames d hd
    exact ⟨howner.isLocatable hlocatable, howner.ne_dispatcher hdispatcher⟩
  have hflat := nodup_flatten (.ofList staged) hnodup fun d hd => (hstagedNames d hd).1
  have hlocations := locations_artifacts settings.emitOptions
    (flatten (.ofList staged) .empty staged).1
  rw [hartifacts, List.map_append, List.map_singleton]
  refine List.nodup_append.2 ⟨hlocations.nodup ?_, List.nodup_singleton _, ?_⟩
  · refine List.Nodup.map_on (fun m hm n hn heq => ?_) hflat
    obtain ⟨d, hd, rfl⟩ := List.mem_map.1 hm
    obtain ⟨e, he, rfl⟩ := List.mem_map.1 hn
    exact DefName.ofName_inj (howners d hd).1 (howners e he).1 heq
  · rintro l hl l' hl' rfl
    obtain ⟨name, hname, heq⟩ := List.mem_map.1 (hlocations.subset hl)
    obtain ⟨d, hd, rfl⟩ := List.mem_map.1 hname
    rw [List.mem_singleton] at hl'
    exact (howners d hd).2
      (DefName.ofName_inj (howners d hd).1 Flat.isLocatable_dispatcher (heq.trans hl'))

/-- A function with four helpers, one that is named as the first of them looks in a location, one in
a module whose path continues the first one's, a resource and a function that fails. -/
def lookalikes : Table := .ofList [
  .function ⟨[], ⟨["main"], "f"⟩, .var (Staged.Pattern.plain .bool) ⟨"b", 0⟩, .bool,
    .ofApply (.ofLambda (.var (Staged.Pattern.plain .bool) ⟨"c", 1⟩)
      (.ofCond (.var .bool ⟨"c", 1⟩) (.var .bool ⟨"b", 0⟩) (.var .bool ⟨"c", 1⟩)))
      (.var .bool ⟨"b", 0⟩)⟩,
  .function ⟨[], ⟨["main"], "f.1m0"⟩, .var (Staged.Pattern.plain .int) ⟨"x", 0⟩, .int,
    .var .int ⟨"x", 0⟩⟩,
  .function ⟨[], ⟨["main", "f.1m0"], "é"⟩, .var (Staged.Pattern.plain .int) ⟨"x", 0⟩, .int,
    .var .int ⟨"x", 0⟩⟩,
  .resource ⟨[], .predicates, ⟨["main"], "F"⟩, .ofLiteral (.int 1)⟩,
  .function ⟨[], ⟨[], "main/f"⟩, .var (Staged.Pattern.plain .int) ⟨"x", 0⟩, .int,
    .var .int ⟨"y", 1⟩⟩]

theorem nodup_locations_lookalikes : ∃ b,
    build? 10 ⟨"pack", true, 64⟩ .prelude lookalikes = some b ∧
    (∀ d ∈ lookalikes.definitions,
      ':' ∉ d.name.name.toList ∧ d.name.IsLocatable ∧ d.name ≠ Flat.dispatcher) ∧
    b.artifacts.map (·.location.path) = ["main/f", "main/f.1m0", "main/f.1m1", "main/f.1m2",
      "main/f.1a1m0", "main/f.1m0/.5f.4p", "main/.1y", "mcx/dispatch"] ∧
    (b.artifacts.map Artifact.location).Nodup := by
  have hsome : (build? 10 ⟨"pack", true, 64⟩ .prelude lookalikes).isSome := by decide +kernel
  obtain ⟨b, hb⟩ := Option.isSome_iff_exists.1 hsome
  have hpaths : (build? 10 ⟨"pack", true, 64⟩ .prelude lookalikes).all fun b => decide
      (b.artifacts.map (·.location.path) = ["main/f", "main/f.1m0", "main/f.1m1", "main/f.1m2",
        "main/f.1a1m0", "main/f.1m0/.5f.4p", "main/.1y", "mcx/dispatch"]) := by decide +kernel
  rw [hb, Option.all_some, decide_eq_true_eq] at hpaths
  have hnames : ∀ d ∈ lookalikes.definitions,
      ':' ∉ d.name.name.toList ∧ d.name.IsLocatable ∧ d.name ≠ Flat.dispatcher := by
    have hdecided : ∀ d ∈ lookalikes.definitions, ':' ∉ d.name.name.toList ∧
        (∀ c ∈ d.name.path, '/' ∉ c.toList) ∧
        (∀ c ∈ Text.bytesOf d.name.name, Text.isSelfDelimiting c = true) ∧
        d.name ≠ Flat.dispatcher := by decide +kernel
    intro d hd
    obtain ⟨hcolon, hpath, hname, hdispatcher⟩ := hdecided d hd
    exact ⟨hcolon, ⟨hpath, hname⟩, hdispatcher⟩
  exact ⟨b, hb, hnames, hpaths, nodup_locations hb hnames⟩

end Stagecraft.Pipeline
