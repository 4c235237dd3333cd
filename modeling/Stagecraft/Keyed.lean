/-!
# Keyed lists in insertion order

A record is a list of pairs in which every key occurs once. Inserting at a key that is present
replaces the value and keeps the position; a new key goes to the end. The laws say what a look-up
finds after an insertion (`find?_insert`) and that the keys stay distinct (`nodup_keys_insert`,
`nodup_keys_ofPairs`).
-/

namespace Stagecraft.Keyed

variable {κ : Type u} {α : Type v} [DecidableEq κ]

/-- The value at a key. -/
def find? (key : κ) : List (κ × α) → Option α
  | [] => none
  | (k, v) :: rest => if k = key then some v else find? key rest

/-- The value at a key is replaced where it stands; a new key is added at the end. -/
def insert (key : κ) (value : α) : List (κ × α) → List (κ × α)
  | [] => [(key, value)]
  | (k, v) :: rest => if k = key then (k, value) :: rest else (k, v) :: insert key value rest

/-- The list without the entry at a key. -/
def erase (key : κ) : List (κ × α) → List (κ × α)
  | [] => []
  | (k, v) :: rest => if k = key then rest else (k, v) :: erase key rest

/-- Distinct keys: the first occurrence of a key gives its position, the last one its value. -/
def ofPairs (pairs : List (κ × α)) : List (κ × α) :=
  pairs.foldl (fun acc p => insert p.1 p.2 acc) []

/-- The keys in order. -/
def keys (entries : List (κ × α)) : List κ :=
  entries.map (·.1)

theorem find?_append (key : κ) (xs ys : List (κ × α)) :
    find? key (xs ++ ys) = (find? key xs).or (find? key ys) := by
  induction xs with
  | nil => rfl
  | cons x xs ih =>
    rw [List.cons_append, find?, find?, ih]
    split <;> rfl

theorem mem_of_find? {key : κ} {xs : List (κ × α)} {a : α} (h : find? key xs = some a) :
    (key, a) ∈ xs := by
  induction xs with
  | nil => cases h
  | cons x xs ih =>
    rw [find?] at h
    split at h
    · next hx =>
      cases h
      exact hx ▸ List.mem_cons_self
    · exact List.mem_cons_of_mem _ (ih h)

/-- Where keys are distinct, every entry is found. -/
theorem find?_of_mem {key : κ} {a : α} {xs : List (κ × α)} (hnodup : (keys xs).Nodup)
    (h : (key, a) ∈ xs) : find? key xs = some a := by
  induction xs with
  | nil => cases h
  | cons x xs ih =>
    rw [keys, List.map_cons, List.nodup_cons] at hnodup
    rw [find?]
    rcases List.mem_cons.1 h with rfl | h
    · exact if_pos rfl
    · have hne : x.1 ≠ key := fun heq => hnodup.1 (heq ▸ List.mem_map_of_mem h)
      rw [if_neg hne]
      exact ih hnodup.2 h

/-- Only keys of the list are found. -/
theorem find?_eq_none {key : κ} {xs : List (κ × α)} (h : key ∉ keys xs) : find? key xs = none := by
  cases hx : find? key xs with
  | none => rfl
  | some a => exact absurd (List.mem_map_of_mem (mem_of_find? hx)) h

theorem find?_insert (key : κ) (value : α) (entries : List (κ × α)) (k : κ) :
    find? k (insert key value entries) = if key = k then some value else find? k entries := by
  induction entries with
  | nil => simp [insert, find?]
  | cons e rest ih =>
    obtain ⟨k', v⟩ := e
    by_cases h : k' = key
    · subst h
      by_cases hk : k' = k <;> simp [insert, find?, hk]
    · by_cases hk : k' = k
      · subst hk
        simp [insert, find?, h, Ne.symm h]
      · simp [insert, find?, h, hk, ih]

/-- Inserted entries of distinct keys come before those that were there. -/
theorem find?_foldl_insert {entries : List (κ × α)} (h : (keys entries).Nodup)
    (acc : List (κ × α)) (key : κ) :
    find? key (entries.foldl (fun acc e => insert e.1 e.2 acc) acc) =
      (find? key entries).or (find? key acc) := by
  induction entries generalizing acc with
  | nil => rfl
  | cons e entries ih =>
    rw [keys, List.map_cons, List.nodup_cons] at h
    rw [List.foldl_cons, ih h.2, find?_insert, find?]
    split
    · next he => rw [find?_eq_none (he ▸ h.1), Option.none_or, Option.some_or]
    · rfl

/-- A new key goes to the end. -/
theorem insert_of_notMem {key : κ} {value : α} {entries : List (κ × α)}
    (h : key ∉ keys entries) : insert key value entries = entries ++ [(key, value)] := by
  induction entries with
  | nil => rfl
  | cons e entries ih =>
    rw [keys, List.map_cons, List.mem_cons, not_or] at h
    rw [insert, if_neg (Ne.symm h.1), ih h.2, List.cons_append]

theorem keys_insert (key : κ) (value : α) (entries : List (κ × α)) :
    keys (insert key value entries) =
      if key ∈ keys entries then keys entries else keys entries ++ [key] := by
  induction entries with
  | nil => simp [insert, keys]
  | cons e rest ih =>
    obtain ⟨k', v⟩ := e
    simp only [keys] at ih
    by_cases h : k' = key
    · simp [insert, keys, h]
    · have h' : ¬ key = k' := fun e => h e.symm
      simp only [insert, h, if_false, keys, List.map_cons, ih, List.mem_cons, h', false_or]
      by_cases hm : key ∈ rest.map (fun x => x.1) <;> simp [hm]

theorem nodup_keys_insert (key : κ) (value : α) {entries : List (κ × α)}
    (h : (keys entries).Nodup) : (keys (insert key value entries)).Nodup := by
  rw [keys_insert]
  split
  · exact h
  · next hk =>
    refine List.nodup_append.2 ⟨h, by simp, ?_⟩
    intro a ha b hb
    rw [List.mem_singleton] at hb
    subst hb
    intro e
    subst e
    exact hk ha

theorem nodup_keys_foldl (pairs acc : List (κ × α)) (h : (keys acc).Nodup) :
    (keys (pairs.foldl (fun acc p => insert p.1 p.2 acc) acc)).Nodup := by
  induction pairs generalizing acc with
  | nil => exact h
  | cons p rest ih => exact ih _ (nodup_keys_insert _ _ h)

theorem nodup_keys_ofPairs (pairs : List (κ × α)) : (keys (ofPairs pairs)).Nodup :=
  nodup_keys_foldl pairs [] (by simp [keys])

end Stagecraft.Keyed
