import Mathlib.Data.List.Basic
import Mathlib.Data.List.Nodup

/-!
# Finite maps

A map from keys to values as a list of entries with distinct keys. Entries keep the order in which
their keys came in.
-/

set_option autoImplicit false

namespace UnicityBridge.Lib

/-- A finite map. -/
structure Dict (κ α : Type) where
  entries : List (κ × α)
  unique : (entries.map Prod.fst).Nodup

namespace Dict

variable {κ α : Type}

instance [DecidableEq κ] [DecidableEq α] : DecidableEq (Dict κ α) := fun a b =>
  decidable_of_iff (a.entries = b.entries) (by cases a; cases b; simp)

/-- The map without keys. -/
def empty : Dict κ α := ⟨[], List.nodup_nil⟩

/-- The keys, in the order of their insertion. -/
def keys (m : Dict κ α) : List κ := m.entries.map Prod.fst

/-- The values, in the order of their keys. -/
def values (m : Dict κ α) : List α := m.entries.map Prod.snd

variable [DecidableEq κ]

/-- The value of a key. -/
def get (m : Dict κ α) (key : κ) : Option α := (m.entries.find? fun entry => entry.1 = key).map Prod.snd

/-- Whether the key has a value. -/
def contains (m : Dict κ α) (key : κ) : Bool := (m.get key).isSome

/-- Change every value. -/
def mapValues (m : Dict κ α) (f : κ → α → α) : Dict κ α where
  entries := m.entries.map fun entry => (entry.1, f entry.1 entry.2)
  unique := by
    rw [List.map_map]
    exact m.unique

/-- Change the value of a key, if it has one. -/
def modify (m : Dict κ α) (key : κ) (f : α → α) : Dict κ α :=
  m.mapValues fun k a => if k = key then f a else a

theorem get_eq_none {m : Dict κ α} {key : κ} : m.get key = none ↔ key ∉ m.keys := by
  rw [get, Option.map_eq_none_iff, List.find?_eq_none, keys, List.mem_map]
  constructor
  · rintro h ⟨entry, hentry, rfl⟩
    exact h entry hentry (by simp)
  · intro h entry hentry hkey
    exact h ⟨entry, hentry, by simpa using hkey⟩

theorem get_eq_some {m : Dict κ α} {key : κ} {a : α} :
    m.get key = some a ↔ (key, a) ∈ m.entries := by
  rw [get, Option.map_eq_some_iff]
  constructor
  · rintro ⟨entry, hentry, rfl⟩
    obtain rfl : entry.1 = key := by simpa using List.find?_some hentry
    exact List.mem_of_find?_eq_some hentry
  · intro h
    cases hfind : m.entries.find? fun entry => entry.1 = key with
    | none => exact absurd (List.find?_eq_none.1 hfind _ h) (by simp)
    | some entry =>
        refine ⟨entry, rfl, ?_⟩
        have hkey : entry.1 = key := by simpa using List.find?_some hfind
        have heq : entry = (key, a) :=
          List.inj_on_of_nodup_map m.unique (List.mem_of_find?_eq_some hfind) h hkey
        rw [heq]

theorem mem_values {m : Dict κ α} {a : α} : a ∈ m.values ↔ ∃ key, m.get key = some a := by
  simp only [get_eq_some, values, List.mem_map, Prod.exists, exists_eq_right]

/-- The values of a kind are as many as the keys that lead to them. -/
theorem length_filter_values (m : Dict κ α) (p : α → Bool) :
    (m.values.filter p).length = (m.keys.filter fun key => (m.get key).any p).length := by
  rw [values, keys, List.filter_map, List.filter_map, List.length_map, List.length_map]
  refine congrArg List.length (List.filter_congr fun entry hentry => ?_)
  rw [Function.comp_apply, Function.comp_apply, get_eq_some.2 hentry, Option.any_some]

theorem keys_modify (m : Dict κ α) (key : κ) (f : α → α) : (m.modify key f).keys = m.keys := by
  rw [modify, mapValues, keys, keys, List.map_map]
  rfl

/-- Set the value of a key: in its place when it has one, else at the end. -/
def insert (m : Dict κ α) (key : κ) (a : α) : Dict κ α :=
  if h : key ∈ m.keys then m.modify key fun _ => a
  else ⟨m.entries ++ [(key, a)], by
    rw [List.map_append, List.map_singleton]
    refine List.Nodup.append m.unique (List.nodup_singleton _) fun k hk hkey => h ?_
    obtain rfl : k = key := List.mem_singleton.1 hkey
    exact hk⟩

/-- Remove a key. -/
def erase (m : Dict κ α) (key : κ) : Dict κ α :=
  ⟨m.entries.filter fun entry => entry.1 ≠ key, m.unique.sublist (List.filter_sublist.map _)⟩

/-- The map of these entries. A later one replaces an earlier one of the same key. -/
def ofList (entries : List (κ × α)) : Dict κ α :=
  entries.foldl (fun m entry => m.insert entry.1 entry.2) empty

@[simp] theorem get_empty (key : κ) : (empty : Dict κ α).get key = none := rfl

@[simp] theorem get_mapValues (m : Dict κ α) (f : κ → α → α) (key : κ) :
    (m.mapValues f).get key = (m.get key).map (f key) := by
  ext b
  rw [get_eq_some, mapValues, List.mem_map, Option.map_eq_some_iff]
  constructor
  · rintro ⟨⟨k, a⟩, hmem, heq⟩
    obtain ⟨rfl, rfl⟩ := Prod.mk.inj heq
    exact ⟨a, get_eq_some.2 hmem, rfl⟩
  · rintro ⟨a, ha, rfl⟩
    exact ⟨(key, a), get_eq_some.1 ha, rfl⟩

@[simp] theorem get_modify_self (m : Dict κ α) (key : κ) (f : α → α) :
    (m.modify key f).get key = (m.get key).map f := by
  rw [modify, get_mapValues]
  simp

theorem get_modify_of_ne (m : Dict κ α) {key other : κ} (f : α → α) (h : other ≠ key) :
    (m.modify key f).get other = m.get other := by
  rw [modify, get_mapValues]
  simp [h]

@[simp] theorem get_insert_self (m : Dict κ α) (key : κ) (a : α) :
    (m.insert key a).get key = some a := by
  unfold insert
  split
  · next h =>
    rw [get_modify_self]
    cases hget : m.get key with
    | none => exact absurd h (get_eq_none.1 hget)
    | some b => rfl
  · exact get_eq_some.2 (List.mem_append_right _ List.mem_cons_self)

theorem values_insert_of_none {m : Dict κ α} {key : κ} (h : m.get key = none) (a : α) :
    (m.insert key a).values = m.values ++ [a] := by
  rw [insert, dif_neg (get_eq_none.1 h), values, List.map_append]
  rfl

theorem get_insert_of_ne (m : Dict κ α) {key other : κ} (a : α) (h : other ≠ key) :
    (m.insert key a).get other = m.get other := by
  unfold insert
  split
  · exact get_modify_of_ne m _ h
  · ext b
    rw [get_eq_some, get_eq_some, List.mem_append]
    constructor
    · rintro (hold | hnew)
      · exact hold
      · exact absurd (Prod.mk.inj (List.mem_singleton.1 hnew)).1 h
    · exact .inl

theorem get_erase_of_some {m : Dict κ α} {key other : κ} {a : α}
    (h : (m.erase key).get other = some a) : m.get other = some a := by
  rw [get_eq_some] at h ⊢
  exact (List.mem_filter.1 h).1

theorem get_foldl_insert {entries : List (κ × α)} {m : Dict κ α} {key : κ} {a : α}
    (h : (entries.foldl (fun m entry => m.insert entry.1 entry.2) m).get key = some a) :
    (key, a) ∈ entries ∨ m.get key = some a := by
  induction entries generalizing m with
  | nil => exact .inr h
  | cons entry rest ih =>
      rcases ih h with hrest | hinsert
      · exact .inl (List.mem_cons_of_mem entry hrest)
      · by_cases hkey : key = entry.1
        · subst hkey
          rw [get_insert_self] at hinsert
          obtain rfl := Option.some.inj hinsert
          exact .inl List.mem_cons_self
        · rw [get_insert_of_ne _ _ hkey] at hinsert
          exact .inr hinsert

/-- What a key of such a map leads to was listed with it. -/
theorem mem_of_get_ofList {entries : List (κ × α)} {key : κ} {a : α}
    (h : (ofList entries).get key = some a) : (key, a) ∈ entries := by
  rcases get_foldl_insert h with hmem | hempty
  · exact hmem
  · cases hempty

end Dict

end UnicityBridge.Lib
