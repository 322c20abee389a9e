/-!
Tables whose rows keep the order in which their keys were first entered.
Entering a key again changes its value and leaves its row where it is; erasing a
key closes the gap. No key has two rows, and that is part of the type. The
lemmas say what each operation does to the value of a key and to the row of keys.
-/
namespace Realign

structure Table (κ α : Type) where
  rows : List (κ × α)
  nodup : (rows.map Prod.fst).Nodup
deriving DecidableEq, Repr

namespace Table

variable {κ α β : Type} [DecidableEq κ]

def valueIn (k : κ) : List (κ × α) → Option α
  | [] => none
  | row :: rest => if row.1 = k then some row.2 else valueIn k rest

def enter (k : κ) (v : α) : List (κ × α) → List (κ × α)
  | [] => [(k, v)]
  | row :: rest => if row.1 = k then (row.1, v) :: rest else row :: enter k v rest

omit [DecidableEq κ] in
@[ext] theorem ext {s t : Table κ α} (h : s.rows = t.rows) : s = t := by
  cases s; cases t; cases h; rfl

theorem keys_enter (k : κ) (v : α) (rows : List (κ × α)) :
    (enter k v rows).map Prod.fst =
      if k ∈ rows.map Prod.fst then rows.map Prod.fst else rows.map Prod.fst ++ [k] := by
  induction rows with
  | nil => simp [enter]
  | cons row rest ih =>
    by_cases h : row.1 = k
    · simp [enter, h]
    · have h' : ¬ k = row.1 := fun e => h e.symm
      by_cases hk : k ∈ rest.map Prod.fst <;> simp_all [enter]

theorem nodup_enter {rows : List (κ × α)} (k : κ) (v : α) (h : (rows.map Prod.fst).Nodup) :
    ((enter k v rows).map Prod.fst).Nodup := by
  rw [keys_enter]
  split
  · exact h
  · rename_i hk
    exact List.nodup_append.2 ⟨h, by simp, by
      intro a ha b hb
      simp only [List.mem_singleton] at hb
      exact fun e => hk (hb ▸ e ▸ ha)⟩

omit [DecidableEq κ] in
theorem nodup_filter {rows : List (κ × α)} (p : κ × α → Bool) (h : (rows.map Prod.fst).Nodup) :
    ((rows.filter p).map Prod.fst).Nodup :=
  (List.filter_sublist.map Prod.fst).nodup h

def empty : Table κ α := ⟨[], List.nodup_nil⟩

instance : EmptyCollection (Table κ α) := ⟨empty⟩
instance : Inhabited (Table κ α) := ⟨empty⟩

def keys (t : Table κ α) : List κ := t.rows.map Prod.fst

def size (t : Table κ α) : Nat := t.rows.length

def isEmpty (t : Table κ α) : Bool := t.rows.isEmpty

def get? (t : Table κ α) (k : κ) : Option α := valueIn k t.rows

def contains (t : Table κ α) (k : κ) : Bool := (t.get? k).isSome

def insert (t : Table κ α) (k : κ) (v : α) : Table κ α :=
  ⟨enter k v t.rows, nodup_enter k v t.nodup⟩

def erase (t : Table κ α) (k : κ) : Table κ α :=
  ⟨t.rows.filter fun row => row.1 ≠ k, nodup_filter _ t.nodup⟩

/-- Enters the rows one after another, so a repeated key keeps its first place and its last
value. -/
def insertAll (t : Table κ α) (rows : List (κ × α)) : Table κ α :=
  rows.foldl (fun table row => table.insert row.1 row.2) t

def ofRows (rows : List (κ × α)) : Table κ α := empty.insertAll rows

def mapValues (f : α → β) (t : Table κ α) : Table κ β :=
  ⟨t.rows.map fun row => (row.1, f row.2), by simpa [List.map_map, Function.comp_def] using t.nodup⟩

theorem valueIn_enter (k j : κ) (v : α) (rows : List (κ × α)) :
    valueIn j (enter k v rows) = if k = j then some v else valueIn j rows := by
  induction rows with
  | nil => simp [enter, valueIn]
  | cons row rest ih =>
    by_cases h : row.1 = k
    · by_cases hj : k = j <;> simp [enter, valueIn, h, hj]
    · by_cases hj : k = j
      · subst hj
        simp [enter, valueIn, h, ih]
      · by_cases hr : row.1 = j
        · subst hr
          simp [enter, valueIn, h, hj]
        · simp [enter, valueIn, h, hj, hr, ih]

theorem valueIn_eq_none {k : κ} {rows : List (κ × α)} :
    valueIn k rows = none ↔ k ∉ rows.map Prod.fst := by
  induction rows with
  | nil => simp [valueIn]
  | cons row rest ih =>
    by_cases h : row.1 = k
    · simp [valueIn, h]
    · have h' : ¬ k = row.1 := fun e => h e.symm
      simp_all [valueIn]

theorem valueIn_filter_ne (k j : κ) (rows : List (κ × α)) :
    valueIn j (rows.filter fun row => row.1 ≠ k) = if k = j then none else valueIn j rows := by
  induction rows with
  | nil => simp [valueIn]
  | cons row rest ih =>
    by_cases h : row.1 = k
    · by_cases hj : k = j <;> simp_all [valueIn]
    · by_cases hj : k = j <;> simp_all [valueIn]

@[simp] theorem get?_empty (k : κ) : (empty : Table κ α).get? k = none := rfl

omit [DecidableEq κ] in
@[simp] theorem rows_empty : (empty : Table κ α).rows = [] := rfl

theorem get?_insert (t : Table κ α) (k j : κ) (v : α) :
    (t.insert k v).get? j = if k = j then some v else t.get? j :=
  valueIn_enter k j v t.rows

theorem get?_erase (t : Table κ α) (k j : κ) :
    (t.erase k).get? j = if k = j then none else t.get? j :=
  valueIn_filter_ne k j t.rows

theorem keys_insert (t : Table κ α) (k : κ) (v : α) :
    (t.insert k v).keys = if k ∈ t.keys then t.keys else t.keys ++ [k] :=
  keys_enter k v t.rows

theorem get?_eq_none {t : Table κ α} {k : κ} : t.get? k = none ↔ k ∉ t.keys :=
  valueIn_eq_none

theorem contains_iff {t : Table κ α} {k : κ} : t.contains k = true ↔ k ∈ t.keys := by
  rw [contains, Option.isSome_iff_ne_none, Ne, get?_eq_none, Classical.not_not]

theorem mem_keys_of_get? {t : Table κ α} {k : κ} {v : α} (h : t.get? k = some v) : k ∈ t.keys :=
  contains_iff.1 (by simp [contains, h])

theorem keys_insert_of_get? {t : Table κ α} {k : κ} {u : α} (v : α) (h : t.get? k = some u) :
    (t.insert k v).keys = t.keys := by
  rw [keys_insert, if_pos (mem_keys_of_get? h)]

theorem get?_mapValues (f : α → β) (t : Table κ α) (k : κ) :
    (t.mapValues f).get? k = (t.get? k).map f := by
  obtain ⟨rows, nodup⟩ := t
  simp only [get?, mapValues]
  clear nodup
  induction rows with
  | nil => rfl
  | cons row rest ih =>
    by_cases h : row.1 = k
    · simp [valueIn, h]
    · simpa [valueIn, h] using ih

theorem valueIn_eq_some {k : κ} {v : α} {rows : List (κ × α)}
    (nd : (rows.map Prod.fst).Nodup) : valueIn k rows = some v ↔ (k, v) ∈ rows := by
  induction rows with
  | nil => simp [valueIn]
  | cons row rest ih =>
    obtain ⟨a, b⟩ := row
    simp only [List.map_cons, List.nodup_cons] at nd
    by_cases h : a = k
    · subst h
      have hn : (a, v) ∉ rest := fun hm => nd.1 (List.mem_map_of_mem hm)
      simp [valueIn, hn, eq_comm]
    · have h' : ¬ k = a := fun e => h e.symm
      simp [valueIn, h, h', ih nd.2]

theorem get?_eq_some {t : Table κ α} {k : κ} {v : α} :
    t.get? k = some v ↔ (k, v) ∈ t.rows :=
  valueIn_eq_some t.nodup

end Table
end Realign
