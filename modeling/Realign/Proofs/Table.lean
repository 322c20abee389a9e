import Mathlib.Data.List.Nodup
import Realign.Table

/-!
Tables and rows. A table is made of its rows, and is known by its keys in their order with the value
of each. Of rows that are entered one after another a table keeps the last one of every key, at the
place of the first; rows with fresh keys come behind those that are there.
-/
namespace Realign.Table

variable {κ α β γ : Type} [DecidableEq κ]

theorem rows_insert_ne_nil (t : Table κ α) (k : κ) (v : α) : (t.insert k v).rows ≠ [] := by
  intro h
  have hfound := t.get?_insert k k v
  rw [if_pos rfl, get?, h] at hfound
  cases hfound

theorem enter_of_not_mem {k : κ} {v : α} {rows : List (κ × α)} (h : k ∉ rows.map Prod.fst) :
    enter k v rows = rows ++ [(k, v)] := by
  induction rows with
  | nil => rfl
  | cons row rows ih =>
    rw [List.map_cons, List.mem_cons, not_or] at h
    rw [enter, if_neg (Ne.symm h.1), ih h.2, List.cons_append]

/-- Rows with fresh keys come behind those that are there. -/
theorem rows_insertAll {t : Table κ α} {rows : List (κ × α)}
    (h : ((t.rows ++ rows).map Prod.fst).Nodup) : (t.insertAll rows).rows = t.rows ++ rows := by
  induction rows generalizing t with
  | nil => exact (List.append_nil _).symm
  | cons row rows ih =>
    have hfresh : row.1 ∉ t.rows.map Prod.fst := by
      intro hmem
      rw [List.map_append, List.map_cons, List.nodup_append] at h
      exact h.2.2 _ hmem _ (List.mem_cons_self ..) rfl
    have hinsert : (t.insert row.1 row.2).rows = t.rows ++ [row] := enter_of_not_mem hfresh
    have hstep : t.insertAll (row :: rows) = (t.insert row.1 row.2).insertAll rows := rfl
    rw [hstep, ih (by rwa [hinsert, List.append_assoc]), hinsert, List.append_assoc]
    rfl

/-- A table is made of its rows. -/
theorem ofRows_rows (t : Table κ α) : ofRows t.rows = t :=
  Table.ext (rows_insertAll (t := empty) t.nodup)

theorem insert_of_get? {t : Table κ α} {k : κ} {v : α} (h : t.get? k = some v) :
    t.insert k v = t := by
  apply ext
  have henter (rows : List (κ × α)) (hrows : valueIn k rows = some v) : enter k v rows = rows := by
    induction rows with
    | nil => cases hrows
    | cons row rows ih =>
      rw [valueIn] at hrows
      rw [enter]
      split at hrows
      · rename_i hk
        rw [if_pos hk, ← Option.some.inj hrows]
      · rename_i hk
        rw [if_neg hk, ih hrows]
  exact henter t.rows h

theorem insert_insert (t : Table κ α) (k : κ) (u v : α) :
    (t.insert k u).insert k v = t.insert k v := by
  apply ext
  have henter (rows : List (κ × α)) : enter k v (enter k u rows) = enter k v rows := by
    induction rows with
    | nil => simp [enter]
    | cons row rows ih => by_cases hk : row.1 = k <;> simp [enter, hk, ih]
  exact henter t.rows

/-- Entering a key that has a row changes what stands in the row. -/
theorem exists_rows_insert {t : Table κ α} {k : κ} {old : α} (h : t.get? k = some old) (v : α) :
    ∃ position : Nat, t.rows[position]? = some (k, old) ∧
      (t.insert k v).rows = t.rows.set position (k, v) := by
  obtain ⟨rows, nodup⟩ := t
  simp only [get?, insert] at h ⊢
  clear nodup
  induction rows with
  | nil => cases h
  | cons row rows ih =>
    rw [valueIn] at h
    split at h
    · rename_i hk
      obtain rfl := Option.some.inj h
      obtain rfl := hk
      exact ⟨0, rfl, by simp [enter]⟩
    · rename_i hk
      obtain ⟨position, hold, hnew⟩ := ih h
      exact ⟨position + 1, hold, by rw [enter, if_neg hk, hnew, List.set_cons_succ]⟩

theorem rows_eq (t : Table κ α) :
    t.rows = t.keys.filterMap fun k => (t.get? k).map (k, ·) := by
  have hrow (row : κ × α) (hrow : row ∈ t.rows) :
      (t.get? row.1).map (row.1, ·) = some row := by
    rw [get?_eq_some.2 hrow]
    rfl
  rw [keys, List.filterMap_map]
  calc t.rows = t.rows.filterMap some := List.filterMap_some.symm
    _ = _ := List.filterMap_congr fun row hmem => (hrow row hmem).symm

/-- A table is known by its keys in their order and the value of each. -/
theorem ext_get? {s t : Table κ α} (hkeys : s.keys = t.keys) (h : ∀ k, s.get? k = t.get? k) :
    s = t := by
  apply Table.ext
  rw [rows_eq, rows_eq, hkeys]
  simp only [h]

/-- Rows that are chosen by their keys, with what is made of their values. -/
theorem mem_map_filter_rows {t : Table κ α} {k : κ} {b : β} (p : κ → Bool) (f : α → β) :
    (k, b) ∈ (t.rows.filter fun row => p row.1).map (fun row => (row.1, f row.2)) ↔
      p k = true ∧ (t.get? k).map f = some b := by
  rw [List.mem_map, Option.map_eq_some_iff]
  constructor
  · intro h
    obtain ⟨⟨k', a⟩, hrow, he⟩ := h
    obtain ⟨rfl, rfl⟩ := Prod.mk.inj he
    obtain ⟨hmem, hp⟩ := List.mem_filter.1 hrow
    exact ⟨hp, a, get?_eq_some.2 hmem, rfl⟩
  · intro h
    obtain ⟨hp, a, ha, rfl⟩ := h
    exact ⟨(k, a), List.mem_filter.2 ⟨get?_eq_some.1 ha, hp⟩, rfl⟩

omit [DecidableEq κ] in
theorem mapValues_id (t : Table κ α) : t.mapValues (fun v => v) = t := by
  apply ext
  exact List.map_id t.rows

omit [DecidableEq κ] in
theorem mapValues_mapValues (t : Table κ α) (f : α → β) (g : β → γ) :
    (t.mapValues f).mapValues g = t.mapValues fun v => g (f v) := by
  apply ext
  exact List.map_map

/-- What is found under a key stands there. -/
theorem mem_of_valueIn {k : κ} {v : α} {rows : List (κ × α)} (h : valueIn k rows = some v) :
    (k, v) ∈ rows := by
  induction rows with
  | nil => cases h
  | cons row rows ih =>
    rw [valueIn] at h
    split at h
    · rename_i hk
      obtain rfl := Option.some.inj h
      exact List.mem_cons.2 (Or.inl (Prod.ext hk.symm rfl))
    · exact List.mem_cons_of_mem _ (ih h)

theorem valueIn_append (k : κ) (left right : List (κ × α)) :
    valueIn k (left ++ right) = (valueIn k left).or (valueIn k right) := by
  induction left with
  | nil => rfl
  | cons row left ih =>
    rw [List.cons_append, valueIn, valueIn]
    split
    · rfl
    · exact ih

/-- Of the rows that are entered one after another the last one of a key is kept. -/
theorem get?_insertAll (t : Table κ α) (rows : List (κ × α)) (k : κ) :
    (t.insertAll rows).get? k = (valueIn k rows.reverse).or (t.get? k) := by
  induction rows generalizing t with
  | nil => rfl
  | cons row rows ih =>
    have hstep : t.insertAll (row :: rows) = (t.insert row.1 row.2).insertAll rows := rfl
    rw [hstep, ih, List.reverse_cons, valueIn_append, get?_insert, Option.or_assoc]
    congr 1
    by_cases hk : row.1 = k <;> simp [valueIn, hk]

theorem get?_ofRows (rows : List (κ × α)) (k : κ) :
    (ofRows rows).get? k = valueIn k rows.reverse := by
  rw [ofRows, get?_insertAll, get?_empty, Option.or_none]

/-- In a table the first row of a key is also the last. -/
theorem valueIn_reverse_rows (t : Table κ α) (k : κ) : valueIn k t.rows.reverse = t.get? k := by
  have hnd : (t.rows.reverse.map Prod.fst).Nodup := by
    rw [List.map_reverse, List.nodup_reverse]
    exact t.nodup
  apply Option.ext
  intro v
  rw [get?_eq_some, valueIn_eq_some hnd, List.mem_reverse]

theorem valueIn_reverse_flatMap (k : κ) (f : β → List (κ × α)) (l : List β) :
    valueIn k (l.flatMap f).reverse = l.reverse.findSome? fun b => valueIn k (f b).reverse := by
  induction l with
  | nil => rfl
  | cons b l ih =>
    rw [List.flatMap_cons, List.reverse_append, valueIn_append, ih, List.reverse_cons,
      List.findSome?_append, List.findSome?_singleton]

end Realign.Table
