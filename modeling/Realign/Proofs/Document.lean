import Realign.Document
import Realign.Proofs.Property.Unfolding
import Realign.Proofs.Table

/-!
Reading records whose members have distinct names. No member is refused as a repetition then, so
what is read is what the declared members make one after another of the value at the start, and
what is kept of the others is all of them. What every declared member keeps, every record that is
read has. A list is read item by item, a table row by row, and nothing is too deep that is
nested no deeper than a document may be.
-/
namespace Realign

namespace Document

section Items

theorem items_map {read : Json → Result α} {write : α → Json} {xs : List α}
    (h : ∀ x ∈ xs, read (write x) = .ok x) : items read (xs.map write) = .ok xs := by
  induction xs with
  | nil => rfl
  | cons x xs ih =>
    rw [List.map_cons, items, h x (List.mem_cons_self ..),
      ih fun y hy => h y (List.mem_cons_of_mem x hy)]
    rfl

theorem exists_of_items {read : Json → Result α} {found : List Json} {xs : List α}
    (h : items read found = .ok xs) {x : α} (hx : x ∈ xs) : ∃ json ∈ found, read json = .ok x := by
  induction found generalizing xs with
  | nil =>
    cases h
    cases hx
  | cons json found ih =>
    obtain ⟨first, hfirst, h⟩ := exceptBind_eq_ok.1 h
    obtain ⟨rest, hrest, h⟩ := exceptBind_eq_ok.1 h
    cases h
    rcases List.mem_cons.1 hx with rfl | hx
    · exact ⟨json, List.mem_cons_self .., hfirst⟩
    · obtain ⟨json', hmem, hread⟩ := ih hrest hx
      exact ⟨json', List.mem_cons_of_mem _ hmem, hread⟩

theorem exists_of_list {read : Json → Result α} {json : Json} {xs : List α}
    (h : list read json = .ok xs) {x : α} (hx : x ∈ xs) : ∃ item, read item = .ok x := by
  cases json with
  | array found =>
    obtain ⟨item, -, hitem⟩ := exists_of_items h hx
    exact ⟨item, hitem⟩
  | _ => cases h

theorem enterRows_map [DecidableEq κ] (key : String → Result κ) (spell : κ → String)
    {rows : List (κ × String)} (h : ∀ row ∈ rows, key (spell row.1) = .ok row.1)
    (t : Table κ String) :
    enterRows key t (rows.map fun row => (spell row.1, .string row.2)) =
      .ok (t.insertAll rows) := by
  induction rows generalizing t with
  | nil => rfl
  | cons row rows ih =>
    have hrest := ih (fun r hr => h r (List.mem_cons_of_mem row hr)) (t.insert row.1 row.2)
    rw [List.map_cons, enterRows, h row (List.mem_cons_self ..)]
    exact hrest

end Items

section Records

variable {fields : Fields α} {keep : Bool} {value value' : α} {filled : Filled α}
  {members later : List (String × Json)} {required : List String}

/-- What the declared members make of a value, one after another. -/
def setAll (fields : Fields α) : α → List (String × Json) → Result α
  | value, [] => .ok value
  | value, (name, json) :: rest =>
    match fields.lookup name with
    | some set => do setAll fields (← set json value) rest
    | none => setAll fields value rest

def declared (fields : Fields α) (members : List (String × Json)) : List (String × Json) :=
  members.filter fun m => (fields.lookup m.1).isSome

def undeclared (fields : Fields α) (members : List (String × Json)) : List (String × Json) :=
  members.filter fun m => (fields.lookup m.1).isNone

theorem setAll_append (h : setAll fields value members = .ok value') :
    setAll fields value (members ++ later) = setAll fields value' later := by
  induction members generalizing value with
  | nil =>
    cases h
    rfl
  | cons m members ih =>
    obtain ⟨name, json⟩ := m
    rw [setAll] at h
    rw [List.cons_append, setAll]
    cases hl : fields.lookup name with
    | none =>
      rw [hl] at h
      exact ih h
    | some set =>
      rw [hl] at h
      obtain ⟨v, hv, h⟩ := exceptBind_eq_ok.1 h
      simp only [hv]
      exact ih h

/-- A member whose value is put into the record. -/
theorem setAll_member (put : β → α → α) {read : Json → Result β} {name : String} {json : Json}
    {b : β} (hl : fields.lookup name = some fun json v => return put (← read json) v)
    (hread : read json = .ok b) (value : α) :
    setAll fields value [(name, json)] = .ok (put b value) := by
  simp only [setAll, hl, hread]
  rfl

theorem setAll_of_undeclared (h : ∀ m ∈ members, fields.lookup m.1 = none) :
    setAll fields value members = .ok value := by
  induction members with
  | nil => rfl
  | cons m members ih =>
    rw [setAll, h m (List.mem_cons_self ..)]
    exact ih fun x hx => h x (List.mem_cons_of_mem m hx)

/-- Members with distinct names that are not seen yet are all taken. -/
theorem fill_of_distinct (keep : Bool) (filled : Filled α) (hnd : (members.map Prod.fst).Nodup)
    (hfresh : ∀ m ∈ members, m.1 ∉ filled.seen)
    (hfit : keep = true → ∀ m ∈ undeclared fields members, m.2.isFit = true)
    (h : setAll fields filled.value members = .ok value) :
    fill fields keep filled members = .ok {
      value
      seen := ((declared fields members).map Prod.fst).reverse ++ filled.seen
      others := filled.others ++ if keep then undeclared fields members else [] } := by
  induction members generalizing filled with
  | nil =>
    cases h
    cases keep <;> simp [fill, declared, undeclared]
  | cons m members ih =>
    obtain ⟨name, json⟩ := m
    rw [List.map_cons, List.nodup_cons] at hnd
    -- the name comes only once, so seeing it refuses none of the members behind it
    have hne : ∀ m ∈ members, m.1 ≠ name :=
      fun m hm he => hnd.1 (List.mem_map.2 ⟨m, hm, he⟩)
    have hlater : ∀ m ∈ members, m.1 ∉ filled.seen :=
      fun m hm => hfresh m (List.mem_cons_of_mem _ hm)
    rw [setAll] at h
    rw [fill]
    cases hl : fields.lookup name with
    | some set =>
      rw [hl] at h
      obtain ⟨v, hv, h⟩ := exceptBind_eq_ok.1 h
      have hname : name ∉ filled.seen := hfresh _ (List.mem_cons_self ..)
      have hundeclared : undeclared fields ((name, json) :: members) =
          undeclared fields members := by simp [undeclared, hl]
      rw [hundeclared] at hfit ⊢
      have hrest := ih { filled with value := v, seen := name :: filled.seen } hnd.2
        (fun m hm => by simp [hne m hm, hlater m hm]) hfit h
      simp only [if_neg hname, hv]
      refine hrest.trans ?_
      simp [declared, hl]
    | none =>
      rw [hl] at h
      have hdeclared : declared fields ((name, json) :: members) = declared fields members := by
        simp [declared, hl]
      have hundeclared : undeclared fields ((name, json) :: members) =
          (name, json) :: undeclared fields members := by simp [undeclared, hl]
      rw [hundeclared] at hfit ⊢
      rw [hdeclared]
      cases keep with
      | false => exact ih filled hnd.2 hlater (fun hk => by cases hk) h
      | true =>
        have hjson : json.isFit = true := hfit rfl _ (List.mem_cons_self ..)
        have hrest := ih { filled with others := filled.others ++ [(name, json)] } hnd.2
          hlater (fun hk m hm => hfit hk m (List.mem_cons_of_mem _ hm)) h
        simp only [if_true, hjson]
        refine hrest.trans ?_
        simp

theorem demand_of_subset (h : required ⊆ filled.seen) : demand required filled = .ok filled := by
  rw [demand, if_pos]
  rw [List.all_eq_true]
  intro name hname
  simpa using h hname

/-- Names for members that a record declares and for others, no two of them alike. -/
structure Layout (fields : Fields α) (names others : List String) : Prop where
  distinct : (names ++ others).Nodup
  known : ∀ name ∈ names, (fields.lookup name).isSome = true
  unknown : ∀ name ∈ others, fields.lookup name = none

section Objects

variable {start : α} {names others : List String} {front back : List (String × Json)}
  (hl : Layout fields names others) (hfront : (front.map Prod.fst).Sublist names)
  (hback : (back.map Prod.fst).Sublist others)

include hl hfront hback

theorem Layout.nodup : ((front ++ back).map Prod.fst).Nodup := by
  rw [List.map_append]
  exact (hfront.append hback).nodup hl.distinct

omit hfront in
theorem Layout.setAll_back (value : α) : setAll fields value back = .ok value :=
  setAll_of_undeclared fun _ hm => hl.unknown _ (hback.subset (List.mem_map_of_mem hm))

/-- The members of a record laid out so fall apart into those that it declares and others. -/
theorem Layout.split : declared fields (front ++ back) = front ∧
    undeclared fields (front ++ back) = back := by
  have hdeclared : ∀ m ∈ front, (fields.lookup m.1).isSome = true :=
    fun m hm => hl.known _ (hfront.subset (List.mem_map_of_mem hm))
  have hundeclared : ∀ m ∈ back, fields.lookup m.1 = none :=
    fun m hm => hl.unknown _ (hback.subset (List.mem_map_of_mem hm))
  unfold declared undeclared
  rw [List.filter_append, List.filter_append, List.filter_eq_self.2 hdeclared]
  constructor
  · have hnone : back.filter (fun m => (fields.lookup m.1).isSome) = [] :=
      List.filter_eq_nil_iff.2 fun m hm => by simp [hundeclared m hm]
    rw [hnone, List.append_nil]
  · have hnone : front.filter (fun m => (fields.lookup m.1).isNone) = [] :=
      List.filter_eq_nil_iff.2 fun m hm => by
        rw [Bool.not_eq_true, Option.isNone_eq_false_iff]
        exact hdeclared m hm
    rw [hnone, List.nil_append, List.filter_eq_self]
    intro m hm
    rw [hundeclared m hm, Option.isNone_none]

variable (required) (hrequired : required ⊆ front.map Prod.fst)
  (h : setAll fields start front = .ok value)

include hrequired h

omit hback in
/-- An object with all required members is read as the declared ones make it. -/
theorem record_object : record fields required start (.object front) = .ok value := by
  have hnone : (([] : List (String × Json)).map Prod.fst).Sublist others := List.nil_sublist _
  have hnd := hl.nodup hfront hnone
  have hdeclared := (hl.split hfront hnone).1
  rw [List.append_nil] at hnd hdeclared
  have hfill := fill_of_distinct false ⟨start, [], []⟩ hnd (by simp) (fun hk => by cases hk) h
  rw [hdeclared] at hfill
  exact exceptBind_eq_ok.2 ⟨_, hfill,
    exceptBind_eq_ok.2 ⟨_, demand_of_subset (by simpa using hrequired), rfl⟩⟩

/-- So is one whose other members are kept, if these are fit. -/
theorem openRecord_object (hfit : ∀ m ∈ back, m.2.isFit = true) :
    ∃ filled, openRecord fields required start (.object (front ++ back)) = .ok filled ∧
      filled.value = value ∧ filled.others = back := by
  have hset := (setAll_append h).trans (hl.setAll_back hback value)
  obtain ⟨hdeclared, hundeclared⟩ := hl.split hfront hback
  have hfill := fill_of_distinct true ⟨start, [], []⟩ (hl.nodup hfront hback) (by simp)
    (fun _ => by rwa [hundeclared]) hset
  rw [hdeclared, hundeclared] at hfill
  exact ⟨_, exceptBind_eq_ok.2 ⟨_, hfill, demand_of_subset (by simpa using hrequired)⟩, rfl, rfl⟩

end Objects

/-- What every declared member keeps. -/
theorem fill_invariant {P : α → Prop}
    (keeps : ∀ field ∈ fields, ∀ json v w, P v → field.2 json v = .ok w → P w)
    {filled' : Filled α} (h : fill fields keep filled members = .ok filled')
    (hv : P filled.value) : P filled'.value := by
  induction members generalizing filled with
  | nil =>
    cases h
    exact hv
  | cons m members ih =>
    obtain ⟨name, json⟩ := m
    rw [fill] at h
    cases hl : fields.lookup name with
    | some set =>
      simp only [hl] at h
      split at h
      · cases h
      · obtain ⟨w, hw, h⟩ := exceptBind_eq_ok.1 h
        obtain ⟨before, after, hsplit, -⟩ := List.lookup_eq_some_iff.1 hl
        have hmem : (name, set) ∈ fields := by
          rw [hsplit]
          exact List.mem_append_right _ (List.mem_cons_self ..)
        exact ih h (keeps _ hmem json filled.value w hv hw)
    | none =>
      simp only [hl] at h
      split at h
      · split at h
        · exact ih h hv
        · cases h
      · exact ih h hv

theorem openRecord_invariant {P : α → Prop} {start : α} {json : Json} {filled' : Filled α}
    (keeps : ∀ field ∈ fields, ∀ json v w, P v → field.2 json v = .ok w → P w)
    (h : openRecord fields required start json = .ok filled') (hv : P start) : P filled'.value := by
  obtain ⟨filled, hfill, hdemand⟩ := exceptBind_eq_ok.1 h
  have hsame : filled = filled' := by
    rw [demand] at hdemand
    split at hdemand
    · exact Except.ok.inj hdemand
    · cases hdemand
  rw [← hsame]
  cases json with
  | object found => exact fill_invariant keeps hfill hv
  | broken found =>
    obtain ⟨_, -, hbroken⟩ := exceptBind_eq_ok.1 hfill
    cases hbroken
  | _ => cases hfill

end Records

end Document

namespace Json

theorem allFit_iff {items : List Json} :
    allFit items = true ↔ ∀ json ∈ items, json.isFit = true := by
  induction items with
  | nil => simp [allFit]
  | cons json items ih => simp [allFit, ih]

theorem membersFit_iff {members : List (String × Json)} :
    membersFit members = true ↔ ∀ m ∈ members, m.2.isFit = true := by
  induction members with
  | nil => simp [membersFit]
  | cons m members ih => simp [membersFit, ih]

/-- A value that is nested no deeper than so many levels. -/
def Shallow (levels : Nat) (json : Json) : Prop := json.limited levels = json

theorem limitedItems_eq {levels : Nat} {items : List Json}
    (h : ∀ json ∈ items, Shallow levels json) : limitedItems levels items = items := by
  induction items with
  | nil => rfl
  | cons json items ih =>
    rw [limitedItems, h json (List.mem_cons_self ..),
      ih fun x hx => h x (List.mem_cons_of_mem json hx)]

theorem limitedMembers_eq {levels : Nat} {members : List (String × Json)}
    (h : ∀ m ∈ members, Shallow levels m.2) : limitedMembers levels members = members := by
  induction members with
  | nil => rfl
  | cons m members ih =>
    rw [limitedMembers, h m (List.mem_cons_self ..),
      ih fun x hx => h x (List.mem_cons_of_mem m hx)]

theorem shallow_array {levels : Nat} {items : List Json}
    (h : ∀ json ∈ items, Shallow levels json) : Shallow (levels + 1) (.array items) := by
  rw [Shallow, limited, limitedItems_eq h]

theorem shallow_object {levels : Nat} {members : List (String × Json)}
    (h : ∀ m ∈ members, Shallow levels m.2) : Shallow (levels + 1) (.object members) := by
  rw [Shallow, limited, limitedMembers_eq h]

end Json

end Realign
