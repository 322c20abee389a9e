import Mathlib.Data.List.Induction
import Realign.Proofs.Lists
import Realign.Proofs.Table
import Realign.WildcardTable

/-!
Wildcard tables and their history. What a table finds depends on what was last put under a key and
on what was last put under the wildcard of its group: a group that ever had a wildcard holds the
last one and nothing else, however many artifacts were put into it before or after, and a group that
never had one holds its artifacts, each with the value that it was last given. So no group of a
table is empty or mixed, and its rows list the keys that still count, each once, with what is found
there. To put these rows one after the other is to build the same table again.
-/
namespace Realign

namespace GroupEntry

variable {α : Type} {entry : GroupEntry α}

theorem length_rows (entry : GroupEntry α) : entry.rows.length = entry.size := by
  cases entry <;> rfl

theorem nodup_artifacts (entry : GroupEntry α) : (entry.rows.map Prod.fst).Nodup := by
  cases entry with
  | every value => exact List.nodup_singleton _
  | listed artifacts => exact artifacts.nodup

theorem get?_of_mem_rows {artifact : String} {value : α} (h : (artifact, value) ∈ entry.rows) :
    entry.get? artifact = some value := by
  cases entry with
  | every old =>
    obtain ⟨-, rfl⟩ := Prod.mk.inj (List.mem_singleton.1 h)
    rfl
  | listed artifacts => exact Table.get?_eq_some.2 h

/-- A value for every artifact, or some artifacts and no wildcard among them. -/
def OneKind (entry : GroupEntry α) : Prop :=
  entry.rows.map Prod.fst = [Ident.everyArtifact] ∨
    entry.rows ≠ [] ∧ Ident.everyArtifact ∉ entry.rows.map Prod.fst

/-- An entry that is one value only if it is the value of a wildcard. -/
def Unmixed : GroupEntry α → Prop
  | .every _ => True
  | .listed artifacts => artifacts.rows ≠ [] ∧ Ident.everyArtifact ∉ artifacts.keys

theorem Unmixed.oneKind (h : entry.Unmixed) : entry.OneKind := by
  cases entry with
  | every value => exact Or.inl rfl
  | listed artifacts => exact Or.inr h

end GroupEntry

namespace WildcardTable

variable {α : Type} {t : WildcardTable α} {history later : List (Ident × α)} {group : String}

section Rows

theorem mem_rows {key : Ident} {value : α} :
    (key, value) ∈ t.rows ↔
      ∃ entry, t.groups.get? key.group = some entry ∧ (key.artifact, value) ∈ entry.rows := by
  simp only [rows, List.mem_flatMap, List.mem_map, Prod.exists, Table.get?_eq_some]
  constructor
  · rintro ⟨group, entry, hentry, artifact, value, hvalue, heq⟩
    obtain ⟨rfl, rfl⟩ := Prod.mk.inj heq
    exact ⟨entry, hentry, hvalue⟩
  · rintro ⟨entry, hentry, hvalue⟩
    exact ⟨key.group, entry, hentry, key.artifact, value, hvalue, rfl⟩

/-- What a table finds stands in one of its rows. -/
theorem exists_mem_rows {key : Ident} {value : α} (h : t.get? key = some value) :
    ∃ stored, (stored, value) ∈ t.rows := by
  obtain ⟨entry, hentry, hvalue⟩ := Option.bind_eq_some_iff.1 h
  cases entry with
  | every old =>
    obtain rfl := Option.some.inj hvalue
    exact ⟨.wildcard key.group, mem_rows.2 ⟨_, hentry, List.mem_singleton.2 rfl⟩⟩
  | listed artifacts => exact ⟨key, mem_rows.2 ⟨_, hentry, Table.get?_eq_some.1 hvalue⟩⟩

/-- Each row tells what is found under its key. -/
theorem get?_of_mem_rows {key : Ident} {value : α} (h : (key, value) ∈ t.rows) :
    t.get? key = some value := by
  obtain ⟨entry, hentry, hvalue⟩ := mem_rows.1 h
  rw [get?, hentry]
  exact GroupEntry.get?_of_mem_rows hvalue

theorem nodup_keys (t : WildcardTable α) : (t.rows.map Prod.fst).Nodup := by
  rw [rows, List.map_flatMap]
  apply nodup_flatMap_of_key Ident.group Prod.fst
  · intro row _ key hkey
    simp only [List.map_map, List.mem_map] at hkey
    obtain ⟨_, _, rfl⟩ := hkey
    rfl
  · intro row _
    have hkeys := row.2.nodup_artifacts.map (f := Ident.mk row.1)
      fun _ _ hab => (Ident.mk.inj hab).2
    rwa [List.map_map] at hkeys ⊢
  · exact t.groups.nodup

theorem length_rows (t : WildcardTable α) : t.rows.length = t.size := by
  have hcount (groups : List (String × GroupEntry α)) (count : Nat) :
      groups.foldl (fun count row => count + row.2.size) count =
        count + (groups.flatMap fun row =>
          row.2.rows.map fun entry => (Ident.mk row.1 entry.1, entry.2)).length := by
    induction groups generalizing count with
    | nil => rfl
    | cons row groups ih =>
      rw [List.foldl_cons, ih, List.flatMap_cons, List.length_append, List.length_map,
        GroupEntry.length_rows, Nat.add_assoc]
  exact ((hcount t.groups.rows 0).trans (Nat.zero_add _)).symm

end Rows

section History

/-- The table after values have been put under their keys one after another. -/
def putAll (history : List (Ident × α)) : WildcardTable α :=
  history.foldl (fun t entry => t.put entry.1 entry.2) .empty

/-- The value that was last put under a key itself. -/
def lastPut? (history : List (Ident × α)) (key : Ident) : Option α :=
  Table.valueIn key history.reverse

theorem lastPut?_append (history : List (Ident × α)) (key : Ident) (value : α) (other : Ident) :
    lastPut? (history ++ [(key, value)]) other =
      if key = other then some value else lastPut? history other := by
  rw [lastPut?, List.reverse_append]
  rfl

theorem putAll_append (history : List (Ident × α)) (key : Ident) (value : α) :
    putAll (history ++ [(key, value)]) = (putAll history).put key value :=
  List.foldl_append

/-- What a group holds after a history: nothing if nothing was put into it, the last wildcard if one
ever was, and otherwise each artifact with its last value. -/
inductive Recalls (history : List (Ident × α)) (group : String) : Option (GroupEntry α) → Prop
  | nothing (h : ∀ artifact, lastPut? history ⟨group, artifact⟩ = none) :
      Recalls history group none
  | every {value : α} (h : lastPut? history (.wildcard group) = some value) :
      Recalls history group (some (.every value))
  | listed {artifacts : Table String α} (hnever : lastPut? history (.wildcard group) = none)
      (hsome : artifacts.rows ≠ [])
      (h : ∀ artifact, artifacts.get? artifact = lastPut? history ⟨group, artifact⟩) :
      Recalls history group (some (.listed artifacts))

namespace Recalls

variable {held : Option (GroupEntry α)}

/-- Only what was put into the group counts. -/
theorem congr (hsame : ∀ artifact,
    lastPut? later ⟨group, artifact⟩ = lastPut? history ⟨group, artifact⟩)
    (h : Recalls history group held) : Recalls later group held := by
  cases h with
  | nothing h => exact .nothing fun artifact => by rw [hsame, h]
  | every h => exact .every (by rw [Ident.wildcard, hsame]; exact h)
  | listed hnever hsome h =>
    exact .listed (by rw [Ident.wildcard, hsame]; exact hnever) hsome fun artifact => by
      rw [hsame, h]

theorem found (h : Recalls history group held) (artifact : String) :
    (held.bind (·.get? artifact)) =
      (lastPut? history (.wildcard group)).or (lastPut? history ⟨group, artifact⟩) := by
  cases h with
  | nothing h => rw [Ident.wildcard, h, h]; rfl
  | every h => rw [h]; rfl
  | listed hnever _ h => rw [hnever, Option.none_or, ← h]; rfl

theorem unmixed {entry : GroupEntry α} (h : Recalls history group (some entry)) :
    entry.Unmixed := by
  cases h with
  | every h => trivial
  | @listed artifacts hnever hsome h =>
    refine ⟨hsome, fun hmem => ?_⟩
    have hfound := Table.contains_iff.2 hmem
    rw [Table.contains, h] at hfound
    rw [Ident.wildcard] at hnever
    rw [hnever] at hfound
    cases hfound

/-- The artifacts of a group are those that were put into it, unless a wildcard was, which is then
all that the group has. -/
theorem mem_artifacts_iff (h : Recalls history group held) (artifact : String) :
    (∃ entry, held = some entry ∧ artifact ∈ entry.rows.map Prod.fst) ↔
      (lastPut? history ⟨group, artifact⟩).isSome = true ∧
        (artifact = Ident.everyArtifact ∨ lastPut? history (.wildcard group) = none) := by
  cases h with
  | nothing h => simp [h]
  | every h =>
    rw [h]
    simp only [Option.some.injEq, exists_eq_left', GroupEntry.rows, List.map_cons, List.map_nil,
      List.mem_singleton, reduceCtorEq, or_false]
    constructor
    · rintro rfl
      rw [Ident.wildcard] at h
      rw [h]
      exact ⟨rfl, rfl⟩
    · exact And.right
  | @listed artifacts hnever hsome h =>
    rw [hnever, ← h]
    simp only [Option.some.injEq, exists_eq_left', or_true, and_true]
    exact Table.contains_iff.symm

/-- One more value for an artifact. -/
theorem put (h : Recalls history group held) {artifact : String}
    (hartifact : artifact ≠ Ident.everyArtifact) (value : α) :
    Recalls (history ++ [(⟨group, artifact⟩, value)]) group
      (some ((held.getD (.listed .empty)).put artifact value)) := by
  have hnext (other : String) :
      lastPut? (history ++ [(⟨group, artifact⟩, value)]) ⟨group, other⟩ =
        if artifact = other then some value else lastPut? history ⟨group, other⟩ := by
    simp only [lastPut?_append, Ident.mk.injEq, true_and]
  have hwildcard : lastPut? (history ++ [(⟨group, artifact⟩, value)]) (.wildcard group) =
      lastPut? history (.wildcard group) := by
    rw [Ident.wildcard, hnext, if_neg hartifact]
  cases h with
  | nothing h =>
    refine .listed (by rw [hwildcard]; exact h _) (Table.rows_insert_ne_nil _ _ _) fun other => ?_
    rw [Table.get?_insert, hnext, Table.get?_empty, h]
  | every h => exact .every (by rw [hwildcard, h])
  | listed hnever _ h =>
    refine .listed (by rw [hwildcard, hnever]) (Table.rows_insert_ne_nil _ _ _) fun other => ?_
    rw [Table.get?_insert, hnext, h]

end Recalls

/-- One more value under a key. -/
theorem recalls_put (h : ∀ group, Recalls history group (t.groups.get? group)) (key : Ident)
    (value : α) (group : String) :
    Recalls (history ++ [(key, value)]) group ((t.put key value).groups.get? group) := by
  rw [get?_groups_put]
  split
  · rename_i hgroup
    subst hgroup
    split
    · rename_i hwild
      have hkey : key = .wildcard key.group := by rw [Ident.wildcard, ← eq_of_beq hwild]
      exact .every (by rw [lastPut?_append, if_pos hkey])
    · rename_i hwild
      exact (h key.group).put (fun he => hwild (beq_iff_eq.2 he)) value
  · rename_i hgroup
    apply (h group).congr
    intro artifact
    rw [lastPut?_append, if_neg]
    rintro rfl
    exact hgroup rfl

theorem recalls_putAll (history : List (Ident × α)) (group : String) :
    Recalls history group ((putAll history).groups.get? group) := by
  induction history using List.reverseRecOn generalizing group with
  | nil => exact .nothing fun _ => rfl
  | append_singleton history entry ih =>
    rw [putAll_append]
    exact recalls_put ih entry.1 entry.2 group

/-- A table that shows what was put into it, key by key. -/
structure Remembers (t : WildcardTable α) (history : List (Ident × α)) : Prop where
  kinds : ∀ group entry, t.groups.get? group = some entry → entry.OneKind
  found : ∀ key, t.get? key =
    (lastPut? history (.wildcard key.group)).or (lastPut? history key)
  stored : ∀ key, key ∈ t.rows.map Prod.fst ↔ (lastPut? history key).isSome = true ∧
    (key.isWildcard = true ∨ lastPut? history (.wildcard key.group) = none)
  once : (t.rows.map Prod.fst).Nodup
  size : t.rows.length = t.size
  values : ∀ row ∈ t.rows, t.get? row.1 = some row.2

/-- However values are put, every key has the last wildcard of its group or else its own last value,
and every group one wildcard or else its artifacts. -/
theorem remembers_putAll (history : List (Ident × α)) : Remembers (putAll history) history where
  kinds group entry hentry := by
    have hrecalls := recalls_putAll history group
    rw [hentry] at hrecalls
    exact hrecalls.unmixed.oneKind
  found key := (recalls_putAll history key.group).found key.artifact
  stored key := by
    rw [Ident.isWildcard, beq_iff_eq, ← (recalls_putAll history key.group).mem_artifacts_iff]
    simp only [List.mem_map, Prod.exists, exists_and_right, exists_eq_right, mem_rows]
    constructor
    · rintro ⟨value, entry, hentry, hrow⟩
      exact ⟨entry, hentry, value, hrow⟩
    · rintro ⟨entry, hentry, value, hrow⟩
      exact ⟨value, entry, hentry, hrow⟩
  once := nodup_keys _
  size := length_rows _
  values row hrow := get?_of_mem_rows hrow

theorem mem_of_lastPut? {key : Ident} {value : α} (h : lastPut? history key = some value) :
    (key, value) ∈ history :=
  List.mem_reverse.1 (Table.mem_of_valueIn h)

/-- What stands in a row was put there, under the key of the row. -/
theorem mem_of_mem_rows {key : Ident} {value : α} (h : (key, value) ∈ (putAll history).rows) :
    (key, value) ∈ history := by
  obtain ⟨entry, hentry, hvalue⟩ := mem_rows.1 h
  have hrecalls := recalls_putAll history key.group
  rw [hentry] at hrecalls
  cases hrecalls with
  | every hlast =>
    obtain ⟨hartifact, rfl⟩ := Prod.mk.inj (List.mem_singleton.1 hvalue)
    have hkey : Ident.wildcard key.group = key := by rw [Ident.wildcard, ← hartifact]
    rw [hkey] at hlast
    exact mem_of_lastPut? hlast
  | listed _ _ hlast =>
    apply mem_of_lastPut?
    rw [← hlast]
    exact Table.get?_eq_some.2 hvalue

end History

section Rebuilding

theorem put_of_explicit {key : Ident} (hkey : key.artifact ≠ Ident.everyArtifact) (value : α) :
    t.put key value = ⟨t.groups.insert key.group
      (((t.groups.get? key.group).getD (.listed .empty)).put key.artifact value)⟩ := by
  rw [put, if_neg]
  exact fun hwild => hkey (eq_of_beq hwild)

/-- Artifacts that are put one after another into a group that has none. -/
theorem foldl_put_listed {rows : List (String × α)} (hne : rows ≠ [])
    (hnever : Ident.everyArtifact ∉ rows.map Prod.fst) (hnew : t.groups.get? group = none) :
    rows.foldl (fun t row => t.put ⟨group, row.1⟩ row.2) t =
      ⟨t.groups.insert group (.listed (.ofRows rows))⟩ := by
  induction rows using List.reverseRecOn with
  | nil => exact absurd rfl hne
  | append_singleton rows row ih =>
    rw [List.map_append, List.mem_append, not_or] at hnever
    have hrow : row.1 ≠ Ident.everyArtifact := by simpa [eq_comm] using hnever.2
    have hofRows : Table.ofRows (rows ++ [row]) = (Table.ofRows rows).insert row.1 row.2 :=
      List.foldl_append
    rw [List.foldl_append, List.foldl_cons, List.foldl_nil, hofRows]
    by_cases hrows : rows = []
    · subst hrows
      rw [List.foldl_nil, put_of_explicit hrow, hnew]
      rfl
    · rw [ih hrows hnever.1, put_of_explicit hrow, Table.get?_insert, if_pos rfl,
        Table.insert_insert]
      rfl

/-- The entry of a group that has none is put back by its own rows. -/
theorem foldl_put_rows {entry : GroupEntry α} (h : entry.Unmixed)
    (hnew : t.groups.get? group = none) :
    entry.rows.foldl (fun t row => t.put ⟨group, row.1⟩ row.2) t =
      ⟨t.groups.insert group entry⟩ := by
  cases entry with
  | every value => rfl
  | listed artifacts =>
    have hrows := foldl_put_listed h.1 h.2 hnew
    rwa [Table.ofRows_rows] at hrows

/-- A table whose groups are not mixed is put together again by its rows, in their order. -/
theorem putAll_rows (h : ∀ group entry, t.groups.get? group = some entry → entry.Unmixed) :
    putAll t.rows = t := by
  -- by induction on the groups that have been put back
  have hgroups (groups : List (String × GroupEntry α)) (hnd : (groups.map Prod.fst).Nodup)
      (hentries : ∀ row ∈ groups, row.2.Unmixed) :
      putAll (groups.flatMap fun row =>
        row.2.rows.map fun entry => (Ident.mk row.1 entry.1, entry.2)) = ⟨.ofRows groups⟩ := by
    induction groups using List.reverseRecOn with
    | nil => rfl
    | append_singleton groups row ih =>
      rw [List.map_append, List.nodup_append] at hnd
      rw [List.forall_mem_append, List.forall_mem_singleton] at hentries
      have hnew : (Table.ofRows groups).get? row.1 = none := by
        rw [Table.get?_ofRows, Table.valueIn_eq_none, List.map_reverse, List.mem_reverse]
        exact fun hmem => hnd.2.2 _ hmem _ (List.mem_singleton.2 rfl) rfl
      have hofRows : Table.ofRows (groups ++ [row]) = (Table.ofRows groups).insert row.1 row.2 :=
        List.foldl_append
      rw [List.flatMap_append, putAll, List.foldl_append, ← putAll, ih hnd.1 hentries.1,
        List.flatMap_singleton, List.foldl_map, hofRows]
      exact foldl_put_rows hentries.2 hnew
  have hrows := hgroups t.groups.rows t.groups.nodup fun row hrow =>
    h row.1 row.2 (Table.get?_eq_some.2 hrow)
  rwa [Table.ofRows_rows] at hrows

end Rebuilding

end WildcardTable
end Realign
