import Mathlib.Data.List.Flatten
import Realign.Proofs.Forest.Change

/-!
Artifact slots. The slots of a forest stand in the order of their modules, then of the places in a
module, the kinds and the positions in a list, so it has every slot once. Changing the artifact of
a slot changes no other artifact, no version and no property. Artifacts that are added at the
end of a list leave those before them in their slots, so the slots from before keep their order.
-/
namespace Realign

namespace Place

/-- The main section comes before the profiles. -/
def rank : Place → Nat
  | .main => 0
  | .profile index => index + 1

end Place

namespace ArtifactKind

def rank (kind : ArtifactKind) : Nat := all.idxOf kind

end ArtifactKind

namespace Slot

/-- What slots are ordered by, the most significant first. -/
def key (slot : Slot) : List Nat := [slot.holder, slot.place.rank, slot.kind.rank, slot.index]

/-- The lexicographic order of the keys. -/
def Precedes (a b : Slot) : Prop := a.key < b.key

theorem Precedes.ne {a b : Slot} (h : a.Precedes b) : a ≠ b := by
  rintro rfl
  exact List.lt_irrefl _ h

theorem precedes_iff {a b : Slot} :
    a.Precedes b ↔ a.holder < b.holder ∨ a.holder = b.holder ∧
      (a.place.rank < b.place.rank ∨ a.place.rank = b.place.rank ∧
        (a.kind.rank < b.kind.rank ∨ a.kind.rank = b.kind.rank ∧ a.index < b.index)) := by
  simp [Precedes, key, List.cons_lt_cons_iff]

end Slot

namespace Module

theorem pairwise_places (m : Module) : m.places.Pairwise fun a b => a.rank < b.rank := by
  rw [places_eq, List.pairwise_cons]
  constructor
  · intro place hplace
    obtain ⟨row, -, rfl⟩ := List.mem_map.1 hplace
    exact Nat.succ_pos _
  · have hrows : m.profiles.zipIdx.Pairwise fun a b => a.2 < b.2 := by
      rw [← List.pairwise_map (f := Prod.snd) (R := fun a b : Nat => a < b), List.zipIdx_map_snd]
      exact List.pairwise_lt_range'
    rw [List.pairwise_map]
    exact (hrows.sublist List.filter_sublist).imp Nat.succ_lt_succ

end Module

namespace Forest

section Listing

variable {F : Forest} {i : Nat} {place : Place} {slot : Slot}

/-- How many artifacts a module declares at a place in a list. -/
def countOf (F : Forest) (i : Nat) (place : Place) (kind : ArtifactKind) : Nat :=
  ((F.artifacts? i place kind).getD []).length

def slotsAt (F : Forest) (i : Nat) (place : Place) : List Slot :=
  ArtifactKind.all.flatMap fun kind =>
    (List.range (F.countOf i place kind)).map fun index => ⟨i, place, kind, index⟩

theorem slotsOf_eq_slotsAt {m : Module} (hm : F.modules[i]? = some m) (place : Place) :
    slotsOf m i place = F.slotsAt i place := by
  unfold slotsOf slotsAt countOf artifacts? body?
  rw [hm, Option.bind_some]
  cases m.body? place with
  | none => rfl
  | some body => rfl

/-- The slots of a forest depend on its places and on how many artifacts each list has. -/
theorem slots_eq (F : Forest) :
    F.slots = (List.range F.size).flatMap fun i => (F.placesOf i).flatMap (F.slotsAt i) := by
  have hmodule (row : Module × Nat) (hrow : row ∈ F.modules.zipIdx) :
      row.1.places.flatMap (slotsOf row.1 row.2) =
        (F.placesOf row.2).flatMap (F.slotsAt row.2) := by
    have hm : F.modules[row.2]? = some row.1 := List.mem_zipIdx_iff_getElem?.1 hrow
    rw [placesOf, hm, Option.map_some, Option.getD_some]
    exact List.flatMap_congr fun place _ => slotsOf_eq_slotsAt hm place
  have hindices : List.range F.size = F.modules.zipIdx.map Prod.snd := by
    rw [List.zipIdx_map_snd, List.range_eq_range', size]
  rw [slots, hindices, List.flatMap_map]
  exact List.flatMap_congr hmodule

theorem mem_slotsAt (h : slot ∈ F.slotsAt i place) : slot.holder = i ∧ slot.place = place := by
  obtain ⟨kind, -, h⟩ := List.mem_flatMap.1 h
  obtain ⟨index, -, rfl⟩ := List.mem_map.1 h
  exact ⟨rfl, rfl⟩

theorem pairwise_slotsAt (F : Forest) (i : Nat) (place : Place) :
    (F.slotsAt i place).Pairwise Slot.Precedes := by
  have hkinds : ArtifactKind.all.Pairwise fun a b => a.rank < b.rank := by decide
  rw [slotsAt, List.pairwise_flatMap]
  constructor
  · intro kind _
    rw [List.pairwise_map]
    apply List.pairwise_lt_range.imp
    intro a b hab
    exact Slot.precedes_iff.2 (Or.inr ⟨rfl, Or.inr ⟨rfl, Or.inr ⟨rfl, hab⟩⟩⟩)
  · apply hkinds.imp
    intro kind kind' hlt a ha b hb
    obtain ⟨_, -, rfl⟩ := List.mem_map.1 ha
    obtain ⟨_, -, rfl⟩ := List.mem_map.1 hb
    exact Slot.precedes_iff.2 (Or.inr ⟨rfl, Or.inr ⟨rfl, Or.inl hlt⟩⟩)

theorem pairwise_placesOf (F : Forest) (i : Nat) :
    (F.placesOf i).Pairwise fun a b => a.rank < b.rank := by
  rw [placesOf]
  cases F.modules[i]? with
  | none => exact List.Pairwise.nil
  | some m => exact m.pairwise_places

/-- The slots of a forest stand in their order. -/
theorem pairwise_slots (F : Forest) : F.slots.Pairwise Slot.Precedes := by
  rw [slots_eq, List.pairwise_flatMap]
  constructor
  · intro i _
    rw [List.pairwise_flatMap]
    refine ⟨fun place _ => F.pairwise_slotsAt i place, ?_⟩
    apply (F.pairwise_placesOf i).imp
    intro place place' hlt a ha b hb
    obtain ⟨rfl, rfl⟩ := mem_slotsAt ha
    obtain ⟨hholder, rfl⟩ := mem_slotsAt hb
    exact Slot.precedes_iff.2 (Or.inr ⟨hholder.symm, Or.inl hlt⟩)
  · apply List.pairwise_lt_range.imp
    intro i j hlt a ha b hb
    obtain ⟨_, -, ha⟩ := List.mem_flatMap.1 ha
    obtain ⟨_, -, hb⟩ := List.mem_flatMap.1 hb
    obtain ⟨rfl, -⟩ := mem_slotsAt ha
    obtain ⟨rfl, -⟩ := mem_slotsAt hb
    exact Slot.precedes_iff.2 (Or.inl hlt)

/-- A forest has every slot once. -/
theorem nodup_slots (F : Forest) : F.slots.Nodup := F.pairwise_slots.imp Slot.Precedes.ne

end Listing

theorem main_mem_placesOf {F : Forest} {i : Nat} (hi : i < F.size) : .main ∈ F.placesOf i := by
  have hm : F.modules[i]? = some F.modules[i] := List.getElem?_eq_getElem hi
  rw [placesOf, hm, Option.map_some, Option.getD_some, Module.places_eq]
  exact List.mem_cons_self ..

/-- Every artifact at a place that counts has its slot among those of the forest. -/
theorem mem_slots {F : Forest} {slot : Slot} {a : Artifact} (h : F.artifact? slot = some a)
    (hplace : slot.place ∈ F.placesOf slot.holder) : slot ∈ F.slots := by
  obtain ⟨m, hm, h⟩ := Option.bind_eq_some_iff.1 h
  obtain ⟨body, hb, h⟩ := Option.bind_eq_some_iff.1 h
  obtain ⟨hlt, -⟩ := List.getElem?_eq_some_iff.1 h
  rw [placesOf, hm] at hplace
  refine List.mem_flatMap.2 ⟨(m, slot.holder), List.mem_zipIdx_iff_getElem?.2 hm, ?_⟩
  refine List.mem_flatMap.2 ⟨slot.place, hplace, ?_⟩
  rw [slotsOf, hb]
  have hkind : slot.kind ∈ ArtifactKind.all := by
    cases slot.kind <;> decide
  refine List.mem_flatMap.2 ⟨slot.kind, hkind, ?_⟩
  exact List.mem_map.2 ⟨slot.index, List.mem_range.2 hlt, rfl⟩

section Artifact

variable (F : Forest) (slot other : Slot)

theorem artifact?_eq :
    F.artifact? slot =
      (F.artifacts? slot.holder slot.place slot.kind).bind (·[slot.index]?) := by
  unfold artifact? artifacts? body?
  cases F.modules[slot.holder]? with
  | none => rfl
  | some m =>
    simp only [Option.bind_eq_bind, Option.bind_some]
    cases m.body? slot.place <;> rfl

theorem artifact?_modifyArtifact (f : Artifact → Artifact) :
    (F.modifyArtifact slot f).artifact? other =
      if slot = other then (F.artifact? other).map f else F.artifact? other := by
  obtain ⟨i, place, kind, index⟩ := slot
  obtain ⟨j, place', kind', index'⟩ := other
  rw [modifyArtifact, artifact?_eq, artifact?_eq, artifacts?_modifyArtifacts]
  simp only [Slot.mk.injEq]
  by_cases h : i = j ∧ place = place' ∧ kind = kind'
  · rw [if_pos h]
    obtain ⟨rfl, rfl, rfl⟩ := h
    cases F.artifacts? i place kind with
    | none => simp
    | some artifacts =>
      by_cases hi : index = index'
      · simp [hi]
      · simp [hi]
  · rw [if_neg h, if_neg (fun h' => h ⟨h'.1, h'.2.1, h'.2.2.1⟩)]

theorem artifact?_setVersion (i : Nat) (version : String) :
    (F.setVersion i version).artifact? slot = F.artifact? slot := by
  rw [artifact?_eq, artifact?_eq, artifacts?_setVersion]

/-- What is added at the end of a list of artifacts moves none of them. -/
theorem artifact?_append {F : Forest} {slot : Slot} {a : Artifact} (h : F.artifact? slot = some a)
    (i : Nat) (place : Place) (kind : ArtifactKind) (more : List Artifact) :
    (F.modifyArtifacts i place kind (· ++ more)).artifact? slot = some a := by
  rw [artifact?_eq] at h ⊢
  obtain ⟨artifacts, hl, ha⟩ := Option.bind_eq_some_iff.1 h
  rw [artifacts?_modifyArtifacts, hl]
  split
  · obtain ⟨hlt, -⟩ := List.getElem?_eq_some_iff.1 ha
    rw [Option.map_some, Option.bind_some, List.getElem?_append_left hlt]
    exact ha
  · exact ha

/-- An artifact in a forest that another was added to stood there before or is the one that was
added. -/
theorem artifact?_append_cases {F : Forest} {slot : Slot} {a b : Artifact} {i : Nat}
    {place : Place} {kind : ArtifactKind}
    (h : (F.modifyArtifacts i place kind (· ++ [a])).artifact? slot = some b) :
    F.artifact? slot = some b ∨
      (i = slot.holder ∧ place = slot.place ∧ kind = slot.kind) ∧ b = a := by
  rw [artifact?_eq] at h ⊢
  rw [artifacts?_modifyArtifacts] at h
  split at h
  · rename_i hlist
    cases hl : F.artifacts? slot.holder slot.place slot.kind with
    | none =>
      rw [hl] at h
      cases h
    | some artifacts =>
      rw [hl, Option.map_some, Option.bind_some, List.getElem?_append] at h
      split at h
      · exact Or.inl h
      · refine Or.inr ⟨hlist, ?_⟩
        rw [List.getElem?_singleton] at h
        split at h
        · exact (Option.some.inj h).symm
        · cases h
  · exact Or.inl h

theorem sameProperties_modifyArtifact (f : Artifact → Artifact) :
    SameProperties F (F.modifyArtifact slot f) :=
  F.sameProperties_modifyArtifacts _ _ _ _

theorem version?_modifyArtifact (f : Artifact → Artifact) (i : Nat) :
    (F.modifyArtifact slot f).version? i = F.version? i :=
  F.version?_modifyArtifacts _ _ _ _ i

end Artifact

section Members

variable {F G : Forest}

theorem lt_countOf_iff {i index : Nat} {place : Place} {kind : ArtifactKind} :
    index < F.countOf i place kind ↔ ∃ a, F.artifact? ⟨i, place, kind, index⟩ = some a := by
  rw [artifact?_eq, countOf]
  cases F.artifacts? i place kind with
  | none => simp
  | some artifacts => simp [List.getElem?_eq_some_iff]

/-- A slot of a forest is at a place that counts, and there is an artifact in it. -/
theorem of_mem_slots {slot : Slot} (h : slot ∈ F.slots) :
    slot.place ∈ F.placesOf slot.holder ∧ ∃ a, F.artifact? slot = some a := by
  rw [slots_eq] at h
  obtain ⟨i, -, h⟩ := List.mem_flatMap.1 h
  obtain ⟨place, hplace, h⟩ := List.mem_flatMap.1 h
  obtain ⟨kind, -, h⟩ := List.mem_flatMap.1 h
  obtain ⟨index, hindex, rfl⟩ := List.mem_map.1 h
  exact ⟨hplace, lt_countOf_iff.1 (List.mem_range.1 hindex)⟩

/-- Where every slot is taken that was taken before, the slots stand in the same order, with others
between them. -/
theorem sublist_slots (hsize : G.size = F.size) (hplaces : ∀ i, G.placesOf i = F.placesOf i)
    (h : ∀ slot a, F.artifact? slot = some a → ∃ b, G.artifact? slot = some b) :
    F.slots.Sublist G.slots := by
  have hcount (i : Nat) (place : Place) (kind : ArtifactKind) :
      F.countOf i place kind ≤ G.countOf i place kind := by
    cases hn : F.countOf i place kind with
    | zero => exact Nat.zero_le _
    | succ n =>
      have hlast : n < F.countOf i place kind := by omega
      obtain ⟨a, ha⟩ := lt_countOf_iff.1 hlast
      exact lt_countOf_iff.2 (h _ a ha)
  rw [slots_eq, slots_eq, hsize]
  apply List.Sublist.flatMap_right
  intro i _
  rw [hplaces]
  apply List.Sublist.flatMap_right
  intro place _
  apply List.Sublist.flatMap_right
  intro kind _
  exact (List.range_sublist.2 (hcount i place kind)).map _

end Members

/-- A forest with more artifacts, and otherwise the same. -/
structure Extends (F G : Forest) : Prop where
  same : SameProperties F G
  versions : ∀ i, G.version? i = F.version? i
  artifacts : ∀ slot a, F.artifact? slot = some a → G.artifact? slot = some a

namespace Extends

theorem refl (F : Forest) : Extends F F :=
  ⟨SameProperties.refl F, fun _ => rfl, fun _ _ h => h⟩

theorem trans {F G H : Forest} (h : Extends F G) (h' : Extends G H) : Extends F H :=
  ⟨h.same.trans h'.same, fun i => (h'.versions i).trans (h.versions i),
    fun slot a ha => h'.artifacts slot a (h.artifacts slot a ha)⟩

theorem mem_slots {F G : Forest} (h : Extends F G) {slot : Slot} {a : Artifact}
    (ha : F.artifact? slot = some a) (hslot : slot ∈ F.slots) : slot ∈ G.slots := by
  apply Forest.mem_slots (h.artifacts slot a ha)
  rw [h.same.places]
  exact (of_mem_slots hslot).1

theorem append (F : Forest) (i : Nat) (place : Place) (kind : ArtifactKind)
    (more : List Artifact) : Extends F (F.modifyArtifacts i place kind (· ++ more)) :=
  ⟨F.sameProperties_modifyArtifacts .., fun _ => F.version?_modifyArtifacts .., fun _ _ ha =>
    artifact?_append ha i place kind more⟩

end Extends

end Forest
end Realign
