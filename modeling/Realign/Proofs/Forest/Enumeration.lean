import Realign.Proofs.Forest.Slots

/-!
Slots as an enumeration. A forest has a slot wherever a place that counts has an artifact, and no
other, and to look its slots up in their order is to read the artifacts that count. All of this
depends on how long the lists of artifacts are and on which profiles are active, so the slots stay
the same while a forest keeps its shape.
-/
namespace Realign

namespace Module

/-- The artifacts of the main section and of the active profiles, kind by kind. -/
def activeArtifacts (m : Module) : List Artifact :=
  (m.main :: m.activeProfiles.map Profile.body).flatMap fun body =>
    ArtifactKind.all.flatMap body.artifacts.get

end Module

namespace Forest

variable {F G H : Forest} {i : Nat} {place : Place} {slot : Slot}

def activeArtifacts (F : Forest) : List Artifact := F.modules.flatMap Module.activeArtifacts

/-- The place is the main section of a module or one of its active profiles. -/
def Counts (F : Forest) (i : Nat) (place : Place) : Prop :=
  ∃ m, F.modules[i]? = some m ∧
    (place = .main ∨ ∃ index profile, place = .profile index ∧
      m.profiles[index]? = some profile ∧ profile.active = true)

theorem mem_placesOf : place ∈ F.placesOf i ↔ F.Counts i place := by
  rw [placesOf, Counts]
  cases F.modules[i]? with
  | none => simp
  | some m => simp [Module.mem_places]

theorem mem_slots_iff : slot ∈ F.slots ↔
    F.Counts slot.holder slot.place ∧ ∃ a, F.artifact? slot = some a := by
  rw [← mem_placesOf]
  constructor
  · exact of_mem_slots
  · rintro ⟨hplace, a, ha⟩
    exact mem_slots ha hplace

section Lookup

/-- What stands in the slots of one place, kind by kind. -/
theorem map_artifact?_slotsOf {m : Module} (hm : F.modules[i]? = some m) (place : Place) :
    (slotsOf m i place).map F.artifact? =
      ((m.body? place).toList.flatMap fun body =>
        ArtifactKind.all.flatMap body.artifacts.get).map some := by
  rw [slotsOf]
  cases hbody : m.body? place with
  | none => rfl
  | some body =>
    have hartifact (kind : ArtifactKind) (index : Nat) :
        F.artifact? ⟨i, place, kind, index⟩ = (body.artifacts.get kind)[index]? := by
      simp [artifact?, hm, hbody]
    simp only [List.map_flatMap, List.map_map, Option.toList_some, List.flatMap_singleton]
    apply List.flatMap_congr
    intro kind _
    rw [← map_getElem?_range]
    exact List.map_congr_left fun index _ => hartifact kind index

theorem map_artifact?_places {m : Module} (hm : F.modules[i]? = some m) :
    (m.places.flatMap (slotsOf m i)).map F.artifact? = m.activeArtifacts.map some := by
  rw [Module.activeArtifacts, ← Module.filterMap_body?_places, List.filterMap_eq_flatMap_toList,
    List.flatMap_assoc, List.map_flatMap, List.map_flatMap]
  exact List.flatMap_congr fun place _ => map_artifact?_slotsOf hm place

/-- Looking up the slots one after the other reads the artifacts that count. -/
theorem map_artifact?_slots (F : Forest) :
    F.slots.map F.artifact? = F.activeArtifacts.map some := by
  have hrows : F.modules = F.modules.zipIdx.map Prod.fst := (List.zipIdx_map_fst _ _).symm
  rw [activeArtifacts, hrows, List.flatMap_map, slots, List.map_flatMap, List.map_flatMap]
  apply List.flatMap_congr
  intro row hrow
  exact map_artifact?_places (List.mem_zipIdx_iff_getElem?.1 hrow)

end Lookup

/-- The slots of a forest are in their order, so none is repeated, and it has one for every artifact
in its place if that counts. -/
structure Enumerated (F : Forest) : Prop where
  ordered : F.slots.Pairwise Slot.Precedes
  mem_iff : ∀ slot, slot ∈ F.slots ↔
    F.Counts slot.holder slot.place ∧ ∃ a, F.artifact? slot = some a
  lookup : F.slots.map F.artifact? = F.activeArtifacts.map some

theorem enumerated (F : Forest) : F.Enumerated :=
  ⟨F.pairwise_slots, fun _ => mem_slots_iff, F.map_artifact?_slots⟩

/-- Forests with the same places that count and lists of artifacts of the same lengths. -/
structure SameShape (F G : Forest) : Prop where
  size : G.size = F.size
  places : ∀ i, G.placesOf i = F.placesOf i
  counts : ∀ i place kind, G.countOf i place kind = F.countOf i place kind

namespace SameShape

theorem refl (F : Forest) : SameShape F F := ⟨rfl, fun _ => rfl, fun _ _ _ => rfl⟩

theorem trans (h : SameShape F G) (h' : SameShape G H) : SameShape F H :=
  ⟨h'.size.trans h.size, fun i => (h'.places i).trans (h.places i),
    fun i place kind => (h'.counts i place kind).trans (h.counts i place kind)⟩

/-- The slots are those of every forest with the same shape. -/
theorem slots (h : SameShape F G) : G.slots = F.slots := by
  have hslotsAt : G.slotsAt = F.slotsAt := by
    funext i place
    simp only [slotsAt, h.counts]
  simp only [slots_eq, h.size, h.places, hslotsAt]

end SameShape

theorem sameShape_modifyArtifact (F : Forest) (slot : Slot) (f : Artifact → Artifact) :
    SameShape F (F.modifyArtifact slot f) where
  size := size_eq_of_links (F.sameProperties_modifyArtifact slot f).links
  places := (F.sameProperties_modifyArtifact slot f).places
  counts i place kind := by
    rw [countOf, modifyArtifact, artifacts?_modifyArtifacts, countOf]
    split
    · cases F.artifacts? i place kind <;> simp
    · rfl

theorem sameShape_setVersion (F : Forest) (i : Nat) (version : String) :
    SameShape F (F.setVersion i version) where
  size := size_eq_of_links (F.sameProperties_setVersion i version).links
  places := (F.sameProperties_setVersion i version).places
  counts j place kind := by rw [countOf, artifacts?_setVersion, countOf]

end Forest
end Realign
