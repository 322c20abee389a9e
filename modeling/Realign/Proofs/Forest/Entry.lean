import Realign.Property.Declaration
import Realign.Proofs.Forest.Inheritance
import Realign.Proofs.Lists

/-!
The property entries of a forest: what a module declares at a place under a name. A
declaration is the first entry that a search through the counting places of the
inheritance chain meets. Forests that have the same chains, places and names declare
a property at the same entry, and only the values that they give there can differ.
Of the changes that a forest can undergo, setting a version and changing artifacts leave
every table of properties alone, and setting a property changes one value.
-/
namespace Realign

namespace Module

@[simp] theorem places_withVersion (version : String) (m : Module) :
    (m.withVersion version).places = m.places := rfl

theorem places_eq (m : Module) :
    m.places = .main :: (m.profiles.zipIdx.filter fun row => row.1.active).map
      fun row => .profile row.2 := rfl

/-- The main section and the active profiles count, and no other place. -/
theorem mem_places {m : Module} {place : Place} :
    place ∈ m.places ↔ place = .main ∨
      ∃ index profile, place = .profile index ∧ m.profiles[index]? = some profile ∧
        profile.active = true := by
  rw [places_eq, List.mem_cons, List.mem_map]
  apply or_congr_right
  constructor
  · rintro ⟨⟨profile, index⟩, hrow, rfl⟩
    obtain ⟨hrow, hactive⟩ := List.mem_filter.1 hrow
    exact ⟨index, profile, rfl, List.mem_zipIdx_iff_getElem?.1 hrow, hactive⟩
  · rintro ⟨index, profile, rfl, hprofile, hactive⟩
    exact ⟨(profile, index),
      List.mem_filter.2 ⟨List.mem_zipIdx_iff_getElem?.2 hprofile, hactive⟩, rfl⟩

/-- What the places that count declare, in their order. -/
theorem filterMap_body?_places (m : Module) :
    m.places.filterMap m.body? = m.main :: m.activeProfiles.map Profile.body := by
  have hactive : (m.profiles.zipIdx.filter fun row => row.1.active).map Prod.fst =
      m.activeProfiles := by
    have hmap := List.filter_map (f := Prod.fst) (p := Profile.active) (l := m.profiles.zipIdx)
    rw [List.zipIdx_map_fst] at hmap
    exact hmap.symm
  have hbody (row : Profile × Nat) (hrow : row ∈ m.profiles.zipIdx.filter fun row => row.1.active) :
      m.body? (.profile row.2) = some row.1.body := by
    have hprofile := List.mem_zipIdx_iff_getElem?.1 (List.mem_filter.1 hrow).1
    rw [body?, hprofile]
    rfl
  rw [places_eq, ← hactive, List.map_map]
  have hmain : m.body? .main = some m.main := rfl
  rw [List.filterMap_cons_some hmain, List.filterMap_map, ← List.filterMap_eq_map]
  congr 1
  exact List.filterMap_congr hbody

/-- Which places count depends on nothing but which profiles are active. -/
theorem places_eq_of_active {m n : Module}
    (h : m.profiles.map Profile.active = n.profiles.map Profile.active) : m.places = n.places := by
  have key (profiles : List Profile) :
      ((profiles.zipIdx.filter fun row => row.1.active).map fun row => Place.profile row.2) =
        ((profiles.map Profile.active).zipIdx.filter Prod.fst).map
          fun row => Place.profile row.2 := by
    rw [List.zipIdx_map, List.filter_map, List.map_map]
    rfl
  rw [places_eq, places_eq, key, key, h]

@[simp] theorem places_modifyBody (place : Place) (f : Declarations → Declarations) (m : Module) :
    (m.modifyBody place f).places = m.places := by
  cases place with
  | main => rfl
  | profile i =>
    apply places_eq_of_active
    exact Forest.map_modify_of_keeps (f := fun p : Profile => { p with body := f p.body })
      (g := Profile.active) (fun _ => rfl) m.profiles i

/-- The main section and all profiles, active or not. -/
def bodies (m : Module) : List Declarations := m.main :: m.profiles.map Profile.body

theorem mem_bodies {m : Module} {body : Declarations} :
    body ∈ m.bodies ↔ ∃ place, m.body? place = some body := by
  rw [bodies, List.mem_cons, List.mem_map]
  constructor
  · intro h
    rcases h with rfl | ⟨profile, hp, rfl⟩
    · exact ⟨.main, rfl⟩
    · obtain ⟨index, hi⟩ := List.mem_iff_getElem?.1 hp
      exact ⟨.profile index, by rw [body?, hi]; rfl⟩
  · intro hex
    obtain ⟨place, h⟩ := hex
    cases place with
    | main => exact Or.inl (Option.some.inj h).symm
    | profile index =>
      obtain ⟨profile, hi, rfl⟩ := Option.map_eq_some_iff.1 h
      exact Or.inr ⟨profile, List.mem_of_getElem? hi, rfl⟩

end Module

namespace Forest

/-- The places of a module that count, if there is such a module. -/
def placesOf (F : Forest) (i : Nat) : List Place := ((F.modules[i]?).map Module.places).getD []

/-- What a module declares at a place. -/
def body? (F : Forest) (i : Nat) (place : Place) : Option Declarations :=
  (F.modules[i]?).bind (·.body? place)

def properties? (F : Forest) (i : Nat) (place : Place) : Option (Table String String) :=
  (F.body? i place).map Declarations.properties

def property? (F : Forest) (i : Nat) (place : Place) (name : String) : Option String :=
  (F.properties? i place).bind (·.get? name)

/-- Where a property is searched for, in this order. -/
def searched (F : Forest) (i : Nat) : List (Nat × Place) :=
  (F.ancestors i).flatMap fun holder => (F.placesOf holder).reverse.map (holder, ·)

def entryAt (F : Forest) (name : String) (spot : Nat × Place) : Option Declaration :=
  (F.property? spot.1 spot.2 name).map (⟨spot.1, spot.2, ·⟩)

theorem declaration?_eq_findSome? (F : Forest) (i : Nat) (name : String) :
    F.declaration? i name = (F.searched i).findSome? (F.entryAt name) := by
  rw [searched, findSome?_flatMap, declaration?]
  congr 1
  funext holder
  cases hm : F.modules[holder]? with
  | none => simp [placesOf, hm]
  | some m =>
    have hlevel : (m.declaration? name).bind (fun row =>
        some (Declaration.mk holder row.1 row.2)) =
        (m.declaration? name).map fun row => Declaration.mk holder row.1 row.2 :=
      Option.map_eq_bind.symm
    refine hlevel.trans ?_
    simp only [placesOf, hm, Option.map_some, Option.getD_some, List.findSome?_map,
      Module.declaration?, List.map_findSome?]
    congr 1
    funext place
    simp only [Function.comp_apply, entryAt, property?, properties?, body?, hm, Option.bind_some]
    cases m.body? place <;> simp [Function.comp_def]

theorem entryAt_eq_some {F : Forest} {name : String} {spot : Nat × Place} {d : Declaration} :
    F.entryAt name spot = some d ↔
      (d.holder, d.place) = spot ∧ F.property? d.holder d.place name = some d.value := by
  obtain ⟨holder, place, value⟩ := d
  simp only [entryAt, Option.map_eq_some_iff, Declaration.mk.injEq]
  constructor
  · intro h
    obtain ⟨v, hv, rfl, rfl, rfl⟩ := h
    exact ⟨rfl, hv⟩
  · intro h
    obtain ⟨rfl, hv⟩ := h
    exact ⟨value, hv, rfl, rfl, rfl⟩

/-- A declaration is an entry. -/
theorem property?_of_declaration? {F : Forest} {i : Nat} {name : String} {d : Declaration}
    (h : F.declaration? i name = some d) : F.property? d.holder d.place name = some d.value := by
  rw [declaration?_eq_findSome?] at h
  obtain ⟨spot, -, hs⟩ := List.exists_of_findSome?_eq_some h
  exact (entryAt_eq_some.1 hs).2

/-- What holds of every property can be checked row by row. -/
theorem forall_property?_iff {F : Forest} {P : String → String → Prop} :
    (∀ i place name value, F.property? i place name = some value → P name value) ↔
      ∀ m ∈ F.modules, ∀ body ∈ m.bodies, ∀ row ∈ body.properties.rows, P row.1 row.2 := by
  constructor
  · intro h m hm body hb row hrow
    obtain ⟨name, value⟩ := row
    obtain ⟨i, hi⟩ := List.mem_iff_getElem?.1 hm
    obtain ⟨place, hplace⟩ := Module.mem_bodies.1 hb
    apply h i place name value
    rw [property?, properties?, body?, hi, Option.bind_some, hplace]
    exact Table.get?_eq_some.2 hrow
  · intro h i place name value hv
    obtain ⟨table, ht, hv⟩ := Option.bind_eq_some_iff.1 hv
    obtain ⟨body, hb, rfl⟩ := Option.map_eq_some_iff.1 ht
    obtain ⟨m, hm, hb⟩ := Option.bind_eq_some_iff.1 hb
    exact h m (List.mem_of_getElem? hm) body (Module.mem_bodies.2 ⟨place, hb⟩) (name, value)
      (Table.get?_eq_some.1 hv)

@[reducible] def decidableForall (F : Forest) (P : String → String → Prop)
    [∀ name value, Decidable (P name value)] :
    Decidable (∀ i place name value, F.property? i place name = some value → P name value) :=
  decidable_of_iff _ (forall_property?_iff (P := P)).symm

theorem lt_size_of_property? {F : Forest} {i : Nat} {place : Place} {name value : String}
    (h : F.property? i place name = some value) : i < F.size := by
  obtain ⟨_, ht, -⟩ := Option.bind_eq_some_iff.1 h
  obtain ⟨_, hb, -⟩ := Option.map_eq_some_iff.1 ht
  obtain ⟨_, hm, -⟩ := Option.bind_eq_some_iff.1 hb
  exact (List.getElem?_eq_some_iff.1 hm).1

theorem identOf_eq_links (F : Forest) (i : Nat) :
    F.identOf i = ((F.links[i]?).map Link.ident).getD ⟨"", ""⟩ := by
  rw [identOf, links, List.getElem?_map, Option.map_map]
  rfl

/-- A module is found by its identity. -/
theorem find?_identOf {F : Forest} {i : Nat} (h : i < F.size) :
    F.find? (F.identOf i) = some i := by
  have hlt : i < F.links.length := by rwa [links, List.length_map]
  have hident : F.identOf i = F.links[i].ident := by
    rw [identOf_eq_links, List.getElem?_eq_getElem hlt]
    rfl
  rw [find?, positionIn, List.findIdx?_eq_some_iff_getElem]
  refine ⟨hlt, by simp [hident], fun j hj hsame => ?_⟩
  have hjlt : j < F.links.length := Nat.lt_trans hj hlt
  have heq : (F.links.map Link.ident)[j]? = (F.links.map Link.ident)[i]? := by
    rw [List.getElem?_map, List.getElem?_map, List.getElem?_eq_getElem hjlt,
      List.getElem?_eq_getElem hlt]
    simpa [hident] using hsame
  have hij := (List.getElem?_inj (by rwa [List.length_map]) F.grounded.distinct).1 heq
  omega

/-- A module keeps its link through every change of its forest. -/
theorem exists_module_of_links {F G : Forest} (h : G.links = F.links) {m : Module}
    (hm : m ∈ G.modules) : ∃ m' ∈ F.modules, m'.link = m.link := by
  have hlink : m.link ∈ F.links := by
    rw [← h]
    exact List.mem_map_of_mem hm
  exact List.mem_map.1 hlink

theorem size_eq_of_links {F G : Forest} (h : G.links = F.links) : G.size = F.size := by
  have hlength := congrArg List.length h
  simpa [links, size] using hlength

theorem roots_eq_of_links {F G : Forest} (h : G.links = F.links) : G.roots = F.roots := by
  have hparent (i : Nat) : G.parent? i = F.parent? i := by rw [parent?, h, parent?]
  simp only [roots, indices, size_eq_of_links h, hparent]

/-- Forests that differ in versions and artifacts only. -/
structure SameProperties (F G : Forest) : Prop where
  links : G.links = F.links
  places : ∀ i, G.placesOf i = F.placesOf i
  properties : ∀ i place, G.properties? i place = F.properties? i place

/-- Forests that differ in versions, artifacts and the values of properties only. -/
structure SameNames (F G : Forest) : Prop where
  links : G.links = F.links
  places : ∀ i, G.placesOf i = F.placesOf i
  names : ∀ i place name, (G.property? i place name).isSome = (F.property? i place name).isSome

namespace SameNames

variable {F G H : Forest}

theorem refl (F : Forest) : SameNames F F := ⟨rfl, fun _ => rfl, fun _ _ _ => rfl⟩

theorem trans (h : SameNames F G) (h' : SameNames G H) : SameNames F H :=
  ⟨h'.links.trans h.links, fun i => (h'.places i).trans (h.places i),
    fun i place name => (h'.names i place name).trans (h.names i place name)⟩

theorem symm (h : SameNames F G) : SameNames G F :=
  ⟨h.links.symm, fun i => (h.places i).symm, fun i place name => (h.names i place name).symm⟩

theorem size (h : SameNames F G) : G.size = F.size := size_eq_of_links h.links

theorem identOf (h : SameNames F G) (i : Nat) :
    G.identOf i = F.identOf i := by
  rw [identOf_eq_links, identOf_eq_links, h.links]

theorem roots (h : SameNames F G) : G.roots = F.roots := roots_eq_of_links h.links

theorem ancestors (h : SameNames F G) (i : Nat) : G.ancestors i = F.ancestors i := by
  rw [Forest.ancestors, Forest.ancestors, h.links, h.size]

theorem searched (h : SameNames F G) (i : Nat) : G.searched i = F.searched i := by
  simp only [Forest.searched, h.ancestors, h.places]

/-- The declaring entry is the same, whatever value it now has. -/
theorem declaration?_eq (h : SameNames F G) (i : Nat) (name : String) :
    G.declaration? i name =
      (F.declaration? i name).bind fun d => G.entryAt name (d.holder, d.place) := by
  have step (spot : Nat × Place) :
      G.entryAt name spot =
        (F.entryAt name spot).bind fun d => G.entryAt name (d.holder, d.place) := by
    have hn := h.names spot.1 spot.2 name
    cases hF : F.property? spot.1 spot.2 name with
    | some v => simp [entryAt, hF]
    | none =>
      rw [hF] at hn
      simp only [entryAt, hF, Option.isSome_none, Option.isSome_eq_false_iff,
        Option.isNone_iff_eq_none] at hn ⊢
      simp [hn]
  rw [declaration?_eq_findSome?, declaration?_eq_findSome?, h.searched, ← findSome?_bind]
  · congr 1
    funext spot
    exact step spot
  · intro spot d hd
    have hp := entryAt_eq_some.1 hd
    have hn := h.names d.holder d.place name
    rw [hp.2] at hn
    simpa [entryAt] using hn

theorem declaration?_eq_none (h : SameNames F G) {i : Nat} {name : String} :
    G.declaration? i name = none ↔ F.declaration? i name = none := by
  rw [h.declaration?_eq]
  cases hd : F.declaration? i name with
  | none => simp
  | some d =>
    have hn := h.names d.holder d.place name
    rw [property?_of_declaration? hd] at hn
    obtain ⟨v, hv⟩ := Option.isSome_iff_exists.1 hn
    simp [entryAt, hv]

theorem declaration?_of_property? (h : SameNames F G) {i : Nat} {name value : String}
    {d : Declaration} (hd : F.declaration? i name = some d)
    (hv : G.property? d.holder d.place name = some value) :
    G.declaration? i name = some ⟨d.holder, d.place, value⟩ := by
  rw [h.declaration?_eq, hd]
  simp [entryAt, hv]

end SameNames

namespace SameProperties

variable {F G H : Forest}

theorem refl (F : Forest) : SameProperties F F := ⟨rfl, fun _ => rfl, fun _ _ => rfl⟩

theorem trans (h : SameProperties F G) (h' : SameProperties G H) : SameProperties F H :=
  ⟨h'.links.trans h.links, fun i => (h'.places i).trans (h.places i),
    fun i place => (h'.properties i place).trans (h.properties i place)⟩

theorem symm (h : SameProperties F G) : SameProperties G F :=
  ⟨h.links.symm, fun i => (h.places i).symm, fun i place => (h.properties i place).symm⟩

theorem property? (h : SameProperties F G) (i : Nat) (place : Place) (name : String) :
    G.property? i place name = F.property? i place name := by
  simp only [Forest.property?, h.properties]

theorem sameNames (h : SameProperties F G) : SameNames F G :=
  ⟨h.links, h.places, fun i place name => by rw [h.property?]⟩

theorem declaration? (h : SameProperties F G) (i : Nat) (name : String) :
    G.declaration? i name = F.declaration? i name := by
  rw [declaration?_eq_findSome?, declaration?_eq_findSome?, h.sameNames.searched]
  congr 1
  funext spot
  simp only [entryAt, h.property?]

end SameProperties

end Forest
end Realign
