import Realign.Proofs.Forest.Slots
import Realign.Proofs.Table

/-!
The frame of a forest: its modules with their identities and parents, their profiles with ids and
flags, all that stands in places that do not count, and the names in every table of properties.
Setting a version, changing artifacts at a place that counts and setting a property where a
module finds it declared leave the frame alone. What is not in the frame are versions, values
of properties and artifacts at places that count; a forest is known by these and its frame.
-/
namespace Realign

theorem ArtifactLists.ext_get {lists others : ArtifactLists}
    (h : ∀ kind, lists.get kind = others.get kind) : lists = others := by
  cases lists
  cases others
  rw [ArtifactLists.mk.injEq]
  exact ⟨h .dependency, h .managedDependency, h .plugin, h .managedPlugin⟩

def Profile.row (profile : Profile) : String × Bool := (profile.id, profile.active)

theorem Module.profiles_modifyBody (place : Place) (f : Declarations → Declarations) (m : Module) :
    (m.modifyBody place f).profiles.map Profile.row = m.profiles.map Profile.row := by
  cases place with
  | main => rfl
  | profile i =>
    exact Forest.map_modify_of_keeps (f := fun p : Profile => { p with body := f p.body })
      (g := Profile.row) (fun _ => rfl) m.profiles i

namespace Forest

variable {F G H : Forest} {i : Nat} {place : Place}

/-- The profiles of a module, each by its id and whether it is active. -/
def profiles? (F : Forest) (i : Nat) : Option (List (String × Bool)) :=
  (F.modules[i]?).map fun m => m.profiles.map Profile.row

/-- The names in a table of properties, in their order. -/
def names? (F : Forest) (i : Nat) (place : Place) : Option (List String) :=
  (F.properties? i place).map Table.keys

/-- Forests with the same frame. -/
structure Framed (F G : Forest) : Prop where
  links : G.links = F.links
  profiles : ∀ i, G.profiles? i = F.profiles? i
  names : ∀ i place, G.names? i place = F.names? i place
  idle : ∀ i place, place ∉ F.placesOf i → G.body? i place = F.body? i place

namespace Framed

theorem refl (F : Forest) : Framed F F :=
  ⟨rfl, fun _ => rfl, fun _ _ => rfl, fun _ _ _ => rfl⟩

theorem places (h : Framed F G) (i : Nat) : G.placesOf i = F.placesOf i := by
  have hrows := h.profiles i
  unfold profiles? at hrows
  unfold placesOf
  cases hF : F.modules[i]? with
  | none =>
    rw [hF, Option.map_none, Option.map_eq_none_iff] at hrows
    rw [hrows]
  | some m =>
    rw [hF] at hrows
    obtain ⟨n, hn, hrows⟩ := Option.map_eq_some_iff.1 hrows
    have hactive := congrArg (List.map Prod.snd) hrows
    rw [List.map_map, List.map_map] at hactive
    rw [hn]
    exact Module.places_eq_of_active hactive

theorem trans (h : Framed F G) (h' : Framed G H) : Framed F H where
  links := h'.links.trans h.links
  profiles i := (h'.profiles i).trans (h.profiles i)
  names i place := (h'.names i place).trans (h.names i place)
  idle i place hidle := by
    have hidle' : place ∉ G.placesOf i := by rwa [h.places]
    exact (h'.idle i place hidle').trans (h.idle i place hidle)

theorem identOf (h : Framed F G) (i : Nat) : G.identOf i = F.identOf i := by
  rw [identOf_eq_links, identOf_eq_links, h.links]

end Framed

theorem profiles?_modify (F : Forest) (i j : Nat) (f : Module → Module)
    (keeps : ∀ m, (f m).link = m.link)
    (same : ∀ m, (f m).profiles.map Profile.row = m.profiles.map Profile.row) :
    (F.modify i f keeps).profiles? j = F.profiles? j := by
  rw [profiles?, profiles?, getElem?_modules_modify]
  by_cases h : i = j <;> cases F.modules[j]? <;> simp [h, same]

theorem framed_setVersion (F : Forest) (i : Nat) (version : String) :
    Framed F (F.setVersion i version) where
  links := links_modify F i _ _
  profiles j := F.profiles?_modify i j _ _ fun _ => rfl
  names j place := by rw [names?, (F.sameProperties_setVersion i version).properties, names?]
  idle j place _ := F.body?_setVersion i version j place

/-- A change at a place that counts, if it keeps the names there. -/
theorem framed_modifyBody (f : Declarations → Declarations)
    (keeps : ∀ m, (Module.modifyBody place f m).link = m.link) (hplace : place ∈ F.placesOf i)
    (hnames : ∀ body, F.body? i place = some body →
      (f body).properties.keys = body.properties.keys) :
    Framed F (F.modify i (Module.modifyBody place f) keeps) where
  links := links_modify F i _ keeps
  profiles j := F.profiles?_modify i j _ keeps (Module.profiles_modifyBody place f)
  names j other := by
    rw [names?, names?, properties?, properties?, body?_modifyBody]
    split
    · rename_i h
      obtain ⟨rfl, rfl⟩ := h
      cases hbody : F.body? i place with
      | none => rfl
      | some body => simp only [Option.map_some, hnames body hbody]
    · rfl
  idle j other hidle := by
    rw [body?_modifyBody, if_neg]
    intro h
    obtain ⟨rfl, rfl⟩ := h
    exact hidle hplace

theorem framed_modifyArtifacts (kind : ArtifactKind) (f : List Artifact → List Artifact)
    (hplace : place ∈ F.placesOf i) : Framed F (F.modifyArtifacts i place kind f) :=
  framed_modifyBody _ _ hplace fun _ _ => rfl

/-- A declaration is at a place that counts. -/
theorem place_mem_of_declaration? {name : String} {d : Declaration}
    (h : F.declaration? i name = some d) : d.place ∈ F.placesOf d.holder := by
  rw [declaration?_eq_findSome?] at h
  obtain ⟨spot, hspot, hd⟩ := List.exists_of_findSome?_eq_some h
  obtain ⟨holder, -, hspot⟩ := List.mem_flatMap.1 hspot
  obtain ⟨place, hplace, rfl⟩ := List.mem_map.1 hspot
  obtain ⟨heq, -⟩ := entryAt_eq_some.1 hd
  obtain ⟨hholder, hsame⟩ := Prod.mk.inj heq
  rw [hholder, hsame]
  exact List.mem_reverse.1 hplace

theorem framed_setProperty {name : String} {d : Declaration} (h : F.declaration? i name = some d)
    (value : String) : Framed F (F.setProperty d name value) := by
  apply framed_modifyBody _ (Module.link_modifyBody d.place _) (place_mem_of_declaration? h)
  intro body hbody
  have hold := property?_of_declaration? h
  rw [property?, properties?, hbody] at hold
  exact Table.keys_insert_of_get? value hold

/-- A place is known by the names, the values and the artifacts there. -/
theorem body?_eq_of_same (hnames : G.names? i place = F.names? i place)
    (hproperty : ∀ name, G.property? i place name = F.property? i place name)
    (hartifact : ∀ kind index,
      G.artifact? ⟨i, place, kind, index⟩ = F.artifact? ⟨i, place, kind, index⟩) :
    G.body? i place = F.body? i place := by
  simp only [artifact?_eq, artifacts?] at hartifact
  simp only [property?, properties?] at hproperty
  simp only [names?, properties?] at hnames
  cases hF : F.body? i place with
  | none =>
    rw [hF] at hnames
    simpa using hnames
  | some body =>
    cases hG : G.body? i place with
    | none =>
      rw [hF, hG] at hnames
      cases hnames
    | some other =>
      simp only [hF, hG, Option.map_some, Option.bind_some, Option.some.injEq] at *
      have hproperties : other.properties = body.properties := Table.ext_get? hnames hproperty
      have hartifacts : other.artifacts = body.artifacts :=
        ArtifactLists.ext_get fun kind => List.ext_getElem? (hartifact kind)
      cases other
      cases body
      rw [Declarations.mk.injEq]
      exact ⟨hproperties, hartifacts⟩

/-- Modules with the same profiles and the same in every place. -/
theorem profiles_eq_of_same {m n : Module}
    (hrows : n.profiles.map Profile.row = m.profiles.map Profile.row)
    (hbodies : ∀ place, n.body? place = m.body? place) : n.profiles = m.profiles := by
  apply List.ext_getElem?
  intro index
  have hrow := congrArg (·[index]?) hrows
  have hbody := hbodies (.profile index)
  simp only [List.getElem?_map, Module.body?] at hrow hbody
  cases hm : m.profiles[index]? with
  | none =>
    rw [hm] at hrow
    simpa using hrow
  | some profile =>
    cases hn : n.profiles[index]? with
    | none =>
      rw [hm, hn] at hrow
      cases hrow
    | some other =>
      simp only [hm, hn, Option.map_some, Option.some.injEq, Profile.row, Prod.mk.injEq]
        at hrow hbody
      cases profile
      cases other
      simp_all

/-- A forest is known by its frame, its versions and what stands in every place. -/
theorem Framed.eq (h : Framed F G) (hversions : ∀ i, G.version? i = F.version? i)
    (hbodies : ∀ i place, G.body? i place = F.body? i place) : G = F := by
  apply Forest.ext
  apply List.ext_getElem?
  intro i
  have hlink := congrArg (·[i]?) h.links
  have hrows := h.profiles i
  have hversion := hversions i
  have hbody := hbodies i
  simp only [Forest.links, List.getElem?_map] at hlink
  simp only [profiles?] at hrows
  simp only [version?] at hversion
  simp only [body?] at hbody
  cases hF : F.modules[i]? with
  | none =>
    rw [hF] at hlink
    simpa using hlink
  | some m =>
    cases hG : G.modules[i]? with
    | none =>
      rw [hF, hG] at hlink
      cases hlink
    | some n =>
      simp only [hF, hG, Option.map_some, Option.bind_some, Option.some.injEq] at *
      have hprofiles := profiles_eq_of_same hrows hbody
      have hmain : n.main = m.main := Option.some.inj (hbody .main)
      obtain ⟨hident, hparent⟩ := Link.mk.inj hlink
      cases n
      cases m
      rw [Module.mk.injEq]
      exact ⟨hident, hversion, hparent, hmain, hprofiles⟩

end Forest
end Realign
