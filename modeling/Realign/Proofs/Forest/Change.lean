import Realign.Proofs.Forest.Entry

/-!
What the changes of a forest do to what can be read off it: chains, counting places,
versions, tables of properties and artifacts. Each change has one effect; everything else
reads as before.
-/
namespace Realign.Forest

variable (F : Forest)

def version? (i : Nat) : Option String := (F.modules[i]?).map Module.version

theorem getElem?_modules_modify (i j : Nat) (f : Module → Module)
    (keeps : ∀ m, (f m).link = m.link) :
    (F.modify i f keeps).modules[j]? =
      if i = j then (F.modules[j]?).map f else F.modules[j]? := by
  rw [modules_modify, List.getElem?_modify]
  by_cases h : i = j <;> cases F.modules[j]? <;> simp [h]

theorem placesOf_modify (i j : Nat) (f : Module → Module) (keeps : ∀ m, (f m).link = m.link)
    (same : ∀ m, (f m).places = m.places) : (F.modify i f keeps).placesOf j = F.placesOf j := by
  rw [placesOf, placesOf, getElem?_modules_modify]
  by_cases h : i = j <;> cases F.modules[j]? <;> simp [h, same]

section Body

variable (i : Nat) (place : Place) (f : Declarations → Declarations)
  (keeps : ∀ m, (Module.modifyBody place f m).link = m.link)

theorem body?_modifyBody (j : Nat) (other : Place) :
    (F.modify i (Module.modifyBody place f) keeps).body? j other =
      if i = j ∧ place = other then (F.body? j other).map f else F.body? j other := by
  rw [body?, body?, getElem?_modules_modify]
  cases hm : F.modules[j]? with
  | none => simp
  | some m =>
    by_cases h : i = j
    · simp [h, Module.body?_modifyBody]
    · simp [h]

theorem version?_modifyBody (j : Nat) :
    (F.modify i (Module.modifyBody place f) keeps).version? j = F.version? j := by
  rw [version?, version?, getElem?_modules_modify]
  by_cases h : i = j <;> cases F.modules[j]? <;> cases place <;> simp [h, Module.modifyBody]

theorem placesOf_modifyBody (j : Nat) :
    (F.modify i (Module.modifyBody place f) keeps).placesOf j = F.placesOf j :=
  F.placesOf_modify i j _ keeps (Module.places_modifyBody place f)

end Body

section Version

variable (i : Nat) (version : String)

theorem body?_setVersion (j : Nat) (place : Place) :
    (F.setVersion i version).body? j place = F.body? j place := by
  rw [setVersion, body?, body?, getElem?_modules_modify]
  by_cases h : i = j <;> cases F.modules[j]? <;> cases place <;>
    simp [h, Module.withVersion, Module.body?]

theorem version?_setVersion (j : Nat) :
    (F.setVersion i version).version? j =
      if i = j then (F.version? j).map fun _ => version else F.version? j := by
  rw [setVersion, version?, version?, getElem?_modules_modify]
  by_cases h : i = j <;> cases F.modules[j]? <;> simp [h, Module.withVersion]

theorem sameProperties_setVersion : SameProperties F (F.setVersion i version) where
  links := links_modify F i _ _
  places j := F.placesOf_modify i j _ _ (Module.places_withVersion version)
  properties j place := by rw [properties?, properties?, body?_setVersion]

end Version

section Artifacts

variable (i : Nat) (place : Place) (kind : ArtifactKind) (f : List Artifact → List Artifact)

def artifacts? (i : Nat) (place : Place) (kind : ArtifactKind) : Option (List Artifact) :=
  (F.body? i place).map (·.artifacts.get kind)

theorem artifacts?_modifyArtifacts (j : Nat) (other : Place) (k : ArtifactKind) :
    (F.modifyArtifacts i place kind f).artifacts? j other k =
      if i = j ∧ place = other ∧ kind = k then (F.artifacts? j other k).map f
      else F.artifacts? j other k := by
  unfold modifyArtifacts Module.modifyArtifacts artifacts?
  rw [body?_modifyBody]
  by_cases h : i = j ∧ place = other
  · cases F.body? j other <;> by_cases hk : kind = k <;> simp [h, hk, ArtifactLists.get_modify]
  · rw [if_neg h, if_neg (fun h' => h ⟨h'.1, h'.2.1⟩)]

theorem sameProperties_modifyArtifacts :
    SameProperties F (F.modifyArtifacts i place kind f) where
  links := links_modify F i _ _
  places j := F.placesOf_modifyBody i place _ _ j
  properties j other := by
    unfold modifyArtifacts Module.modifyArtifacts properties?
    rw [body?_modifyBody]
    by_cases h : i = j ∧ place = other <;> cases F.body? j other <;> simp [h]

theorem version?_modifyArtifacts (j : Nat) :
    (F.modifyArtifacts i place kind f).version? j = F.version? j :=
  F.version?_modifyBody i place _ _ j

theorem artifacts?_setVersion (version : String) (j : Nat) (other : Place) :
    (F.setVersion i version).artifacts? j other kind = F.artifacts? j other kind := by
  rw [artifacts?, artifacts?, body?_setVersion]

end Artifacts

section Properties

variable (d : Declaration) (name value : String)

/-- Setting an entry that is there changes its value and no other entry. -/
theorem property?_setProperty {old : String} (h : F.property? d.holder d.place name = some old)
    (j : Nat) (other : Place) (k : String) :
    (F.setProperty d name value).property? j other k =
      if d.holder = j ∧ d.place = other ∧ name = k then some value else F.property? j other k := by
  obtain ⟨table, ht, -⟩ := Option.bind_eq_some_iff.1 h
  obtain ⟨body, hb, rfl⟩ := Option.map_eq_some_iff.1 ht
  unfold setProperty modifyProperties Module.modifyProperties property? properties?
  rw [body?_modifyBody]
  by_cases hs : d.holder = j ∧ d.place = other
  · obtain ⟨rfl, rfl⟩ := hs
    by_cases hk : name = k <;> simp [hb, hk, Table.get?_insert]
  · rw [if_neg hs, if_neg (fun h' => hs ⟨h'.1, h'.2.1⟩)]

theorem artifacts?_setProperty (j : Nat) (other : Place) (kind : ArtifactKind) :
    (F.setProperty d name value).artifacts? j other kind = F.artifacts? j other kind := by
  unfold setProperty modifyProperties Module.modifyProperties artifacts?
  rw [body?_modifyBody]
  by_cases h : d.holder = j ∧ d.place = other <;> cases F.body? j other <;> simp [h]

theorem version?_setProperty (j : Nat) : (F.setProperty d name value).version? j = F.version? j :=
  F.version?_modifyBody d.holder d.place _ (Module.link_modifyBody d.place _) j

/-- Setting a property that is declared adds no name. -/
theorem sameNames_setProperty {old : String} (h : F.property? d.holder d.place name = some old) :
    SameNames F (F.setProperty d name value) where
  links := links_modify F d.holder _ (Module.link_modifyBody d.place _)
  places j := F.placesOf_modifyBody d.holder d.place _ (Module.link_modifyBody d.place _) j
  names j other k := by
    rw [F.property?_setProperty d name value h]
    split
    · rename_i hk
      obtain ⟨rfl, rfl, rfl⟩ := hk
      simp [h]
    · rfl

end Properties

end Realign.Forest
