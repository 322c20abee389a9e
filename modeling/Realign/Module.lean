import Realign.Coordinate
import Realign.Table

/-!
Modules: their identity, version and parent, and what they declare. Properties and
artifacts are declared in the main section or in a profile, and a place names one
of these. The main section and the active profiles count, in that order; of
several places that declare a property the last one is what is read and written.
-/
namespace Realign

structure Artifact where
  ident : Ident
  version : Option String := none
  scope : Option String := none
deriving DecidableEq, Repr

inductive ArtifactKind where
  | dependency
  | managedDependency
  | plugin
  | managedPlugin
deriving DecidableEq, Repr

namespace ArtifactKind

def all : List ArtifactKind := [.dependency, .managedDependency, .plugin, .managedPlugin]

def label : ArtifactKind → String
  | .dependency => "Dependency"
  | .managedDependency => "Managed dependency"
  | .plugin => "Plugin"
  | .managedPlugin => "Managed plugin"

end ArtifactKind

structure ArtifactLists where
  dependencies : List Artifact := []
  managedDependencies : List Artifact := []
  plugins : List Artifact := []
  managedPlugins : List Artifact := []
deriving DecidableEq, Repr

namespace ArtifactLists

def get (lists : ArtifactLists) : ArtifactKind → List Artifact
  | .dependency => lists.dependencies
  | .managedDependency => lists.managedDependencies
  | .plugin => lists.plugins
  | .managedPlugin => lists.managedPlugins

def modify (kind : ArtifactKind) (f : List Artifact → List Artifact) (lists : ArtifactLists) :
    ArtifactLists :=
  match kind with
  | .dependency => { lists with dependencies := f lists.dependencies }
  | .managedDependency => { lists with managedDependencies := f lists.managedDependencies }
  | .plugin => { lists with plugins := f lists.plugins }
  | .managedPlugin => { lists with managedPlugins := f lists.managedPlugins }

def entries (lists : ArtifactLists) : List (ArtifactKind × Artifact) :=
  ArtifactKind.all.flatMap fun kind => (lists.get kind).map (kind, ·)

theorem get_modify (kind other : ArtifactKind) (f : List Artifact → List Artifact)
    (lists : ArtifactLists) :
    (lists.modify kind f).get other =
      if kind = other then f (lists.get other) else lists.get other := by
  cases kind <;> cases other <;> rfl

end ArtifactLists

/-- What one place of a module declares. -/
structure Declarations where
  properties : Table String String := .empty
  artifacts : ArtifactLists := {}
deriving DecidableEq, Repr

structure Profile where
  id : String
  active : Bool := false
  body : Declarations := {}
deriving DecidableEq, Repr

/-- The main section of a module or the profile at an index. -/
inductive Place where
  | main
  | profile (index : Nat)
deriving DecidableEq, Repr

structure Module where
  ident : Ident
  version : String
  parent : Option Ident := none
  main : Declarations := {}
  profiles : List Profile := []
deriving DecidableEq, Repr

/-- What ties a module to the others of its forest. -/
structure Link where
  ident : Ident
  parent : Option Ident
deriving DecidableEq, Repr

namespace Module

def link (m : Module) : Link := ⟨m.ident, m.parent⟩

def coordinate (m : Module) : Coordinate := ⟨m.ident, some m.version⟩

def activeProfiles (m : Module) : List Profile := m.profiles.filter (·.active)

/-- The places that count: the main section, then the active profiles. -/
def places (m : Module) : List Place :=
  .main :: (m.profiles.zipIdx.filter fun (profile, _) => profile.active).map
    fun (_, index) => .profile index

def body? (m : Module) : Place → Option Declarations
  | .main => some m.main
  | .profile index => (m.profiles[index]?).map Profile.body

def modifyBody (place : Place) (f : Declarations → Declarations) (m : Module) : Module :=
  match place with
  | .main => { m with main := f m.main }
  | .profile index =>
    { m with profiles := m.profiles.modify index fun p => { p with body := f p.body } }

def modifyProperties (place : Place) (f : Table String String → Table String String) :
    Module → Module :=
  modifyBody place fun body => { body with properties := f body.properties }

def modifyArtifacts (place : Place) (kind : ArtifactKind) (f : List Artifact → List Artifact) :
    Module → Module :=
  modifyBody place fun body => { body with artifacts := body.artifacts.modify kind f }

def withVersion (version : String) (m : Module) : Module := { m with version }

def withParent (parent : Ident) (m : Module) : Module := { m with parent := some parent }

def withProperty (name value : String) : Module → Module :=
  modifyProperties .main (·.insert name value)

def withArtifact (kind : ArtifactKind) (artifact : Artifact) : Module → Module :=
  modifyArtifacts .main kind (· ++ [artifact])

def withProfile (profile : Profile) (m : Module) : Module :=
  { m with profiles := m.profiles ++ [profile] }

/-- The last counting place that declares a property, and the value it gives. -/
def declaration? (m : Module) (name : String) : Option (Place × String) :=
  m.places.reverse.findSome? fun place =>
    ((m.body? place).bind fun body => body.properties.get? name).map (place, ·)

@[simp] theorem link_withVersion (version : String) (m : Module) :
    (m.withVersion version).link = m.link := rfl

@[simp] theorem link_modifyBody (place : Place) (f : Declarations → Declarations) (m : Module) :
    (m.modifyBody place f).link = m.link := by
  cases place <;> rfl

/-- Changing one place changes what that place declares and nothing else. -/
theorem body?_modifyBody (place other : Place) (f : Declarations → Declarations) (m : Module) :
    (m.modifyBody place f).body? other =
      if place = other then (m.body? other).map f else m.body? other := by
  cases place with
  | main => cases other <;> simp [modifyBody, body?]
  | profile i =>
    cases other with
    | main => simp [modifyBody, body?]
    | profile j =>
      simp only [modifyBody, body?, List.getElem?_modify, Place.profile.injEq]
      by_cases h : i = j
      · simp [h, Function.comp_def]
      · simp [h]

end Module
end Realign
