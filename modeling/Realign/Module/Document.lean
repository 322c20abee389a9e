import Realign.Document
import Realign.Module

/-!
The document form of modules. Absent and empty parts are left out when a module is
written. The artifact lists of a module or profile are read last, after all of its
other members, whatever their order in the document.
-/
namespace Realign

open Document

namespace Artifact

def fields : Fields Artifact := [
  ("groupId", fun json a => return { a with ident.group := ← text json }),
  ("artifactId", fun json a => return { a with ident.artifact := ← text json }),
  ("version", fun json a => return { a with version := ← nullable text json }),
  ("scope", fun json a => return { a with scope := ← nullable text json })]

def ofJson : Json → Result Artifact :=
  record fields ["groupId", "artifactId"] ⟨⟨"", ""⟩, none, none⟩

def optionalMember (name : String) : Option String → List (String × Json)
  | some value => [(name, .string value)]
  | none => []

def toJson (a : Artifact) : Json :=
  .object ([("groupId", .string a.ident.group), ("artifactId", .string a.ident.artifact)]
    ++ optionalMember "version" a.version ++ optionalMember "scope" a.scope)

end Artifact

namespace ArtifactLists

def fields : Fields ArtifactLists := [
  ("dependencies", fun json l => return { l with dependencies := ← list Artifact.ofJson json }),
  ("dependencyManagement", fun json l =>
    return { l with managedDependencies := ← list Artifact.ofJson json }),
  ("plugins", fun json l => return { l with plugins := ← list Artifact.ofJson json }),
  ("pluginManagement", fun json l =>
    return { l with managedPlugins := ← list Artifact.ofJson json })]

/-- The lists among the members that the enclosing record does not declare. -/
def ofMembers (members : List (String × Json)) : Result ArtifactLists := do
  return (← fill fields false ⟨{}, [], []⟩ members).value

def memberOf (name : String) : List Artifact → List (String × Json)
  | [] => []
  | artifacts => [(name, .array (artifacts.map Artifact.toJson))]

def toMembers (l : ArtifactLists) : List (String × Json) :=
  memberOf "dependencies" l.dependencies
    ++ memberOf "dependencyManagement" l.managedDependencies
    ++ memberOf "plugins" l.plugins
    ++ memberOf "pluginManagement" l.managedPlugins

end ArtifactLists

namespace Declarations

def readProperties : Json → Result (Table String String) := table .ok

def propertyMembers (properties : Table String String) : List (String × Json) :=
  if properties.isEmpty then []
  else [("properties", .object (properties.rows.map fun (name, value) => (name, .string value)))]

end Declarations

namespace Profile

def fields : Fields Profile := [
  ("id", fun json p => return { p with id := ← text json }),
  ("active", fun json p => return { p with active := ← flag json }),
  ("properties", fun json p =>
    return { p with body.properties := ← Declarations.readProperties json })]

def ofJson (json : Json) : Result Profile := do
  let filled ← openRecord fields ["id"] ⟨"", false, {}⟩ json
  let artifacts ← ArtifactLists.ofMembers filled.others
  return { filled.value with body.artifacts := artifacts }

def toJson (p : Profile) : Json :=
  .object ([("id", .string p.id), ("active", .bool p.active)]
    ++ Declarations.propertyMembers p.body.properties ++ p.body.artifacts.toMembers)

end Profile

namespace Module

def fields : Fields Module := [
  ("groupId", fun json m => return { m with ident.group := ← text json }),
  ("artifactId", fun json m => return { m with ident.artifact := ← text json }),
  ("version", fun json m => return { m with version := ← text json }),
  ("parent", fun json m =>
    return { m with parent := ← nullable (fun json => do Document.ident (← text json)) json }),
  ("properties", fun json m =>
    return { m with main.properties := ← Declarations.readProperties json }),
  ("profiles", fun json m => return { m with profiles := ← list Profile.ofJson json })]

def ofJson (json : Json) : Result Module := do
  let filled ←
    openRecord fields ["groupId", "artifactId", "version"] ⟨⟨"", ""⟩, "", none, {}, []⟩ json
  let artifacts ← ArtifactLists.ofMembers filled.others
  return { filled.value with main.artifacts := artifacts }

def profileMembers : List Profile → List (String × Json)
  | [] => []
  | profiles => [("profiles", .array (profiles.map Profile.toJson))]

def toJson (m : Module) : Json :=
  .object ([("groupId", .string m.ident.group), ("artifactId", .string m.ident.artifact),
      ("version", .string m.version)]
    ++ Artifact.optionalMember "parent" (m.parent.map Ident.toString)
    ++ Declarations.propertyMembers m.main.properties
    ++ profileMembers m.profiles
    ++ m.main.artifacts.toMembers)

def listOfJson : Json → Result (List Module) := list ofJson

def listToJson (modules : List Module) : Json := .array (modules.map toJson)

end Module
end Realign
