import Realign.Text.Cut

/-!
Coordinates. A module or artifact is identified by a group and an artifact name;
a coordinate adds a version. The artifact `*` stands for every artifact of its
group. Blanks around a written coordinate do not count, all three parts are split
at colons, and an empty version is no version.
-/
namespace Realign

open Text

structure Ident where
  group : String
  artifact : String
deriving DecidableEq, Repr, Inhabited

structure Coordinate where
  ident : Ident
  version : Option String
deriving DecidableEq, Repr

/-- A text that is no coordinate, as it was written. -/
structure CoordinateError where
  text : String
deriving DecidableEq, Repr

namespace CoordinateError

def message (e : CoordinateError) : String :=
  "Invalid coordinate '" ++ e.text ++ "': expected groupId:artifactId[:version]"

end CoordinateError

namespace Ident

def everyArtifact : String := "*"

def wildcard (group : String) : Ident := ⟨group, everyArtifact⟩

def isWildcard (i : Ident) : Bool := i.artifact == everyArtifact

def toString (i : Ident) : String := i.group ++ ":" ++ i.artifact

def ofChars (group artifact : List Char) : Ident :=
  ⟨String.ofList group, String.ofList artifact⟩

def parse (text : String) : Except CoordinateError Ident :=
  match piecesAt ':' (trim text.toList) with
  | [group, artifact] =>
    if group ≠ [] ∧ artifact ≠ [] then .ok (ofChars group artifact) else .error ⟨text⟩
  | _ => .error ⟨text⟩

end Ident

namespace Coordinate

def toString (c : Coordinate) : String :=
  match c.version with
  | some version => c.ident.toString ++ ":" ++ version
  | none => c.ident.toString

def parse (text : String) : Except CoordinateError Coordinate :=
  match piecesAt ':' (trim text.toList) with
  | group :: artifact :: more =>
    if group = [] ∨ artifact = [] then .error ⟨text⟩
    else match more with
      | [] | [[]] => .ok ⟨.ofChars group artifact, none⟩
      | [version] => .ok ⟨.ofChars group artifact, some (String.ofList version)⟩
      | _ => .error ⟨text⟩
  | _ => .error ⟨text⟩

end Coordinate
end Realign
