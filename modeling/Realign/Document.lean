import Realign.Coordinate
import Realign.Json.Reader
import Realign.Policy
import Realign.Table

/-!
Reading records out of JSON values. Members are taken in the order of the
document and the first fault ends the reading. A declared member may come once; what
the others hold is either passed over unseen or kept for a second look, and then
it must be fit. Some records may also be written as the array of their members'
values in declared order. Only a fault of the library's own texts has a message.
-/
namespace Realign

inductive DocumentError where
  | malformed
  | coordinate (e : CoordinateError)
  | setting (e : PolicyError)
deriving DecidableEq, Repr

namespace DocumentError

def message? : DocumentError → Option String
  | .malformed => none
  | .coordinate e => some e.message
  | .setting e => some e.message

end DocumentError

namespace Document

abbrev Result (α : Type) := Except DocumentError α

def text : Json → Result String
  | .string text => .ok text
  | _ => .error .malformed

def flag : Json → Result Bool
  | .bool value => .ok value
  | _ => .error .malformed

def nullable (read : Json → Result α) : Json → Result (Option α)
  | .null => .ok none
  | json => do return some (← read json)

def items (read : Json → Result α) : List Json → Result (List α)
  | [] => .ok []
  | json :: rest => do
    let first ← read json
    return first :: (← items read rest)

def list (read : Json → Result α) : Json → Result (List α)
  | .array found => items read found
  | _ => .error .malformed

def ident (text : String) : Result Ident :=
  match Ident.parse text with
  | .ok i => .ok i
  | .error e => .error (.coordinate e)

/-- Keys are read before their values; a repeated key keeps its place and takes the later value. -/
def enterRows [DecidableEq κ] (key : String → Result κ) :
    Table κ String → List (String × Json) → Result (Table κ String)
  | table, [] => .ok table
  | table, (name, json) :: rest => do
    let k ← key name
    let value ← text json
    enterRows key (table.insert k value) rest

/-- What is made of the members of an object. In a broken one a fault of the members before
the break comes first. -/
def members (read : List (String × Json) → Result α) : Json → Result α
  | .object found => read found
  | .broken found => do
    let _ ← read found
    .error .malformed
  | _ => .error .malformed

def table [DecidableEq κ] (key : String → Result κ) : Json → Result (Table κ String) :=
  members (enterRows key .empty)

/-- The declared members of a record: how each is read into a value that already has the rest. -/
abbrev Fields (α : Type) := List (String × (Json → α → Result α))

structure Filled (α : Type) where
  value : α
  seen : List String := []
  others : List (String × Json) := []

def fill (fields : Fields α) (keepOthers : Bool) :
    Filled α → List (String × Json) → Result (Filled α)
  | filled, [] => .ok filled
  | filled, (name, json) :: rest =>
    match fields.lookup name with
    | some set =>
      if name ∈ filled.seen then .error .malformed
      else do
        let value ← set json filled.value
        fill fields keepOthers { filled with value, seen := name :: filled.seen } rest
    | none =>
      if keepOthers then
        if json.isFit then
          fill fields keepOthers { filled with others := filled.others ++ [(name, json)] } rest
        else .error .malformed
      else fill fields keepOthers filled rest

def fillInOrder : Fields α → Filled α → List Json → Result (Filled α)
  | _, filled, [] => .ok filled
  | [], _, _ :: _ => .error .malformed
  | (name, set) :: fields, filled, json :: rest => do
    let value ← set json filled.value
    fillInOrder fields { filled with value, seen := name :: filled.seen } rest

def demand (required : List String) (filled : Filled α) : Result (Filled α) :=
  if required.all (filled.seen.contains ·) then .ok filled else .error .malformed

/-- A record written as an object or as the array of its values. -/
def record (fields : Fields α) (required : List String) (start : α) (json : Json) : Result α := do
  let filled ← match json with
    | .array found => fillInOrder fields ⟨start, [], []⟩ found
    | other => members (fill fields false ⟨start, [], []⟩) other
  return (← demand required filled).value

/-- A record written as an object whose other members are kept. -/
def openRecord (fields : Fields α) (required : List String) (start : α) (json : Json) :
    Result (Filled α) := do
  demand required (← members (fill fields true ⟨start, [], []⟩) json)

/-- How deep the containers of a document may be nested, the document itself being the first. -/
def deepestLevel : Nat := 127

/-- A whole document. -/
def root (read : Json → Result α) (json : Json) : Result α := read (json.limited deepestLevel)

/-- A fault of meaning in the part that could be read comes before that of an incomplete text. -/
def parse (read : Json → Result α) (content : String) : Result α := do
  let reading := Json.read content
  let found ← root read reading.value
  if reading.complete then return found else .error .malformed

end Document
end Realign
