import Realign.WildcardTable

/-!
Relocation rules, written `oldGroup:[oldArtifact]@newGroup:[newArtifact][=[version]]`.
A side without an artifact means every artifact of its group; then the other side
must mean that too, and a relocated artifact keeps its own name. A table of rules
is looked up by the old side, and several rules may share a text between commas.
-/
namespace Realign

open Text

structure RelocationRule where
  old : Ident
  new : Ident
  version : Option String
deriving DecidableEq, Repr

inductive RelocationFault where
  | noAt
  | oldSide
  | newSide
  | wildcardOnOneSide
deriving DecidableEq, Repr

/-- A rule that cannot be read, as it was written without the blanks around it. -/
structure RelocationError where
  rule : String
  fault : RelocationFault
deriving DecidableEq, Repr

namespace RelocationError

def message (e : RelocationError) : String :=
  "Invalid relocation '" ++ e.rule ++ "': " ++ match e.fault with
    | .noAt => "missing '@' separator"
    | .oldSide => "old side must be <group>:[<artifact>]"
    | .newSide => "new side must be <group>:[<artifact>]"
    | .wildcardOnOneSide => "old and new artifact must both be wildcards or both be explicit"

end RelocationError

abbrev RelocationTable := WildcardTable RelocationRule

namespace RelocationRule

def relocate (r : RelocationRule) (ident : Ident) : Ident :=
  if r.new.isWildcard then ⟨r.new.group, ident.artifact⟩ else r.new

def toString (r : RelocationRule) : String :=
  r.old.toString ++ "@" ++ r.new.toString ++ match r.version with
    | some version => "=" ++ version
    | none => ""

def side? (text : List Char) : Option Ident :=
  match cutAt ':' (trim text) with
  | some (group, artifact) =>
    if group = [] ∨ ':' ∈ artifact then none
    else if artifact = [] then some (.wildcard (String.ofList group))
    else some (.ofChars group artifact)
  | none => none

/-- The new side and the version asked for; an empty version asks for none. -/
def cutVersion (text : List Char) : List Char × Option String :=
  match cutAt '=' text with
  | some (side, version) =>
    let version := trim version
    (side, if version = [] then none else some (String.ofList version))
  | none => (text, none)

def parse (text : List Char) : Except RelocationError RelocationRule :=
  let rule := trim text
  let fail fault := .error ⟨String.ofList rule, fault⟩
  match cutAt '@' rule with
  | none => fail .noAt
  | some (oldText, rest) =>
    let (newText, version) := cutVersion rest
    match side? oldText, side? newText with
    | none, _ => fail .oldSide
    | some _, none => fail .newSide
    | some old, some new =>
      if old.isWildcard = new.isWildcard then .ok ⟨old, new, version⟩
      else fail .wildcardOnOneSide

end RelocationRule

namespace RelocationTable

def ruleTexts (text : String) : List (List Char) :=
  (piecesAt ',' text.toList).filter fun rule => !isBlankText rule

def enterAll : RelocationTable → List (List Char) → Except RelocationError RelocationTable
  | table, [] => .ok table
  | table, text :: rest => do
    let rule ← RelocationRule.parse text
    enterAll (table.put rule.old rule) rest

/-- The rules that conflict with earlier ones of their group, up to one that cannot be read. -/
def conflictsAfter : RelocationTable → List (List Char) → List RelocationRule
  | _, [] => []
  | table, text :: rest =>
    match RelocationRule.parse text with
    | .error _ => []
    | .ok rule =>
      let later := conflictsAfter (table.put rule.old rule) rest
      if table.conflicts rule.old then rule :: later else later

def conflictsAmong (texts : List String) : List RelocationRule :=
  conflictsAfter .empty (texts.flatMap ruleTexts)

def parse (texts : List String) : Except RelocationError RelocationTable :=
  enterAll .empty (texts.flatMap ruleTexts)

end RelocationTable
end Realign
