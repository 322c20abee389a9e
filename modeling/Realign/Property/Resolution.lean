import Realign.Module
import Realign.Property.Placeholder

/-!
Resolving placeholders over a chain of modules, the least specific first. Names
that address the last module or the one before it are looked up there; all others,
and those that find no such module, in one table that amalgamates the properties of
the chain, later ones winning. An unknown name stays as it is written. A name that
is met again while its own value is being resolved is a cycle, so the names that may
still be entered become fewer with every step inward and resolution ends.
-/
namespace Realign

open Text

inductive ResolveError where
  | cycle (name : String)
  | unterminated (expression : String)
deriving DecidableEq, Repr

namespace ResolveError

def message : ResolveError → String
  | .cycle name =>
    "Cyclic property reference detected while resolving '" ++ Placeholder.spell name ++ "'"
  | .unterminated expression => "Unterminated placeholder in '" ++ expression ++ "'"

end ResolveError

inductive ModuleField where
  | version
  | group
  | artifact
deriving DecidableEq, Repr

namespace ModuleField

def ofText? (text : List Char) : Option ModuleField :=
  if text = "version".toList then some .version
  else if text = "groupId".toList then some .group
  else if text = "artifactId".toList then some .artifact
  else none

theorem ofText?_eq_some {text : List Char} {f : ModuleField} (h : ofText? text = some f) :
    text ∈ ["version".toList, "groupId".toList, "artifactId".toList] := by
  unfold ofText? at h
  split at h
  · simp [*]
  · split at h
    · simp [*]
    · split at h
      · simp [*]
      · cases h

def read (m : Module) : ModuleField → String
  | .version => m.version
  | .group => m.ident.group
  | .artifact => m.ident.artifact

end ModuleField

/-- A field of the last module of a chain or of the one before it. -/
structure FieldName where
  ofParent : Bool
  field : ModuleField
deriving DecidableEq, Repr

namespace FieldName

def roots : List (List Char) := ["project.".toList, "pom.".toList]

def parentStep : List Char := "parent.".toList

def ofText? (name : String) : Option FieldName := do
  let rest ← roots.findSome? fun root => strip? root name.toList
  match strip? parentStep rest with
  | some rest => (ModuleField.ofText? rest).map (⟨true, ·⟩)
  | none => (ModuleField.ofText? rest).map (⟨false, ·⟩)

/-- The names of fields, spelt in both ways. -/
def spellings : List (List Char) :=
  roots.flatMap fun root =>
    ["version".toList, "groupId".toList, "artifactId".toList].flatMap fun field =>
      [root ++ field, root ++ parentStep ++ field]

theorem mem_spellings_of_ofText? {name : String} {f : FieldName} (h : ofText? name = some f) :
    name.toList ∈ spellings := by
  unfold ofText? at h
  obtain ⟨rest, hr, h⟩ := Option.bind_eq_some_iff.1 h
  obtain ⟨root, hroot, hs⟩ := List.exists_of_findSome?_eq_some hr
  refine List.mem_flatMap.2 ⟨root, hroot, List.mem_flatMap.2 ?_⟩
  rw [strip?_eq_some.1 hs]
  split at h
  · rename_i field hf
    obtain ⟨g, hg, -⟩ := Option.map_eq_some_iff.1 h
    exact ⟨field, ModuleField.ofText?_eq_some hg, by simp [strip?_eq_some.1 hf]⟩
  · obtain ⟨g, hg, -⟩ := Option.map_eq_some_iff.1 h
    exact ⟨rest, ModuleField.ofText?_eq_some hg, by simp⟩

end FieldName

/-- The names that are left when one has been entered. -/
def without [DecidableEq α] (name : α) (names : List α) : List α := names.filter (· ≠ name)

theorem length_without_lt [DecidableEq α] {name : α} {names : List α} (h : name ∈ names) :
    (without name names).length < names.length :=
  List.length_filter_lt_length_iff_exists.2 ⟨name, h, by simp⟩

inductive Piece where
  | literal (text : List Char)
  | reference (name : List Char)
  | unclosed
deriving DecidableEq, Repr

/-- The literal texts and references of a value, in order; nothing is read past an open end. -/
def Piece.ofText (text : List Char) : List Piece :=
  match _hw : cutAtWord Placeholder.opening text with
  | none => [.literal text]
  | some (before, body) =>
    match _hc : cutAt Placeholder.closing body with
    | none => [.literal before, .unclosed]
    | some (name, rest) => .literal before :: .reference name :: Piece.ofText rest
termination_by text.length
decreasing_by
  rw [cutAtWord_eq_some _hw, (cutAt_eq_some _hc).1]
  simp
  omega

/-- What the names of a chain of modules stand for. -/
structure Resolver where
  table : Table String String
  last : Option Module
  beforeLast : Option Module

namespace Resolver

/-- The property rows of a module that count, in the order in which they are entered. -/
def rowsOf (m : Module) : List (String × String) :=
  (m.places.filterMap m.body?).flatMap fun body => body.properties.rows

def ofChain (chain : List Module) : Resolver where
  table := .ofRows (chain.flatMap rowsOf)
  last := chain.getLast?
  beforeLast := chain.dropLast.getLast?

def field? (r : Resolver) (name : FieldName) : Option String :=
  (if name.ofParent then r.beforeLast else r.last).map name.field.read

def lookup (r : Resolver) (name : String) : Option String :=
  ((FieldName.ofText? name).bind r.field?) <|> r.table.get? name

/-- Every name that can be looked up with success. -/
def knownNames (r : Resolver) : List String :=
  FieldName.spellings.map String.ofList ++ r.table.keys

theorem mem_knownNames_of_lookup {r : Resolver} {name value : String}
    (h : r.lookup name = some value) : name ∈ r.knownNames := by
  unfold lookup at h
  cases hf : FieldName.ofText? name with
  | some f =>
    have := FieldName.mem_spellings_of_ofText? hf
    exact List.mem_append_left _ (List.mem_map.2 ⟨_, this, String.ofList_toList⟩)
  | none =>
    rw [hf] at h
    exact List.mem_append_right _ (Table.mem_keys_of_get? h)

/-- The text that the pieces of a value make, with `enter` for the text of a known name. The pieces
come from `whole`, and nothing is made of an open end. -/
def assemble (look : String → Option String)
    (enter : String → String → Except ResolveError (List Char)) (whole : List Char) :
    List Piece → Except ResolveError (List Char)
  | [] => .ok []
  | .literal text :: rest => do return text ++ (← assemble look enter whole rest)
  | .unclosed :: _ => .error (.unterminated (String.ofList whole))
  | .reference name :: rest =>
    match look (String.ofList name) with
    | none => do return Placeholder.spellChars name ++ (← assemble look enter whole rest)
    | some raw => do
      let inner ← enter (String.ofList name) raw
      return inner ++ (← assemble look enter whole rest)

/-- The text of a value whose references are made in their turn. Only available names may be
entered, and none within its own value. -/
def evaluate (look : String → Option String) (available : List String) (value : List Char) :
    Except ResolveError (List Char) :=
  assemble look (fun name raw =>
    if _h : name ∈ available then evaluate look (without name available) raw.toList
    else .error (.cycle name)) value (Piece.ofText value)
termination_by available.length
decreasing_by exact length_without_lt _h

def resolve (r : Resolver) (value : String) : Except ResolveError String := do
  let text ← evaluate r.lookup r.knownNames value.toList
  return String.ofList text

end Resolver
end Realign
