import Realign.Coordinate
import Realign.Table

/-!
Tables looked up by group and artifact. The entry of a group is either one value
for every artifact or a table of artifacts, never both: a wildcard discards what
its group held before, and an artifact entered after a wildcard is ignored.
-/
namespace Realign

inductive GroupEntry (α : Type) where
  | every (value : α)
  | listed (artifacts : Table String α)
deriving DecidableEq

structure WildcardTable (α : Type) where
  groups : Table String (GroupEntry α)
deriving DecidableEq

namespace GroupEntry

def get? (artifact : String) : GroupEntry α → Option α
  | .every value => some value
  | .listed artifacts => artifacts.get? artifact

def rows : GroupEntry α → List (String × α)
  | .every value => [(Ident.everyArtifact, value)]
  | .listed artifacts => artifacts.rows

def size : GroupEntry α → Nat
  | .every _ => 1
  | .listed artifacts => artifacts.size

def put (artifact : String) (value : α) : GroupEntry α → GroupEntry α
  | .every old => .every old
  | .listed artifacts => .listed (artifacts.insert artifact value)

end GroupEntry

namespace WildcardTable

def empty : WildcardTable α := ⟨.empty⟩

instance : EmptyCollection (WildcardTable α) := ⟨empty⟩

def put (t : WildcardTable α) (key : Ident) (value : α) : WildcardTable α :=
  if key.isWildcard then ⟨t.groups.insert key.group (.every value)⟩
  else
    let entry := (t.groups.get? key.group).getD (.listed .empty)
    ⟨t.groups.insert key.group (entry.put key.artifact value)⟩

/-- Whether entering a key would cost an entry: the artifacts before a wildcard, or the key itself
after one. -/
def conflicts (t : WildcardTable α) (key : Ident) : Bool :=
  match t.groups.get? key.group with
  | none => false
  | some (.every _) => !key.isWildcard
  | some (.listed artifacts) => key.isWildcard && !artifacts.isEmpty

def get? (t : WildcardTable α) (key : Ident) : Option α :=
  (t.groups.get? key.group).bind (·.get? key.artifact)

def contains (t : WildcardTable α) (key : Ident) : Bool := (t.get? key).isSome

/-- All entries, group by group, in the order in which they were first entered. -/
def rows (t : WildcardTable α) : List (Ident × α) :=
  t.groups.rows.flatMap fun (group, entry) =>
    entry.rows.map fun (artifact, value) => (⟨group, artifact⟩, value)

def size (t : WildcardTable α) : Nat :=
  t.groups.rows.foldl (fun count (_, entry) => count + entry.size) 0

def isEmpty (t : WildcardTable α) : Bool := t.rows.isEmpty

/-- Putting a value under a key changes the entry of its group and no other. -/
theorem get?_groups_put (t : WildcardTable α) (key : Ident) (value : α) (group : String) :
    (t.put key value).groups.get? group =
      if key.group = group then
        some (if key.isWildcard then .every value
          else ((t.groups.get? key.group).getD (.listed .empty)).put key.artifact value)
      else t.groups.get? group := by
  unfold put
  split <;> exact Table.get?_insert ..

end WildcardTable
end Realign
