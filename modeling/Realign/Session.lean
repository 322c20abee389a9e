import Realign.Alignment.Pass
import Realign.Module.Document
import Realign.Policy.Document

/-!
Session documents: everything that one alignment needs. Each member may be left
out; relocation rules are kept as they are written until a table is asked for.
-/
namespace Realign

open Document

structure Session where
  policy : Policy := {}
  modules : List Module := []
  targets : Targets := {}
  relocations : List String := []
deriving DecidableEq

namespace Session

def fields : Fields Session := [
  ("config", fun json s => return { s with policy := ← Policy.ofJson json }),
  ("modules", fun json s => return { s with modules := ← Module.listOfJson json }),
  ("targets", fun json s => return { s with targets.versions := ← table ident json }),
  ("overrides", fun json s => return { s with targets.overrides := ← table ident json }),
  ("relocations", fun json s => return { s with relocations := ← list text json })]

def ofJson (json : Json) : Result Session := record fields [] {} json

def parse (content : String) : Result Session := Document.parse ofJson content

def relocationTable (s : Session) : Except RelocationError RelocationTable :=
  RelocationTable.parse s.relocations

def forest (s : Session) : Except ForestError Forest := Forest.ofModules s.modules

end Session

namespace Module

/-- A document that is an array of modules. -/
def parseList (content : String) : Result (List Module) := Document.parse listOfJson content

end Module
end Realign
