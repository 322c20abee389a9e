import Realign.Coordinate
import Realign.Table

/-!
The versions that coordinates are to be aligned to. An explicit override shadows
the aligned version of its coordinate and is forced: it wins over other wishes
for a shared property and is exempt from the strict check.
-/
namespace Realign

structure Target where
  version : String
  forced : Bool
deriving DecidableEq, Repr

structure Targets where
  versions : Table Ident String := .empty
  overrides : Table Ident String := .empty
deriving DecidableEq

namespace Targets

def isEmpty (t : Targets) : Bool := t.versions.isEmpty && t.overrides.isEmpty

def withVersion (t : Targets) (ident : Ident) (version : String) : Targets :=
  { t with versions := t.versions.insert ident version }

def withOverride (t : Targets) (ident : Ident) (version : String) : Targets :=
  { t with overrides := t.overrides.insert ident version }

def get? (t : Targets) (ident : Ident) : Option Target :=
  match t.overrides.get? ident with
  | some version => some ⟨version, true⟩
  | none => (t.versions.get? ident).map (⟨·, false⟩)

/-- Every target once: the overrides, then the versions that no override shadows. -/
def rows (t : Targets) : List (Ident × Target) :=
  t.overrides.rows.map (fun (ident, version) => (ident, ⟨version, true⟩)) ++
    (t.versions.rows.filter fun (ident, _) => !t.overrides.contains ident).map
      fun (ident, version) => (ident, ⟨version, false⟩)

end Targets
end Realign
