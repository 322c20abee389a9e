import Realign.Alignment.Pass

/-!
What a pass has done, line by line, as it is written to a log. A pass that ended in
a fault has lines too: those of what it had done and noticed before.
-/
namespace Realign

namespace VersionChange

def line (what : String) (change : VersionChange) : String :=
  "Updated " ++ what ++ " " ++ change.subject ++ " in " ++ change.holder.toString ++ " from "
    ++ change.old ++ " to " ++ change.new

end VersionChange

namespace Move

def line (move : Move) : String :=
  "Relocated " ++ move.old.toString ++ " to " ++ move.new.toString ++ " in "
    ++ move.holder.toString

end Move

namespace UndeclaredProperty

def line (u : UndeclaredProperty) : String :=
  "Property " ++ u.property ++ " is not declared for " ++ u.holder.toString

end UndeclaredProperty

namespace Notice

def line : Notice → String
  | .compoundVersion holder ident version =>
    "Skipped " ++ ident.toString ++ " in " ++ holder.toString ++ ": version " ++ version
      ++ " mixes properties with other text"
  | .strictViolation subject old new =>
    "Kept version " ++ old ++ " of " ++ subject ++ ": " ++ new
      ++ " violates the strict version-alignment rule"
  | .rollback holder user property =>
    "Rolled back property " ++ property ++ ", which " ++ user.toString ++ " in " ++ holder.toString
      ++ " did not ask to change"

end Notice

namespace Alignment

def clashLine (F : Forest) (s : Scope) : String :=
  "Property " ++ s.property ++ " of " ++ (F.identOf s.holder).toString
    ++ " is wanted in different versions"

/-- The lines of a pass in the state that it has reached. -/
def State.lines (s : State) : List String :=
  s.log.relocations.map Move.line
    ++ s.log.moduleVersions.map (VersionChange.line "module")
    ++ s.log.literalUpdates.map (VersionChange.line "artifact")
    ++ s.ledger.purged.map (clashLine s.forest)
    ++ s.log.propertyUpdates.map (VersionChange.line "property")
    ++ s.log.unresolved.map UndeclaredProperty.line
    ++ s.log.notices.map Notice.line

def finishedLine (s : State) : String :=
  "Alignment pass finished with " ++ toString s.log.changeCount ++ " change(s)"

end Alignment
end Realign
