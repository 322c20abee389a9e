import Realign.Property.Resolution

/-!
Why an alignment stops, and the words in which it says so. Following references that
lead back to a property which a module field hides would never end; that is a cause
of its own.
-/
namespace Realign

inductive AlignError where
  | resolve (e : ResolveError)
  | propertyClash (holder : Ident) (property existing : String) (contributors : List Ident)
      (proposed : String) (contributor : Ident)
  | unregisteredContributor (holder : Ident) (property : String) (ident : Ident)
  | strictViolation (subject old new : String)
  | unsupportedPattern (property value : String)
  | endlessReference (property : String)
deriving DecidableEq, Repr

namespace AlignError

def message : AlignError → String
  | .resolve e => e.message
  | .propertyClash holder property existing contributors proposed contributor =>
    "Property replacement clash in " ++ holder.toString ++ ": '" ++ property ++ "' requested as "
      ++ existing ++ " by " ++ ", ".intercalate (contributors.map Ident.toString) ++ " and as "
      ++ proposed ++ " by " ++ contributor.toString
  | .unregisteredContributor holder property ident =>
    "Property '" ++ property ++ "' in " ++ holder.toString ++ " was updated but " ++ ident.toString
      ++ " was not"
  | .strictViolation subject old new =>
    "Replacing original version " ++ old ++ " of " ++ subject ++ " with " ++ new
      ++ " violates the strict version-alignment rule"
  | .unsupportedPattern property value =>
    "Not yet implemented: explicit override of property '" ++ property ++ "' whose value '" ++ value
      ++ "' mixes placeholders with other text"
  | .endlessReference property =>
    "Endless property reference detected while following '" ++ property ++ "'"

end AlignError
end Realign
