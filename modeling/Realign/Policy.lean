import Realign.Text.Cut

/-!
The switches of an alignment. Each has a name under which it can be set from a
text; names that mean nothing are passed over. Flags are `true` or `false` in any
case, lists are separated by commas, and blanks around a value do not count.
-/
namespace Realign

open Text

/-- What happens when a shared property moves and one of its users did not ask for it. -/
inductive Validation where
  | disabled
  | enabled
  | revert
deriving DecidableEq, Repr

structure Policy where
  overrideTransitive : Bool := false
  propertyClashFails : Bool := true
  strictAlignment : Bool := false
  strictAlignmentIgnoreSuffix : Bool := false
  strictViolationFails : Bool := false
  excludedScopes : List String := []
  strictPropertyValidation : Validation := .disabled
  versionSuffix : Option String := none
  versionSuffixAlternatives : List String := []
  preserveSnapshot : Bool := false
  reportNonAligned : Bool := false
deriving DecidableEq, Repr

/-- A value that the setting of that name cannot take. -/
structure PolicyError where
  setting : String
  value : String
deriving DecidableEq, Repr

namespace PolicyError

def message (e : PolicyError) : String :=
  "Invalid value '" ++ e.value ++ "' for configuration key '" ++ e.setting ++ "'"

end PolicyError

namespace Validation

def settingName : String := "strictPropertyValidation"

def parse (text : String) : Except PolicyError Validation :=
  let word := String.ofList (lower (trim text.toList))
  if word = "false" then .ok .disabled
  else if word = "true" then .ok .enabled
  else if word = "revert" then .ok .revert
  else .error ⟨settingName, text⟩

end Validation

namespace Policy

def parseFlag (setting text : String) : Except PolicyError Bool :=
  let word := String.ofList (lower (trim text.toList))
  if word = "true" then .ok true
  else if word = "false" then .ok false
  else .error ⟨setting, text⟩

def splitList (text : String) : List String :=
  (((piecesAt ',' text.toList).map trim).filter (· ≠ [])).map String.ofList

def parseSuffix (text : String) : Option String :=
  let suffix := trim text.toList
  if suffix = [] then none else some (String.ofList suffix)

def set (p : Policy) (setting text : String) : Except PolicyError Policy :=
  match setting with
  | "overrideTransitive" => return { p with overrideTransitive := ← parseFlag setting text }
  | "propertyClashFails" => return { p with propertyClashFails := ← parseFlag setting text }
  | "strictAlignment" => return { p with strictAlignment := ← parseFlag setting text }
  | "strictAlignmentIgnoreSuffix" =>
    return { p with strictAlignmentIgnoreSuffix := ← parseFlag setting text }
  | "strictViolationFails" => return { p with strictViolationFails := ← parseFlag setting text }
  | "excludedScopes" => .ok { p with excludedScopes := splitList text }
  | "strictPropertyValidation" =>
    return { p with strictPropertyValidation := ← Validation.parse text }
  | "versionSuffix" => .ok { p with versionSuffix := parseSuffix text }
  | "versionSuffixAlternatives" => .ok { p with versionSuffixAlternatives := splitList text }
  | "preserveSnapshot" => return { p with preserveSnapshot := ← parseFlag setting text }
  | "reportNonAligned" => return { p with reportNonAligned := ← parseFlag setting text }
  | _ => .ok p

def setAll : Policy → List (String × String) → Except PolicyError Policy
  | p, [] => .ok p
  | p, (setting, text) :: rest => do (← p.set setting text).setAll rest

/-- A suffix without its final hyphen and the build number behind it, which may be empty. -/
def suffixBase (suffix : List Char) : List Char :=
  match cutAt '-' suffix.reverse with
  | some (build, base) => if base ≠ [] ∧ build.all Char.isDigit then base.reverse else suffix
  | none => suffix

/-- The suffixes that an aligned version may carry, the one now in use first. -/
def acceptedSuffixes (p : Policy) : List String :=
  let primary := p.versionSuffix.map fun suffix => String.ofList (suffixBase suffix.toList)
  (primary.toList ++ p.versionSuffixAlternatives).filter (· ≠ "")

def defaultScope : String := "compile"

def excludes (p : Policy) (scope : Option String) : Bool :=
  p.excludedScopes.contains (scope.getD defaultScope)

end Policy
end Realign
