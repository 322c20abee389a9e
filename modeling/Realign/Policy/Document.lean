import Realign.Document

/-!
The document form of a policy: a record of the settings. Lists are written as one
text with commas or as an array of texts, which are taken as they are; the
validation of shared properties is a flag or a text.
-/
namespace Realign.Policy

open Document

def readList : Json → Result (List String)
  | .string text => .ok (splitList text)
  | json => list text json

def readValidation : Json → Result Validation
  | .bool true => .ok .enabled
  | .bool false => .ok .disabled
  | .string text =>
    match Validation.parse text with
    | .ok v => .ok v
    | .error e => .error (.setting e)
  | _ => .error .malformed

def fields : Fields Policy := [
  ("overrideTransitive", fun json p => return { p with overrideTransitive := ← flag json }),
  ("propertyClashFails", fun json p => return { p with propertyClashFails := ← flag json }),
  ("strictAlignment", fun json p => return { p with strictAlignment := ← flag json }),
  ("strictAlignmentIgnoreSuffix", fun json p =>
    return { p with strictAlignmentIgnoreSuffix := ← flag json }),
  ("strictViolationFails", fun json p => return { p with strictViolationFails := ← flag json }),
  ("excludedScopes", fun json p => return { p with excludedScopes := ← readList json }),
  (Validation.settingName, fun json p =>
    return { p with strictPropertyValidation := ← readValidation json }),
  ("versionSuffix", fun json p => return { p with versionSuffix := ← nullable text json }),
  ("versionSuffixAlternatives", fun json p =>
    return { p with versionSuffixAlternatives := ← readList json }),
  ("preserveSnapshot", fun json p => return { p with preserveSnapshot := ← flag json }),
  ("reportNonAligned", fun json p => return { p with reportNonAligned := ← flag json })]

def ofJson (json : Json) : Result Policy := record fields [] {} json

end Realign.Policy
