import Realign.Version.Basic

/-!
Changing the qualifier of a version: setting its build number and appending an
alignment suffix such as `redhat-1`. A snapshot marker stays at the end, numbers
that are missing are filled in when a first qualifier needs them, and a suffix
that is already there only lends its build number.
-/
namespace Realign.Version

open Text

/-- A build number keeps the width of the zero padded number it replaces, counted in bytes. -/
def padLike (existing number : List Char) : List Char :=
  if 1 < byteLength existing && existing.head? = some '0' && number.all Char.isDigit then
    List.replicate (byteLength existing - number.length) '0' ++ number
  else number

/-- The numbers, all three of them, and a point. -/
def numbersDot (v : Version) : List Char :=
  v.major ++ '.' :: v.minor ++ '.' :: v.micro ++ ['.']

/-- The version with `tail` as a new last part of its qualifier. -/
def extend (v : Version) (tail : List Char) : Version :=
  if v.hasQualifier then ⟨v.release ++ '-' :: tail ++ v.marker⟩
  else ⟨v.numbersDot ++ tail ++ v.marker⟩

def setBuildNumber (v : Version) (number : List Char) : Version :=
  match v.buildNumber? with
  | some existing =>
    ⟨v.release.take (v.release.length - existing.length) ++ padLike existing number ++ v.marker⟩
  | none => v.extend number

/-- Whether the text ends in `segment`, and the segment starts it or follows a separator. -/
def endsWithSegment (text segment : List Char) : Bool :=
  match stripEnd? segment text with
  | some head => match head.getLast? with
    | some c => isSeparator c
    | none => true
  | none => false

def hasSegment (v : Version) (segment : List Char) : Bool :=
  endsWithSegment v.releaseQualifier segment || endsWithSegment v.qualifierStem segment

/-- The build number that ends a suffix. -/
def suffixBuild? (suffix : List Char) : Option Build := Version.build? ⟨'0' :: '.' :: suffix⟩

/-- The version extended by the suffix, unless it ends in it up to the build number. -/
def appendSuffix (v : Version) (suffix : List Char) : Version :=
  match suffix.dropWhile isSeparator with
  | [] => v
  | suffix =>
    match suffixBuild? suffix with
    | some build =>
      if v.hasSegment build.stem then v.setBuildNumber build.digits else v.extend suffix
    | none => if v.hasSegment suffix then v else v.extend suffix

end Realign.Version
