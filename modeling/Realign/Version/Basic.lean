import Realign.Text.Cut
import Realign.Version.Split

/-!
Version texts and what is read off them: the three numbers, the qualifier, the
snapshot marker at the end, and the build number that closes a qualifier. A
version is its text; every part is a function of it, so a changed version needs
nothing to be kept in step.
-/
namespace Realign

open Text

structure Version where
  chars : List Char
deriving DecidableEq, Repr

/-- The last number of a qualifier, and what stands before it and its separator. -/
structure Build where
  stem : List Char
  digits : List Char
deriving DecidableEq, Repr

namespace Build

/-- A build number is all of the text or follows a point or hyphen; its stem is one line. -/
def of? (text : List Char) : Option Build :=
  match text.reverse.span isDecimal with
  | ([], _) => none
  | (digits, []) => some ⟨[], digits.reverse⟩
  | (digits, c :: stem) =>
    if (c = '.' || c = '-') && '\n' ∉ stem then some ⟨stem.reverse, digits.reverse⟩ else none

end Build

/-- One more than the largest number that is compared by its value. -/
def numberBound : Nat := 0x10000000000000000

/-- The value of a number in ASCII digits, if it is below the bound. -/
def numberValue? (digits : List Char) : Option Nat :=
  if digits ≠ [] ∧ digits.all Char.isDigit then
    let value := digits.foldl (fun n c => n * 10 + (c.toNat - '0'.toNat)) 0
    if value < numberBound then some value else none
  else none

namespace Version

def ofString (text : String) : Version := ⟨text.toList⟩

def text (v : Version) : String := String.ofList v.chars

@[simp] theorem text_ofString (text : String) : (ofString text).text = text :=
  String.ofList_toList

def snapshotMarker : List Char := "snapshot".toList

def dropLastSeparator (text : List Char) : List Char :=
  match text.getLast? with
  | some c => if isSeparator c then text.dropLast else text
  | none => text

/-- The text before a final snapshot marker, in any case, and the one separator before it. -/
def beforeSnapshot (text : List Char) : List Char :=
  let cut := text.length - snapshotMarker.length
  if lower (text.drop cut) = snapshotMarker then dropLastSeparator (text.take cut) else text

def split (v : Version) : Split := Split.of v.chars

def major (v : Version) : List Char := v.split.major.getD ['0']

def minor (v : Version) : List Char := v.split.minor.getD ['0']

def micro (v : Version) : List Char := v.split.micro.getD ['0']

/-- What follows the numbers, from its first letter or digit on. -/
def qualifier (v : Version) : List Char := v.split.rest.dropWhile isSeparator

/-- A number that cannot be valued counts as the largest. -/
def componentValue (digits : List Char) : Nat := (numberValue? digits).getD (numberBound - 1)

def components (v : Version) : Nat × Nat × Nat :=
  (componentValue v.major, componentValue v.minor, componentValue v.micro)

def isSnapshot (v : Version) : Bool := (beforeSnapshot v.chars).length ≠ v.chars.length

/-- The version text without the snapshot marker, and the marker with its separator. -/
def release (v : Version) : List Char := beforeSnapshot v.chars

def marker (v : Version) : List Char := v.chars.drop v.release.length

def releaseQualifier (v : Version) : List Char := beforeSnapshot v.qualifier

def hasQualifier (v : Version) : Bool := !v.releaseQualifier.isEmpty

def build? (v : Version) : Option Build := Build.of? v.releaseQualifier

def buildNumber? (v : Version) : Option (List Char) := v.build?.map Build.digits

def buildValue? (v : Version) : Option Nat := v.buildNumber?.bind numberValue?

/-- The qualifier without snapshot marker and build number. -/
def qualifierStem (v : Version) : List Char :=
  match v.build? with
  | some build => build.stem
  | none => v.releaseQualifier

def withoutSnapshot (v : Version) : Version := ⟨v.release⟩

/-- The highest build number among the candidates with the same numbers and qualifier stem. -/
def highestBuild? (v : Version) (candidates : List Version) : Option Nat :=
  (candidates.filterMap fun candidate =>
    if candidate.components = v.components ∧ candidate.qualifierStem = v.qualifierStem then
      candidate.buildValue?
    else none).max?

end Version
end Realign
