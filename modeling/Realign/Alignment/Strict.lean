import Realign.Policy
import Realign.Version.Osgi
import Realign.Version.Suffix

/-!
When a version may replace another one under strict alignment: when it reads as the
same version followed by an accepted suffix and a build number. Both the text and
the OSGi form of the old version count, without its snapshot marker unless that is
preserved. An old version that carries one of the alternative suffixes is also tried
with the primary one. If suffix changes are tolerated, an old version that has the
suffix already may move on to the same or a higher build number.
-/
namespace Realign.Strict

open Text

/-- What stands before the first occurrence of the suffix and its separators. -/
def beforeSuffix (suffix text : List Char) : List Char :=
  match cutAtWord suffix text with
  | some ([], _) => text
  | some (before, _) => dropEndWhile isSeparator before
  | none => text

def isJoint (c : Char) : Bool := c = '.' || c = '-' || c = '_'

/-- Nothing, or a joint and a number. -/
def isBuildTail : List Char → Bool
  | [] => true
  | c :: digits => isJoint c && Version.isNumber digits

def endsInSuffix (suffix text : List Char) : Bool :=
  match strip? suffix text with
  | some tail => isBuildTail tail
  | none => false

/-- The shortest non-empty base with its joint that the suffix follows, on one line. -/
def baseOf? (suffix : List Char) : List Char → Option (List Char)
  | base :: joint :: rest =>
    if base = '\n' then none
    else if isJoint joint && endsInSuffix suffix rest then some [base, joint]
    else (baseOf? suffix (joint :: rest)).map (base :: ·)
  | _ => none

/-- The old version, and what it would be with the primary suffix in place of an alternative. -/
def variants (old : List Char) : List (List Char) → List (List Char)
  | [] => [old]
  | primary :: alternatives =>
    old :: alternatives.filterMap fun alternative =>
      (baseOf? alternative old).map fun base => base ++ primary ++ ['-', '0']

/-- The OSGi form without the suffix; numbers are filled in as if the suffix were appended. -/
def osgiBase (suffix text : List Char) : List Char :=
  let v : Version := ⟨text⟩
  if v.qualifier = [] then beforeSuffix suffix (v.appendSuffix suffix).toOsgi else v.toOsgi

/-- Whether the new version has the highest build number of the two, with all else equal. -/
def movesForward (current new : List Char) : Bool :=
  let highest := Version.highestBuild? ⟨current⟩ [⟨current⟩, ⟨new⟩]
  highest.isSome && Version.buildValue? ⟨new⟩ = highest

def matchesSuffix (p : Policy) (suffix current new : List Char) : Bool :=
  let base :=
    if p.strictAlignmentIgnoreSuffix && hasWord suffix current && movesForward current new then
      beforeSuffix suffix current
    else current
  let newBase := beforeSuffix suffix new
  base = newBase || osgiBase suffix base = newBase

def withoutMarker (p : Policy) (variant : List Char) : List Char :=
  if p.preserveSnapshot then variant else Version.beforeSnapshot variant

def compatibleChars (p : Policy) (old new : List Char) : Bool :=
  old = new ||
    match p.acceptedSuffixes.map String.toList with
    | [] =>
      let current := withoutMarker p old
      current = new || Version.toOsgi ⟨current⟩ = new
    | primary :: alternatives =>
      (variants old (primary :: alternatives)).any fun variant =>
        (primary :: alternatives).any fun suffix =>
          matchesSuffix p suffix (withoutMarker p variant) new

/-- Whether `new` is a strictly compatible replacement for `old`. -/
def compatible (p : Policy) (old new : String) : Bool := compatibleChars p old.toList new.toList

end Realign.Strict
