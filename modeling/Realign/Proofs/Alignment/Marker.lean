import Realign.Proofs.Alignment.Compatibility
import Realign.Proofs.Version.Release

/-!
The strict check of a version with a snapshot marker, where markers are not preserved. Each variant
of the old version is compared without its marker, so the marked version passes as it stands if
and only if the unmarked one does. But the variants that put the primary suffix in the place of an
alternative one are made of the old text with its marker, and the alternative has to end that
text, up to a build number. So a marked version has no such variants, unless an alternative ends
in the marker itself: the two checks differ where the unmarked version passes by a variant only.
-/
namespace Realign.Strict

open Text Version

variable {p : Policy} {old front alternative : List Char}

/-- What the old version would be with the primary suffix in place of an alternative one. -/
def rewritten (old : List Char) : List (List Char) → List (List Char)
  | [] => []
  | primary :: alternatives => alternatives.filterMap fun alternative =>
      (baseOf? alternative old).map fun base => base ++ primary ++ ['-', '0']

/-- Whether the new version passes for one variant of the old one. -/
def passesFor (p : Policy) (variant new : List Char) : Bool :=
  match p.acceptedSuffixes.map String.toList with
  | [] => withoutMarker p variant = new || toOsgi ⟨withoutMarker p variant⟩ = new
  | primary :: alternatives => (primary :: alternatives).any fun suffix =>
      matchesSuffix p suffix (withoutMarker p variant) new

/-- Whether the new version passes for the old one with the primary suffix in place of another. -/
def passesRewritten (p : Policy) (old new : List Char) : Bool :=
  (rewritten old (p.acceptedSuffixes.map String.toList)).any fun variant => passesFor p variant new

/-- A version passes if it is the old one, for the old one as it stands, or for a rewritten one. -/
theorem compatibleChars_eq (p : Policy) (old new : List Char) :
    compatibleChars p old new =
      (decide (old = new) || (passesFor p old new || passesRewritten p old new)) := by
  unfold compatibleChars passesRewritten passesFor
  cases p.acceptedSuffixes.map String.toList with
  | nil => simp [rewritten]
  | cons primary alternatives => simp [rewritten, variants]

section Marker

/-- The marker that is appended, in capitals. -/
def capitalMarker : List Char := ['S', 'N', 'A', 'P', 'S', 'H', 'O', 'T']

/-- The text with the marker behind a hyphen. -/
def marked (text : List Char) : List Char := text ++ '-' :: capitalMarker

theorem lower_capitalMarker : lower capitalMarker = snapshotMarker := by decide

theorem beforeSnapshot_marked (text : List Char) : beforeSnapshot (marked text) = text := by
  have hhyphen : isSeparator '-' = true := by decide
  rw [marked, List.append_cons, beforeSnapshot_append lower_capitalMarker, dropLastSeparator_concat,
    if_pos hhyphen]

/-- The marker is gone before anything is compared. -/
theorem passesFor_marked (hp : p.preserveSnapshot = false) (hold : beforeSnapshot old = old)
    (new : List Char) : passesFor p (marked old) new = passesFor p old new := by
  have hmarker : withoutMarker p (marked old) = withoutMarker p old := by
    simp [withoutMarker, hp, beforeSnapshot_marked, hold]
  rw [passesFor, passesFor, hmarker]

/-- No build number ends a marked text. -/
theorem eq_nil_of_isBuildTail {tail : List Char} (h : isBuildTail tail = true)
    (htext : marked old = front ++ tail) : tail = [] := by
  cases tail with
  | nil => rfl
  | cons joint digits =>
    have hnumber : isNumber digits = true := (Bool.and_eq_true_iff.1 h).2
    have hne : digits ≠ [] := (isNumber_iff.1 hnumber).1
    have hlast := congrArg List.getLast? htext
    rw [marked, List.append_cons, List.getLast?_append_of_ne_nil _ (by simp [capitalMarker]),
      List.append_cons front, List.getLast?_append_of_ne_nil _ hne,
      List.getLast?_eq_some_getLast hne] at hlast
    have hletter : isDecimal 'T' = false := by decide
    have hend : 'T' = digits.getLast hne := Option.some.inj hlast
    exact absurd (hend ▸ List.getLast_mem hne) (not_mem_of_isNumber hnumber hletter)

/-- What stands behind a joint at the end of a marked text ends in the marker. -/
theorem marker_suffix_of_joint {joint : Char} (hjoint : isJoint joint = true)
    (htext : marked old = front ++ joint :: alternative) : capitalMarker <:+ alternative := by
  have hmem : joint ∉ capitalMarker := by
    have hletters : capitalMarker.any isJoint = false := by decide
    exact fun hmem => List.any_eq_false.1 hletters joint hmem hjoint
  rw [marked, List.append_cons] at htext
  -- Either the marker reaches back over the joint, which is not in it, or it stands behind it.
  rcases List.append_eq_append_iff.1 htext with ⟨gap, -, hgap⟩ | ⟨gap, -, hgap⟩
  · exact absurd (hgap ▸ List.mem_append_right gap (List.mem_cons_self ..)) hmem
  · cases gap with
    | nil =>
      rw [List.nil_append] at hgap
      exact absurd (hgap ▸ List.mem_cons_self ..) hmem
    | cons c gap => exact ⟨gap, (List.cons.inj hgap).2.symm⟩

theorem baseOf?_marked (h : ¬ capitalMarker <:+ alternative) (old : List Char) :
    baseOf? alternative (marked old) = none := by
  rw [Option.eq_none_iff_forall_ne_some]
  intro base hbase
  obtain ⟨front, joint, tail, hjoint, htail, -, htext⟩ := baseOf?_eq_some hbase
  have hcut : front ++ joint :: (alternative ++ tail) =
      (front ++ joint :: alternative) ++ tail := by
    simp
  have hnil : tail = [] := eq_nil_of_isBuildTail htail (htext.trans hcut)
  rw [hnil, List.append_nil] at htext
  exact h (marker_suffix_of_joint hjoint htext)

/-- A marked version is not rewritten for alternatives that do not end in the marker. -/
theorem passesRewritten_marked
    (h : ∀ alternative ∈ p.acceptedSuffixes.tail, ¬ capitalMarker <:+ alternative.toList)
    (old new : List Char) : passesRewritten p (marked old) new = false := by
  have hnone : rewritten (marked old) (p.acceptedSuffixes.map String.toList) = [] := by
    cases hsuffixes : p.acceptedSuffixes with
    | nil => rfl
    | cons primary alternatives =>
      rw [hsuffixes, List.tail_cons] at h
      rw [List.map_cons, rewritten, List.filterMap_eq_nil_iff]
      intro alternative hmem
      obtain ⟨text, htext, rfl⟩ := List.mem_map.1 hmem
      rw [baseOf?_marked (h text htext), Option.map_none]
  rw [passesRewritten, hnone, List.any_nil]

end Marker

/-- The marker makes no difference if and only if the old version passes as it stands or both pass
alike for their rewritten variants. If no alternative suffix ends in the marker this is to say that
the unmarked version does not pass for a rewritten variant only. -/
theorem compatible_marked_iff (p : Policy) (old new : String) (hp : p.preserveSnapshot = false)
    (hold : (ofString old).isSnapshot = false) (hne : new ≠ old) (hne' : new ≠ old ++ "-SNAPSHOT") :
    (compatible p (old ++ "-SNAPSHOT") new = compatible p old new ↔
      passesFor p old.toList new.toList = true ∨
        passesRewritten p (marked old.toList) new.toList =
          passesRewritten p old.toList new.toList) ∧
    ((∀ alternative ∈ p.acceptedSuffixes.tail, ¬ capitalMarker <:+ alternative.toList) →
      (compatible p (old ++ "-SNAPSHOT") new = compatible p old new ↔
        (passesRewritten p old.toList new.toList = true →
          passesFor p old.toList new.toList = true))) := by
  have hmarked : (old ++ "-SNAPSHOT").toList = marked old.toList := String.toList_append
  have hfor : passesFor p (marked old.toList) new.toList = passesFor p old.toList new.toList :=
    passesFor_marked hp (release_of_not_isSnapshot hold).1 new.toList
  have hunmarked : compatible p old new =
      (passesFor p old.toList new.toList || passesRewritten p old.toList new.toList) := by
    have hdiffer : old.toList ≠ new.toList := fun heq => hne (String.toList_inj.1 heq).symm
    rw [compatible, compatibleChars_eq, decide_eq_false hdiffer, Bool.false_or]
  have hcompatible : compatible p (old ++ "-SNAPSHOT") new =
      (passesFor p old.toList new.toList || passesRewritten p (marked old.toList) new.toList) := by
    have hdiffer : (old ++ "-SNAPSHOT").toList ≠ new.toList :=
      fun heq => hne' (String.toList_inj.1 heq).symm
    rw [compatible, compatibleChars_eq, decide_eq_false hdiffer, Bool.false_or, hmarked, hfor]
  rw [hunmarked, hcompatible]
  constructor
  · cases passesFor p old.toList new.toList <;> simp
  · intro halternatives
    rw [passesRewritten_marked halternatives]
    cases passesFor p old.toList new.toList <;>
      cases passesRewritten p old.toList new.toList <;> simp

/-- A policy with a primary suffix and an alternative one, where suffix changes are tolerated. -/
def redhatPolicy : Policy where
  versionSuffix := some "redhat"
  versionSuffixAlternatives := ["temporary-redhat"]
  strictAlignmentIgnoreSuffix := true

/-- A version without a suffix passes as it stands, with its marker or without it. -/
theorem redhat_marked_compatible :
    compatible redhatPolicy ("1.0" ++ "-SNAPSHOT") "1.0.0.redhat-1" =
      compatible redhatPolicy "1.0" "1.0.0.redhat-1" :=
  ((compatible_marked_iff redhatPolicy "1.0" "1.0.0.redhat-1" rfl (by decide +kernel) (by decide)
    (by decide)).2 (by decide +kernel)).2 fun _ => by decide +kernel

/-- With a marker behind it an alternative suffix is not found. -/
theorem not_forall_compatible_marked :
    ¬ ∀ (p : Policy) (old new : String), p.preserveSnapshot = false →
      (ofString old).isSnapshot = false → new ≠ old → new ≠ old ++ "-SNAPSHOT" →
      compatible p (old ++ "-SNAPSHOT") new = compatible p old new := by
  intro hall
  have hsame := hall redhatPolicy "1.0.temporary-redhat-3" "1.0.0.redhat-5" rfl (by decide +kernel)
    (by decide) (by decide)
  exact absurd hsame (by decide +kernel)

end Realign.Strict
