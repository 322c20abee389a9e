import Realign.Proofs.Alignment.Acceptance
import Realign.Proofs.Version.Stamped

/-!
What the strict check accepts in place of a version that is stamped already, where suffix changes
are tolerated. Texts that are stamped with one suffix on one footing replace each other if the
build number does not get lower: then the footing is compared with itself, and otherwise the whole
old text, which has the suffix in it, is compared with the footing. A number that has no value
does not count as a build number, which lets a version fall back from one and keeps it
from moving on to one. A text that is stamped with an alternative suffix is tried with the
primary one and the build number zero, so every build number with a value may follow it.
-/
namespace Realign.Strict

open Text Version

variable {p : Policy} {front word digits a b tail : List Char} {joint : Char}

section Stamped

theorem hasWord_stampOn (front : List Char) (joint : Char) (word digits : List Char) :
    hasWord word (stampOn front joint word digits) = true :=
  hasWord_eq_true_iff.2 ⟨front ++ [joint], '-' :: digits, by simp [stampOn]⟩

/-- What stands before a suffix that is not in the footing is the footing. -/
theorem beforeSuffix_stampOn (h : Footing front joint) (hs : Stamp word digits)
    (habsent : ¬ word <:+: front) :
    beforeSuffix word (stampOn front joint word digits) = front := by
  obtain ⟨c, hlast, hc⟩ := h.closed
  obtain ⟨init, rfl⟩ := List.getLast?_eq_some_iff.1 hlast
  rw [stampOn, beforeSuffix_of_first hs.word_ne (hs.not_mem h.not_isAlpha_joint) h.isSeparator_joint
    habsent, dropEndWhile_concat, hc]
  rfl

/-- A stamped text is not its footing, as it stands or in its OSGi form. -/
theorem stampOn_ne_front (h : Footing front joint) (hs : Stamp word digits)
    (habsent : ¬ word <:+: front) : stampOn front joint word digits ≠ front ∧
      osgiBase word (stampOn front joint word digits) ≠ front := by
  have hosgi : osgiBase word (stampOn front joint word digits) =
      toOsgi ⟨stampOn front joint word digits⟩ := by
    rw [osgiBase]
    refine if_neg ?_
    rw [h.qualifier_stampOn hs]
    simp
  constructor
  · intro heq
    have hword := hasWord_eq_true_iff.1 (hasWord_stampOn front joint word digits)
    rw [heq] at hword
    exact habsent hword
  · intro heq
    have hword := h.within_toOsgi_stampOn hs
    rw [← hosgi, heq] at hword
    exact habsent hword

theorem movesForward_stampOn (h : Footing front joint) (ha : Stamp word a) (hb : Stamp word b) :
    movesForward (stampOn front joint word a) (stampOn front joint word b) = true ↔
      Advances a b := by
  unfold movesForward Advances
  rw [h.highestBuild?_stampOn ha hb, h.buildValue?_stampOn hb]
  cases numberValue? a with
  | none => cases numberValue? b <;> simp
  | some m =>
    cases numberValue? b with
    | none => simp
    | some n =>
      have hhighest : ([some m, some n].filterMap id).max? = some (max m n) := rfl
      simp only [hhighest, Option.isSome_some, Bool.true_and, decide_eq_true_iff,
        Option.some.injEq, forall_eq', exists_eq_left']
      omega

/-- Where suffix changes are tolerated, a stamped text takes another build number if it is not a
step back. -/
theorem matchesSuffix_stampOn_iff (hp : p.strictAlignmentIgnoreSuffix = true)
    (h : Footing front joint) (ha : Stamp word a) (hb : Stamp word b)
    (habsent : ¬ word <:+: front) :
    matchesSuffix p word (stampOn front joint word a) (stampOn front joint word b) = true ↔
      Advances a b := by
  rw [← movesForward_stampOn h ha hb, matchesSuffix, hp, hasWord_stampOn,
    beforeSuffix_stampOn h hb habsent, beforeSuffix_stampOn h ha habsent]
  -- If the number does not fall, the footing is compared with itself; else the whole old text is.
  cases movesForward (stampOn front joint word a) (stampOn front joint word b) with
  | true => simp
  | false =>
    obtain ⟨hne, hosgi⟩ := stampOn_ne_front h ha habsent
    simp [hne, hosgi]

end Stamped

section Alternative

theorem isBuildTail_of_stamp (hs : Stamp word digits) : isBuildTail ('-' :: digits) = true := by
  have hjoint : isJoint '-' = true := by decide
  rw [isBuildTail, hjoint, hs.isNumber]
  rfl

/-- The base ends before the first occurrence of the suffix behind a joint. -/
theorem baseOf?_of_first (hne : front ≠ []) (hline : '\n' ∉ front) (habsent : ¬ word <:+: front)
    (hjoint : isJoint joint = true) (hmem : joint ∉ word) (htail : isBuildTail tail = true) :
    baseOf? word (front ++ joint :: (word ++ tail)) = some (front ++ [joint]) := by
  have hends : endsInSuffix word (word ++ tail) = true := by
    rw [endsInSuffix, strip?_eq_some.2 rfl]
    exact htail
  -- The cut goes before the first joint with the suffix behind it and a build number at most, so
  -- it is enough that the suffix does not start anywhere inside the front.
  induction front with
  | nil => exact absurd rfl hne
  | cons c front ih =>
    rw [List.mem_cons, not_or] at hline
    cases front with
    | nil =>
      simp only [List.cons_append, List.nil_append]
      rw [baseOf?, if_neg (Ne.symm hline.1), hjoint, hends]
      rfl
    | cons d front =>
      have hback : ¬ word <:+: d :: front :=
        fun hw => habsent (hw.trans (List.infix_cons List.infix_rfl))
      have hfar : ¬ word <:+: front := fun hw => hback (hw.trans (List.infix_cons List.infix_rfl))
      have hnot : endsInSuffix word (front ++ joint :: (word ++ tail)) = false := by
        rw [endsInSuffix, strip?_eq_none_of_absent hmem hfar]
      have hrest := ih (by simp) hline.2 hback
      rw [List.cons_append] at hrest
      simp only [List.cons_append]
      rw [baseOf?, if_neg (Ne.symm hline.1), hnot, Bool.and_false, if_neg Bool.false_ne_true, hrest]
      rfl

theorem isJoint_of_footing (h : Footing front joint) : isJoint joint = true := by
  rcases h.joint with rfl | rfl <;> decide

theorem baseOf?_stampOn (h : Footing front joint) (hs : Stamp word digits)
    (habsent : ¬ word <:+: front) :
    baseOf? word (stampOn front joint word digits) = some (front ++ [joint]) :=
  baseOf?_of_first h.front_ne_nil (fun hmem => (h.plain _ hmem).1 rfl) habsent
    (isJoint_of_footing h) (hs.not_mem h.not_isAlpha_joint) (isBuildTail_of_stamp hs)

/-- A text that is stamped with an alternative suffix is tried as stamped with the primary one. -/
theorem stampOn_mem_variants {primary alternative : List Char} {alternatives : List (List Char)}
    (h : Footing front joint) (hs : Stamp alternative a) (habsent : ¬ alternative <:+: front)
    (hmem : alternative ∈ alternatives) :
    stampOn front joint primary ['0'] ∈
      variants (stampOn front joint alternative a) (primary :: alternatives) := by
  rw [variants]
  refine List.mem_cons_of_mem _ (List.mem_filterMap.2 ⟨alternative, hmem, ?_⟩)
  rw [baseOf?_stampOn h hs habsent]
  simp [stampOn]

end Alternative

section Check

theorem withoutMarker_stampOn (p : Policy) (hs : Stamp word digits) :
    withoutMarker p (stampOn front joint word digits) = stampOn front joint word digits := by
  rw [withoutMarker, Footing.beforeSnapshot_stampOn hs, ite_self]

theorem stampOn_inj (h : stampOn front joint word a = stampOn front joint word b) : a = b := by
  simpa [stampOn] using h

theorem compatibleChars_stampOn_iff (haccepted : p.acceptedSuffixes.map String.toList = [word])
    (hp : p.strictAlignmentIgnoreSuffix = true) (h : Footing front joint) (ha : Stamp word a)
    (hb : Stamp word b) (habsent : ¬ word <:+: front) :
    compatibleChars p (stampOn front joint word a) (stampOn front joint word b) = true ↔
      a = b ∨ Advances a b := by
  have hsame : stampOn front joint word a = stampOn front joint word b ↔ a = b :=
    ⟨stampOn_inj, fun heq => by rw [heq]⟩
  simp only [compatibleChars, haccepted, variants, List.filterMap_nil, List.any_cons, List.any_nil,
    Bool.or_false, withoutMarker_stampOn p ha, Bool.or_eq_true, decide_eq_true_eq, hsame,
    matchesSuffix_stampOn_iff hp h ha hb habsent]

/-- A version text and what it is stamped with stand on the same footing, whatever the stamp. -/
theorem exists_footing_stamped {v : String} (hv : OneLineAscii v.toList)
    (hsnapshot : (ofString v).isSnapshot = false)
    (hclosed : ∃ c ∈ v.toList.getLast?, c.isAlphanum = true) :
    ∃ front joint, Footing front joint ∧ ∀ s n : String, Stamp s.toList n.toList →
      ¬ s.toList <:+: v.toList →
      ¬ s.toList <:+: front ∧ (stamped v s n).toList = stampOn front joint s.toList n.toList := by
  have hseparator : ∃ c ∈ v.toList.getLast?, isSeparator c = false := by
    obtain ⟨c, hc, halphanum⟩ := hclosed
    exact ⟨c, hc, by rw [isSeparator, halphanum]; rfl⟩
  obtain ⟨front, joint, h, hstamp⟩ :=
    exists_footing (v := ofString v) hv.plain hsnapshot hseparator
  refine ⟨front, joint, h, fun s n hs habsent => ?_⟩
  obtain ⟨hfront, hchars⟩ := hstamp s.toList n.toList hs habsent
  refine ⟨hfront, ?_⟩
  rw [← hchars]
  simp [stamped, text]

/-- With one suffix accepted and suffix changes tolerated, a stamped version takes another build
number if and only if that one has a value and is not lower, where a number without a value is
lower than all that have one. -/
theorem compatible_restamped_iff (p : Policy) (v s a b : String) (hs : p.acceptedSuffixes = [s])
    (hp : p.strictAlignmentIgnoreSuffix = true) (ha : Stamp s.toList a.toList)
    (hb : Stamp s.toList b.toList) (hv : OneLineAscii v.toList)
    (hsnapshot : (ofString v).isSnapshot = false)
    (hclosed : ∃ c ∈ v.toList.getLast?, c.isAlphanum = true)
    (habsent : ¬ s.toList <:+: v.toList) :
    compatible p (stamped v s a) (stamped v s b) = true ↔
      a = b ∨ decimalValue b.toList < numberBound ∧
        (decimalValue a.toList ≤ decimalValue b.toList ∨ numberBound ≤ decimalValue a.toList) := by
  obtain ⟨front, joint, h, hstamp⟩ := exists_footing_stamped hv hsnapshot hclosed
  obtain ⟨hfront, hold⟩ := hstamp s a ha habsent
  obtain ⟨-, hnew⟩ := hstamp s b hb habsent
  have haccepted : p.acceptedSuffixes.map String.toList = [s.toList] := by rw [hs]; rfl
  rw [compatible, hold, hnew, compatibleChars_stampOn_iff haccepted hp h ha hb hfront,
    advances_iff ha hb, String.toList_inj]

/-- Build numbers are compared by their value, so ten comes after nine. -/
theorem redhat_ten_after_nine :
    compatible { versionSuffix := some "redhat", strictAlignmentIgnoreSuffix := true }
      (stamped "1.0.Final" "redhat" "9") (stamped "1.0.Final" "redhat" "10") = true :=
  (compatible_restamped_iff _ "1.0.Final" "redhat" "9" "10" (by decide +kernel) rfl
    (by decide +kernel) (by decide +kernel)
    (by decide +kernel) (by decide +kernel) ⟨'l', by decide +kernel⟩ (by decide +kernel)).2
    (Or.inr ⟨by decide +kernel, Or.inl (by decide +kernel)⟩)

/-- From a build number that is too large for a value a version falls back to the first one. -/
theorem not_forall_restamped_le :
    ¬ ∀ (p : Policy) (v s a b : String), p.acceptedSuffixes = [s] →
      p.strictAlignmentIgnoreSuffix = true → Stamp s.toList a.toList → Stamp s.toList b.toList →
      OneLineAscii v.toList → (ofString v).isSnapshot = false →
      (∃ c ∈ v.toList.getLast?, c.isAlphanum = true) → (¬ s.toList <:+: v.toList) →
      (compatible p (stamped v s a) (stamped v s b) = true ↔
        a = b ∨ decimalValue a.toList ≤ decimalValue b.toList) := by
  intro hall
  have hiff := hall { versionSuffix := some "redhat", strictAlignmentIgnoreSuffix := true } "1.0"
    "redhat" "18446744073709551616" "1" (by decide +kernel) rfl
    (by decide +kernel) (by decide +kernel)
    (by decide +kernel) (by decide +kernel) ⟨'0', by decide +kernel⟩ (by decide +kernel)
  have haccepted :
      compatible { versionSuffix := some "redhat", strictAlignmentIgnoreSuffix := true }
        (stamped "1.0" "redhat" "18446744073709551616") (stamped "1.0" "redhat" "1") = true := by
    decide +kernel
  rcases hiff.1 haccepted with heq | hle
  · exact absurd heq (by decide)
  · exact absurd hle (by decide +kernel)

/-- A version that is stamped with an alternative suffix may be stamped with the primary one
instead, with any build number that has a value. -/
theorem compatible_of_alternative (p : Policy) (v s alternative a b : String)
    (hs : p.versionSuffix = some s) (halternative : alternative ∈ p.versionSuffixAlternatives)
    (hp : p.strictAlignmentIgnoreSuffix = true) (ha : Stamp alternative.toList a.toList)
    (hb : Stamp s.toList b.toList) (hvalue : decimalValue b.toList < numberBound)
    (hv : OneLineAscii v.toList) (hsnapshot : (ofString v).isSnapshot = false)
    (hclosed : ∃ c ∈ v.toList.getLast?, c.isAlphanum = true)
    (habsent : ¬ s.toList <:+: v.toList) (habsent' : ¬ alternative.toList <:+: v.toList) :
    compatible p (stamped v alternative a) (stamped v s b) = true := by
  obtain ⟨front, joint, h, hstamp⟩ := exists_footing_stamped hv hsnapshot hclosed
  obtain ⟨hfront', hold⟩ := hstamp alternative a ha habsent'
  obtain ⟨hfront, hnew⟩ := hstamp s b hb habsent
  have hmatch : matchesSuffix p s.toList (stampOn front joint s.toList ['0'])
      (stampOn front joint s.toList b.toList) = true := by
    rw [matchesSuffix_stampOn_iff hp h hb.zero hb hfront]
    exact advances_zero hb hvalue
  have hne : alternative ≠ "" := by
    rintro rfl
    exact ha.word_ne rfl
  have hmem : alternative.toList ∈
      (p.versionSuffixAlternatives.filter (· ≠ "")).map String.toList :=
    List.mem_map_of_mem (List.mem_filter.2 ⟨halternative, by simpa using hne⟩)
  rw [compatible, compatibleChars, hold, hnew, acceptedSuffixes_of_stamp hs hb, List.map_cons,
    Bool.or_eq_true]
  right
  refine List.any_eq_true.2 ⟨_, stampOn_mem_variants h ha hfront' hmem, ?_⟩
  refine List.any_eq_true.2 ⟨s.toList, List.mem_cons_self .., ?_⟩
  rwa [withoutMarker_stampOn p hb.zero]

/-- The alternative suffix may end in the primary one. -/
theorem temporary_redhat_to_redhat :
    compatible { versionSuffix := some "redhat", versionSuffixAlternatives := ["temporaryredhat"],
                 strictAlignmentIgnoreSuffix := true }
      (stamped "1.0" "temporaryredhat" "18446744073709551616")
      (stamped "1.0" "redhat" "0") = true :=
  compatible_of_alternative _ "1.0" "redhat" "temporaryredhat" "18446744073709551616" "0" rfl
    (by simp) rfl
    (by decide +kernel) (by decide +kernel)
    (by decide +kernel) (by decide +kernel) (by decide +kernel) ⟨'0', by decide +kernel⟩
    (by decide +kernel) (by decide +kernel)

end Check

end Realign.Strict
