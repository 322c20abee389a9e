import Realign.Proofs.Alignment.Compatibility
import Realign.Proofs.Property.Unfolding
import Realign.Proofs.Version.Bare

/-!
The strict check accepts a version with its suffix appended. The first occurrence of the suffix in
the new version is the appended one, so what is left before it is the release of a qualified
version, and the numbers of a bare one; the OSGi form of a bare release that borrows the suffix
leaves the numbers of the release. These are the same numbers but for a digit that stands
before the snapshot marker and closes the first or the second one.
-/
namespace Realign.Strict

open Text Version

variable {p : Policy} {suffix word digits front after text old new current : List Char}
  {joint : Char} {v : Version}

/-- A word without the joint does not start before the joint if it is not in the text there. -/
theorem strip?_eq_none_of_absent (hjoint : joint ∉ word) (habsent : ¬ word <:+: front)
    (after : List Char) : strip? word (front ++ joint :: after) = none := by
  by_contra hsome
  obtain ⟨tail, htail⟩ := Option.ne_none_iff_exists'.1 hsome
  have hsplit := List.append_eq_append_iff.1 (strip?_eq_some.1 htail)
  rcases hsplit with ⟨gap, hword, hgap⟩ | ⟨gap, hfront, -⟩
  · cases gap with
    | nil => exact habsent (by rw [hword, List.append_nil])
    | cons c gap =>
      rw [List.cons_append] at hgap
      rw [hword, (List.cons.inj hgap).1] at hjoint
      simp at hjoint
  · exact habsent ⟨[], gap, by rw [hfront, List.nil_append]⟩

/-- A word behind a joint is the first one if it is not in what stands before the joint. -/
theorem cutAtWord_of_first (hne : word ≠ []) (hjoint : joint ∉ word) (habsent : ¬ word <:+: front)
    (after : List Char) :
    cutAtWord word (front ++ joint :: (word ++ after)) = some (front ++ [joint], after) := by
  induction front with
  | nil =>
    have hstrip := strip?_eq_none_of_absent hjoint habsent (word ++ after)
    rw [List.nil_append] at hstrip ⊢
    rw [cutAtWord, hstrip, cutAtWord_self_append hne]
    rfl
  | cons c front ih =>
    have hstrip := strip?_eq_none_of_absent hjoint habsent (word ++ after)
    rw [List.cons_append] at hstrip ⊢
    rw [cutAtWord, hstrip, ih fun h => habsent (h.trans (List.suffix_cons c front).isInfix)]
    rfl

theorem beforeSuffix_of_first (hne : word ≠ []) (hjoint : joint ∉ word)
    (hsep : isSeparator joint = true) (habsent : ¬ word <:+: front) (after : List Char) :
    beforeSuffix word (front ++ joint :: (word ++ after)) = dropEndWhile isSeparator front := by
  have hdrop : dropEndWhile isSeparator (front ++ [joint]) = dropEndWhile isSeparator front := by
    rw [dropEndWhile_concat, if_pos hsep]
  unfold beforeSuffix
  rw [cutAtWord_of_first hne hjoint habsent]
  cases hfront : front ++ [joint] with
  | nil => simp at hfront
  | cons c rest =>
    rw [hfront] at hdrop
    exact hdrop

section Forms

/-- A qualified version with the suffix appended has its release before the suffix. -/
theorem beforeSuffix_of_qualified (h : Stamp word digits) (hq : v.releaseQualifier ≠ [])
    (hclosed : ∃ c ∈ v.release.getLast?, isSeparator c = false)
    (habsent : ¬ word <:+: v.release) :
    beforeSuffix word (v.appendSuffix (word ++ '-' :: digits)).chars = v.release := by
  have hchars : (v.appendSuffix (word ++ '-' :: digits)).chars =
      v.release ++ '-' :: (word ++ ('-' :: digits ++ v.marker)) := by
    rw [h.appendSuffix habsent, extend, hasQualifier, if_pos (by simpa using hq)]
    simp
  obtain ⟨c, hlast, hc⟩ := hclosed
  obtain ⟨init, hinit⟩ := List.getLast?_eq_some_iff.1 hlast
  have hjoint : '-' ∉ word := h.not_mem (by decide)
  rw [hchars, beforeSuffix_of_first h.word_ne hjoint (by decide) habsent, hinit,
    dropEndWhile_concat, hc]
  rfl

/-- Behind three numbers the suffix leaves the numbers. -/
theorem beforeSuffix_numbersDot (h : Stamp word digits) (v : Version) (after : List Char) :
    beforeSuffix word (v.numbersDot ++ (word ++ after)) = v.trimmedNumbers := by
  have hjoint : '.' ∉ word := h.not_mem (by decide)
  have habsent := h.not_within (letterless_dotted v)
  rw [numbersDot_eq_dotted, List.append_assoc, List.singleton_append,
    beforeSuffix_of_first h.word_ne hjoint (by decide) habsent, trimmedNumbers]

/-- A bare version with the suffix appended. -/
theorem appendSuffix_of_bare (h : Stamp word digits) (hb : Bare v) :
    (v.appendSuffix (word ++ '-' :: digits)).chars =
      v.numbersDot ++ (word ++ ('-' :: digits ++ v.marker)) := by
  have habsent := h.not_within hb.letterless
  rw [h.appendSuffix habsent, extend, hasQualifier, hb.unqualified]
  simp

/-- The OSGi form of a bare release, without the suffix that it borrows. -/
theorem osgiBase_of_bare (h : Stamp word digits) (hb : Bare v) :
    osgiBase word v.release = v.withoutSnapshot.trimmedNumbers := by
  have hosgi := hb.toOsgi_appendSuffix h.lettered h.plain h.isQualifierChar
  have hbase := beforeSuffix_numbersDot h v.withoutSnapshot []
  rw [List.append_nil, ← hosgi] at hbase
  rw [osgiBase]
  exact (if_pos hb.qualifier_release).trans hbase

end Forms

section Check

/-- Without the suffix in it, a version is compared as it is and in its OSGi form. -/
theorem matchesSuffix_of_absent (p : Policy) (new : List Char) (habsent : ¬ suffix <:+: current) :
    matchesSuffix p suffix current new = true ↔
      current = beforeSuffix suffix new ∨ osgiBase suffix current = beforeSuffix suffix new := by
  have hword : hasWord suffix current = false :=
    Bool.eq_false_iff.2 fun h => habsent (hasWord_eq_true_iff.1 h)
  simp [matchesSuffix, hword]

theorem suffixBase_of_stamp (h : Stamp word digits) : Policy.suffixBase word = word := by
  have hhyphen : '-' ∉ word.reverse := fun hmem =>
    h.not_mem (by decide) (List.mem_reverse.1 hmem)
  rw [Policy.suffixBase, cutAt_eq_none.2 hhyphen]

/-- The suffix comes first among the accepted ones, and alone if it has no alternatives. -/
theorem acceptedSuffixes_of_stamp {s : String} (hp : p.versionSuffix = some s)
    (h : Stamp s.toList digits) :
    p.acceptedSuffixes = s :: p.versionSuffixAlternatives.filter (· ≠ "") := by
  have hne : s ≠ "" := by
    rintro rfl
    exact h.word_ne rfl
  have hbase : String.ofList (Policy.suffixBase s.toList) = s := by
    rw [suffixBase_of_stamp h, String.ofList_toList]
  simp [Policy.acceptedSuffixes, hp, hbase, hne]

theorem withoutMarker_eq_release
    (hp : p.preserveSnapshot = false ∨ v.isSnapshot = false) :
    withoutMarker p v.chars = v.release := by
  unfold withoutMarker
  split
  · rename_i hpreserve
    exact (release_of_not_isSnapshot (hp.resolve_left (by simp [hpreserve]))).1.symm
  · rfl

/-- What passes against the release, with the suffix, passes; and without alternatives nothing
but that and the same text does. -/
theorem compatibleChars_of_stamp {s : String} (hp : p.versionSuffix = some s)
    (h : Stamp s.toList digits) (hmarker : p.preserveSnapshot = false ∨ v.isSnapshot = false)
    (new : List Char) :
    (matchesSuffix p s.toList v.release new = true → compatibleChars p v.chars new = true) ∧
      (p.versionSuffixAlternatives = [] → compatibleChars p v.chars new = true →
        v.chars = new ∨ matchesSuffix p s.toList v.release new = true) := by
  have haccepted := acceptedSuffixes_of_stamp hp h
  have hrelease := withoutMarker_eq_release hmarker
  rw [compatibleChars, haccepted, List.map_cons]
  constructor
  · intro hmatch
    simp [variants, hrelease, hmatch]
  · intro hnone hcompatible
    simpa [hnone, variants, hrelease] using hcompatible

/-- The suffix that was appended is found again, except behind a digit that closed a number. -/
theorem matchesSuffix_appendSuffix_iff (p : Policy) (h : Stamp word digits)
    (hclosed : ∃ c ∈ v.release.getLast?, isSeparator c = false)
    (habsent : ¬ word <:+: v.release) :
    matchesSuffix p word v.release (v.appendSuffix (word ++ '-' :: digits)).chars = true ↔
      ¬ v.MarkerDigit := by
  rw [matchesSuffix_of_absent p _ habsent]
  by_cases hq : v.releaseQualifier = []
  · have hb : Bare v := ⟨hq, hclosed⟩
    rw [appendSuffix_of_bare h hb, beforeSuffix_numbersDot h, osgiBase_of_bare h hb]
    constructor
    · intro hsame hd
      rcases hsame with hsame | hsame
      · exact hb.trimmedNumbers_ne hd hsame.symm
      · have hlength := hb.length_trimmedNumbers hd
        rw [hsame] at hlength
        omega
    · exact fun hn => Or.inr (hb.trimmedNumbers_eq hn).symm
  · have hn : ¬ v.MarkerDigit := fun hd => hq hd.1
    exact iff_of_true (Or.inl (beforeSuffix_of_qualified h hq hclosed habsent).symm) hn

/-- Numbers alone are not their own text with a suffix in it. -/
theorem chars_ne_of_bare (h : Stamp word digits) (hb : Bare v) :
    v.chars ≠ (v.appendSuffix (word ++ '-' :: digits)).chars := by
  intro heq
  rw [appendSuffix_of_bare h hb, (release_append_marker v).1] at heq
  have hrelease : v.release = v.numbersDot ++ (word ++ '-' :: digits) :=
    List.append_cancel_right (heq.trans (by simp))
  refine h.not_within hb.letterless ?_
  rw [hrelease]
  exact ⟨v.numbersDot, '-' :: digits, by simp⟩

end Check

/-- The version text with the suffix and a build number appended. -/
def stamped (v s n : String) : String := ((ofString v).appendSuffix (s ++ "-" ++ n).toList).text

/-- The strict check accepts a version with the suffix and a build number appended, if no digit
before the snapshot marker closes the first or the second number. If the suffix has no
alternatives, it accepts no other one. -/
theorem compatible_stamped_iff (p : Policy) (v s n : String) (hs : p.versionSuffix = some s)
    (h : Stamp s.toList n.toList)
    (hclosed : ∃ c ∈ (ofString v).release.getLast?, c.isAlphanum = true)
    (habsent : ¬ s.toList <:+: (ofString v).release)
    (hmarker : p.preserveSnapshot = false ∨ (ofString v).isSnapshot = false) :
    (¬ (ofString v).MarkerDigit → compatible p v (stamped v s n) = true) ∧
      (p.versionSuffixAlternatives = [] →
        (compatible p v (stamped v s n) = true ↔ ¬ (ofString v).MarkerDigit)) := by
  have hseparator : ∃ c ∈ (ofString v).release.getLast?, isSeparator c = false := by
    obtain ⟨c, hc, halphanum⟩ := hclosed
    exact ⟨c, hc, by rw [isSeparator, halphanum]; rfl⟩
  have hstamped : (stamped v s n).toList =
      ((ofString v).appendSuffix (s.toList ++ '-' :: n.toList)).chars := by
    simp [stamped, text]
  have hmatch := matchesSuffix_appendSuffix_iff p h hseparator habsent
  obtain ⟨hpasses, honly⟩ := compatibleChars_of_stamp hs h hmarker (stamped v s n).toList
  rw [hstamped] at hpasses honly
  have haccepts (hn : ¬ (ofString v).MarkerDigit) : compatible p v (stamped v s n) = true := by
    rw [compatible, hstamped]
    exact hpasses (hmatch.2 hn)
  refine ⟨haccepts, fun hnone => ⟨fun hcompatible => ?_, haccepts⟩⟩
  rw [compatible, hstamped] at hcompatible
  intro hd
  rcases honly hnone hcompatible with heq | hmatches
  · exact chars_ne_of_bare h ⟨hd.1, hseparator⟩ heq
  · exact hmatch.1 hmatches hd

/-- The snapshot marker goes behind the suffix, and missing numbers are filled in. -/
theorem snapshot_stamped_compatible :
    compatible { versionSuffix := some "redhat" } "1.0-SNAPSHOT"
      (stamped "1.0-SNAPSHOT" "redhat" "1") = true :=
  (compatible_stamped_iff { versionSuffix := some "redhat" } "1.0-SNAPSHOT" "redhat" "1" rfl
    ⟨by decide, List.all_eq_true.1 (by decide +kernel), by decide,
      List.all_eq_true.1 (by decide +kernel)⟩
    ⟨'0', by decide +kernel⟩ (by decide +kernel) (Or.inl rfl)).1 (by decide +kernel)

/-- The digit of another script before the marker is a part of the first number, and is in the
stamped version twice. -/
theorem not_forall_stamped_compatible :
    ¬ ∀ (p : Policy) (v s n : String), p.versionSuffix = some s → Stamp s.toList n.toList →
      (∃ c ∈ (ofString v).release.getLast?, c.isAlphanum = true) →
      (¬ s.toList <:+: (ofString v).release) →
      (p.preserveSnapshot = false ∨ (ofString v).isSnapshot = false) →
      compatible p v (stamped v s n) = true := by
  intro hall
  have haccepted := hall { versionSuffix := some "redhat" } "1२SNAPSHOT" "redhat" "1" rfl
    ⟨by decide, List.all_eq_true.1 (by decide +kernel), by decide,
      List.all_eq_true.1 (by decide +kernel)⟩
    ⟨'1', by decide +kernel⟩ (by decide +kernel) (Or.inl rfl)
  have hrefused : compatible { versionSuffix := some "redhat" } "1२SNAPSHOT"
      (stamped "1२SNAPSHOT" "redhat" "1") = false := by decide +kernel
  rw [hrefused] at haccepted
  cases haccepted

end Realign.Strict
