import Realign.Proofs.Version.Release

/-!
Versions that are numbers alone, up to a snapshot marker. The release is read to its end, and the
version has the same numbers unless its marker starts with a digit: that digit closes the last
number that was read. If this is a third number, the digit is trimmed off again with the
separators behind it; if there is none, the numbers of the version are one digit longer than
those of the release.
-/
namespace Realign.Version

open Text

variable {v : Version} {text word : List Char} {c : Char}

/-- A version that is numbers alone, up to a snapshot marker, and ends in an ASCII digit there. -/
structure Bare (v : Version) : Prop where
  unqualified : v.releaseQualifier = []
  closed : ∃ c ∈ v.release.getLast?, isSeparator c = false

namespace Bare

theorem release_ne_nil (h : Bare v) : v.release ≠ [] := by
  obtain ⟨c, hc, -⟩ := h.closed
  exact List.ne_nil_of_mem (List.mem_of_getLast? hc)

theorem letterless (h : Bare v) : ∀ c ∈ v.release, c.isAlpha = false := by
  obtain ⟨front, hrelease, hfront⟩ := letterless_append_releaseQualifier v
  rw [h.unqualified, List.append_nil] at hrelease
  rwa [hrelease]

theorem numeral (h : Bare v) : Numeral v.release := by
  refine ⟨h.letterless, fun d hd => ?_⟩
  obtain ⟨c, hc, hclosed⟩ := h.closed
  rw [Option.mem_unique hd hc]
  exact hclosed

/-- Nothing of the release is in the rest, as it would be in the qualifier. -/
theorem eq_nil_of_rest (h : Bare v) (htext : text <:+ v.release)
    (hrest : v.split.rest = text ++ v.marker) : text = [] := by
  by_contra hne
  have hnumeral := h.numeral.suffix htext
  have hkept : text.dropWhile isSeparator ≠ [] := by
    intro hall
    have hlast := hnumeral.closed _ (List.getLast?_eq_some_getLast hne)
    rw [List.dropWhile_eq_nil_iff.1 hall _ (List.getLast_mem hne)] at hlast
    cases hlast
  have hinner := hnumeral.suffix (List.dropWhile_suffix isSeparator)
  have hqualifier : v.qualifier = text.dropWhile isSeparator ++ v.marker := by
    rw [qualifier, hrest, List.dropWhile_append, if_neg (by simpa using hkept)]
  have hrelease : v.releaseQualifier = text.dropWhile isSeparator := by
    rw [releaseQualifier, hqualifier]
    exact beforeSnapshot_append_marks (release_append_marker v).2 hinner.closed
      (beforeSnapshot_of_last fun c hc => hinner.letterless c (List.mem_of_getLast? hc))
  rw [h.unqualified] at hrelease
  exact hkept hrelease.symm

/-- The marker only lengthens the rest if no digit starts it. -/
theorem split_eq (h : Bare v) (hm : ∀ c ∈ v.marker.head?, isDecimal c = false) :
    v.split = more v.marker (Split.of v.release) := by
  obtain ⟨hchars, hmarks⟩ := release_append_marker v
  have hdigitless := hmarks.digitless hm
  rw [split, hchars]
  by_cases hline : '\n' ∈ v.marker
  · have hrest : v.split.rest = v.release ++ v.marker := by
      rw [split, hchars, split_append_of_line hdigitless hline]
    exact absurd (h.eq_nil_of_rest (List.suffix_refl _) hrest) h.release_ne_nil
  · exact split_append hdigitless hline v.release

/-- A digit before the marker goes to what was read last of the release. -/
theorem split_eq_of_digit (h : Bare v) (hm : v.marker = c :: word) (hc : isDecimal c = true) :
    v.split = more word (close c (Split.of v.release)) := by
  obtain ⟨hchars, hmarks⟩ := release_append_marker v
  rw [hm] at hchars hmarks
  obtain ⟨hsep, hword⟩ := hmarks.of_digit hc
  have hline : '\n' ∉ word := by
    intro hmem
    cases isAlpha_of_marker hword _ hmem
  obtain ⟨e, he, hclosed⟩ := h.closed
  obtain ⟨front, hfront⟩ := List.getLast?_eq_some_iff.1 he
  have hdecimal : isDecimal e = true :=
    isDecimal_of_not_isSeparator hclosed (h.letterless e (List.mem_of_getLast? he))
  have hlines : e ≠ '\n' ∧ c ≠ '\n' := by
    constructor
    · rintro rfl
      cases hdecimal
    · rintro rfl
      cases hc
  rw [split, hchars, List.append_cons, split_append (digitless_of_marker hword) hline, hfront,
    split_close hdecimal hclosed hc hsep hlines]

/-- The release is read to its end. -/
theorem rest_release (h : Bare v) : (Split.of v.release).rest = [] := by
  by_contra hne
  obtain ⟨front, hrelease, -⟩ := (reads_split v.release).front
  refine hne (h.eq_nil_of_rest ⟨front, hrelease.symm⟩ ?_)
  rcases marker_cases v with hdigitless | ⟨c, word, hm, hc, -⟩
  · rw [h.split_eq hdigitless, more]
  · rw [h.split_eq_of_digit hm hc, close, if_pos hne, more, List.append_assoc, hm]
    rfl

theorem major_release (h : Bare v) : ∃ digits, (Split.of v.release).major = some digits := by
  rw [← Option.ne_none_iff_exists']
  intro hnone
  have hrest := h.rest_release
  rw [split_of_major hnone] at hrest
  exact h.release_ne_nil hrest

theorem qualifier_release (h : Bare v) : v.withoutSnapshot.qualifier = [] := by
  rw [qualifier, split, withoutSnapshot, h.rest_release]
  rfl

theorem marker_release (h : Bare v) : v.withoutSnapshot.marker = [] := by
  have hrelease : v.withoutSnapshot.release = v.release :=
    beforeSnapshot_of_last fun c hc => h.letterless c (List.mem_of_getLast? hc)
  rw [marker, hrelease, withoutSnapshot, List.drop_length]

end Bare

theorem dropEndWhile_concat (p : Char → Bool) (front : List Char) (c : Char) :
    dropEndWhile p (front ++ [c]) = if p c then dropEndWhile p front else front ++ [c] := by
  rw [dropEndWhile, List.reverse_concat, List.dropWhile_cons]
  split
  · rfl
  · simp

/-- The three numbers, up to their last ASCII digit. -/
def trimmedNumbers (v : Version) : List Char :=
  dropEndWhile isSeparator (dotted [v.major, v.minor, v.micro])

theorem numbersDot_eq_dotted (v : Version) :
    v.numbersDot = dotted [v.major, v.minor, v.micro] ++ ['.'] := by
  simp [numbersDot, dotted]

theorem length_dotted (a b c : List Char) :
    (dotted [a, b, c]).length = a.length + b.length + c.length + 2 := by
  simp [dotted]
  omega

theorem trimmedNumbers_of_micro (h : v.split.micro = none) :
    v.trimmedNumbers = dotted [v.major, v.minor, ['0']] := by
  have hdotted : dotted [v.major, v.minor, ['0']] =
      v.major ++ '.' :: v.minor ++ ['.'] ++ ['0'] := by
    simp [dotted]
  have hmicro : v.micro = ['0'] := by rw [micro, h, Option.getD_none]
  rw [trimmedNumbers, hmicro, hdotted, dropEndWhile_concat]
  rfl

theorem isNumber_getD {part : Option (List Char)}
    (h : ∀ digits, part = some digits → isNumber digits = true) :
    isNumber (part.getD ['0']) = true := by
  cases part with
  | none => decide
  | some digits => exact h digits rfl

theorem isNumber_major (v : Version) : isNumber v.major = true :=
  isNumber_getD (reads_split v.chars).major

theorem letterless_dotted (v : Version) :
    ∀ c ∈ dotted [v.major, v.minor, v.micro], c.isAlpha = false := by
  have hnumber {part : List Char} (h : isNumber part = true) : ∀ c ∈ part, c.isAlpha = false :=
    fun c hc => not_isAlpha_of_isDecimal ((isNumber_iff.1 h).2 c hc)
  have hmajor := hnumber (isNumber_major v)
  have hminor := hnumber (isNumber_getD (reads_split v.chars).minor)
  have hmicro := hnumber (isNumber_getD (reads_split v.chars).micro)
  have hpoint : Char.isAlpha '.' = false := by decide
  intro c hc
  simp only [dotted, List.intercalate_cons_cons, List.intercalate_singleton, List.mem_append,
    List.mem_singleton] at hc
  rcases hc with (hc | rfl) | (hc | rfl) | hc
  · exact hmajor c hc
  · exact hpoint
  · exact hminor c hc
  · exact hpoint
  · exact hmicro c hc

theorem leading_zero : Leading ['0'] := by
  refine ⟨by decide, fun digits hdigits c hc => ?_⟩
  cases hdigits
  cases hc
  decide

theorem leading_getD {part : Option (List Char)}
    (h : ∀ digits, part = some digits → isNumber digits = true) (hl : Leads part) :
    Leading (part.getD ['0']) := by
  cases part with
  | none => exact leading_zero
  | some digits => exact ⟨h digits rfl, hl⟩

theorem leading_minor (hl : Leads v.split.minor) : Leading v.minor :=
  leading_getD (reads_split v.chars).minor hl

theorem leading_micro (hl : Leads v.split.micro) : Leading v.micro :=
  leading_getD (reads_split v.chars).micro hl

/-- A digit stands before the snapshot marker that follows the last number, and there is no
third number for it to close. -/
def MarkerDigit (v : Version) : Prop :=
  v.releaseQualifier = [] ∧ v.split.micro = none ∧ v.marker.head?.any isDecimal = true

instance (v : Version) : Decidable v.MarkerDigit :=
  inferInstanceAs (Decidable (v.releaseQualifier = [] ∧ v.split.micro = none ∧
    v.marker.head?.any isDecimal = true))

namespace Bare

/-- The numbers of the version and of its release, where a digit starts the marker. -/
theorem parts_of_digit (h : Bare v) (hm : v.marker = c :: word) (hc : isDecimal c = true) :
    v.split.micro = v.withoutSnapshot.split.micro.map (· ++ [c]) ∧
      v.split.minor = (if v.withoutSnapshot.split.micro = none then
        v.withoutSnapshot.split.minor.map (· ++ [c]) else v.withoutSnapshot.split.minor) ∧
      v.split.major =
        (if v.withoutSnapshot.split.micro = none ∧ v.withoutSnapshot.split.minor = none then
          v.withoutSnapshot.split.major.map (· ++ [c]) else v.withoutSnapshot.split.major) := by
  rw [h.split_eq_of_digit hm hc]
  exact ⟨close_micro c h.rest_release, close_minor c h.rest_release, close_major c h.rest_release⟩

/-- The numbers of a version and those of its release end in the same ASCII digit. -/
theorem trimmedNumbers_eq (h : Bare v) (hn : ¬ v.MarkerDigit) :
    v.trimmedNumbers = v.withoutSnapshot.trimmedNumbers := by
  rcases marker_cases v with hdigitless | ⟨c, word, hm, hc, hsep, -⟩
  · have hsplit := h.split_eq hdigitless
    simp only [trimmedNumbers, major, minor, micro, hsplit]
    rfl
  · obtain ⟨hmicro, hminor, hmajor⟩ := h.parts_of_digit hm hc
    cases hu : v.withoutSnapshot.split.micro with
    | none =>
      rw [hu, Option.map_none] at hmicro
      exact absurd ⟨h.unqualified, hmicro, by simp [hm, hc]⟩ hn
    | some digits =>
      have hdotted : dotted [v.major, v.minor, v.micro] = dotted [v.withoutSnapshot.major,
          v.withoutSnapshot.minor, v.withoutSnapshot.micro] ++ [c] := by
        simp [dotted, major, minor, micro, hmicro, hminor, hmajor, hu]
      rw [trimmedNumbers, hdotted, dropEndWhile_concat, if_pos hsep, trimmedNumbers]

/-- A digit that closes no third number closes the second one, or else the first. -/
theorem parts_of_markerDigit (h : Bare v) (hd : v.MarkerDigit) :
    ∃ c, v.withoutSnapshot.split.micro = none ∧
      v.split.minor = v.withoutSnapshot.split.minor.map (· ++ [c]) ∧
      v.split.major = if v.withoutSnapshot.split.minor = none then
        v.withoutSnapshot.split.major.map (· ++ [c]) else v.withoutSnapshot.split.major := by
  obtain ⟨-, hnone, hany⟩ := hd
  obtain ⟨c, hhead, hc⟩ := (Option.any_eq_true _ _).1 hany
  obtain ⟨word, hm⟩ := List.head?_eq_some_iff.1 hhead
  obtain ⟨hmicro, hminor, hmajor⟩ := h.parts_of_digit hm hc
  rw [hnone, eq_comm, Option.map_eq_none_iff] at hmicro
  rw [if_pos hmicro] at hminor
  simp only [hmicro, true_and] at hmajor
  exact ⟨c, hmicro, hminor, hmajor⟩

/-- Where a digit is closed in, the numbers are one digit longer than those of the release. -/
theorem length_trimmedNumbers (h : Bare v) (hd : v.MarkerDigit) :
    v.trimmedNumbers.length = v.withoutSnapshot.trimmedNumbers.length + 1 := by
  obtain ⟨c, hmicro, hminor, hmajor⟩ := h.parts_of_markerDigit hd
  obtain ⟨digits, hdigits⟩ := h.major_release
  rw [trimmedNumbers_of_micro hd.2.1, trimmedNumbers_of_micro hmicro]
  cases hsecond : v.withoutSnapshot.split.minor with
  | none =>
    have hfirst : v.withoutSnapshot.split.major = some digits := hdigits
    rw [hsecond] at hminor
    rw [if_pos hsecond] at hmajor
    simp only [length_dotted, major, minor, hsecond, hminor, hmajor, hfirst, Option.map_some,
      Option.map_none, Option.getD_some, List.length_append, List.length_singleton]
    omega
  | some second =>
    rw [hsecond] at hminor
    rw [if_neg (by simp [hsecond])] at hmajor
    simp only [length_dotted, major, minor, hsecond, hminor, hmajor, Option.map_some,
      Option.getD_some, List.length_append, List.length_singleton]
    omega

/-- The numbers with a digit closed in are not the release: they are three and it has no third. -/
theorem trimmedNumbers_ne (h : Bare v) (hd : v.MarkerDigit) : v.trimmedNumbers ≠ v.release := by
  obtain ⟨c, hmicro, hminor, -⟩ := h.parts_of_markerDigit hd
  have hleads : Leads v.split.minor := by
    intro digits hdigits d hhead
    rw [hminor] at hdigits
    obtain ⟨second, hsecond, rfl⟩ := Option.map_eq_some_iff.1 hdigits
    have hne := (isNumber_iff.1 ((reads_split v.release).minor second hsecond)).1
    rw [List.head?_append_of_ne_nil _ hne] at hhead
    exact h.numeral.leads_split.1 second hsecond d hhead
  intro heq
  have hsplit : Split.of (dotted [v.major, v.minor, ['0']] ++ []) =
      ⟨some v.major, some v.minor, some ['0'], []⟩ :=
    split_dotted (isNumber_major v) (leading_minor hleads) leading_zero nofun List.not_mem_nil
  rw [List.append_nil, ← trimmedNumbers_of_micro hd.2.1, heq] at hsplit
  have hmicro' : (Split.of v.release).micro = none := hmicro
  rw [hsplit] at hmicro'
  cases hmicro'

/-- The OSGi form of a release that borrows a suffix. -/
theorem toOsgi_appendSuffix (h : Bare v) (hs : Lettered word) (hp : Plain word)
    (hq : ∀ c ∈ word, isQualifierChar c = true) :
    (v.withoutSnapshot.appendSuffix word).toOsgi = v.withoutSnapshot.numbersDot ++ word := by
  have happend : v.withoutSnapshot.appendSuffix word =
      ⟨v.withoutSnapshot.numbersDot ++ word⟩ := by
    rw [appendSuffix_of_unqualified h.qualifier_release hs hp, h.marker_release, List.append_nil]
  obtain ⟨hminor, hmicro⟩ := h.numeral.leads_split
  have hsplit : split ⟨v.withoutSnapshot.numbersDot ++ word⟩ =
      ⟨some v.withoutSnapshot.major, some v.withoutSnapshot.minor, some v.withoutSnapshot.micro,
        '.' :: word⟩ := by
    rw [split, numbersDot_eq_dotted, List.append_assoc]
    refine split_dotted (isNumber_major _) (leading_minor hminor) (leading_micro hmicro) ?_ ?_
    · rintro d hd
      cases hd
      decide
    · simpa using fun hline => (hp _ hline).1 rfl
  have hpoint : isSeparator '.' = true := by decide
  have hqualifier : qualifier ⟨v.withoutSnapshot.numbersDot ++ word⟩ = word := by
    rw [qualifier, hsplit, List.dropWhile_cons, if_pos hpoint, hs.dropWhile]
  have hne : word ≠ [] := by
    obtain ⟨c, rest, rfl, -⟩ := hs
    simp
  rw [happend, toOsgi, hqualifier, if_neg hne, osgiQualifier_of_valid hq, major, minor, micro,
    hsplit, numbersDot_eq_dotted]
  simp [dotted]

end Bare

end Realign.Version
