import Realign.Proofs.Version.BuildNumber

/-!
Appending an alignment suffix: letters, with or without a build number behind a hyphen. A version
that ends in the suffix keeps its text when the suffix is appended, and a version ends in the suffix
once it is appended; so a second time changes nothing. The numbers and the snapshot marker stay.
-/
namespace Realign.Version

open Text

variable {v : Version} {word text digits : List Char} {number : Option (List Char)} {c : Char}

section Word

/-- Letters that do not end in a snapshot marker. -/
structure Word (word : List Char) : Prop where
  ne_nil : word ≠ []
  letters : ∀ c ∈ word, c.isAlpha = true
  unmarked : ¬ snapshotMarker <:+ lower word

instance (word : List Char) : Decidable (Word word) :=
  decidable_of_iff
    (word ≠ [] ∧ word.all Char.isAlpha = true ∧ ¬ snapshotMarker <:+ lower word)
    ⟨fun h => ⟨h.1, List.all_eq_true.1 h.2.1, h.2.2⟩,
      fun h => ⟨h.ne_nil, List.all_eq_true.2 h.letters, h.unmarked⟩⟩

/-- The text of a suffix: the word, and the number behind a hyphen if there is one. -/
def suffixOf (word : List Char) (number : Option (List Char)) : List Char :=
  match number with
  | some digits => word ++ '-' :: digits
  | none => word

theorem Word.stamp (h : Word word) (hd : Digits digits) : Stamp word digits :=
  ⟨h.ne_nil, h.letters, hd.ne_nil, hd.isDigit⟩

theorem Word.lettered (h : Word word) : Lettered word := by
  obtain ⟨c, rest, rfl⟩ := List.exists_cons_of_ne_nil h.ne_nil
  exact ⟨c, rest, rfl, h.letters c (List.mem_cons_self ..)⟩

/-- A marker that ends in the word would reach over it into what stands before it, and there is no
letter. -/
theorem Word.segment (h : Word word) : Segment word := by
  have hzero : Digits ['0'] := by decide
  have hplain : Plain word := (h.stamp hzero).plain
  refine ⟨hplain, h.lettered.starts, fun c hc =>
    not_isSeparator_of_isAlpha (h.letters c (List.mem_of_getLast? hc)), fun head hhead => ?_⟩
  rcases beforeSnapshot_cases (head ++ word) with heq | ⟨front, mark, hmark, htext, -⟩
  · exact heq
  · exfalso
    -- `gap` is what the word has before the marker, or the marker before the word
    rcases List.append_eq_append_iff.1 htext with ⟨gap, -, hgap⟩ | ⟨gap, hgap, hmark'⟩
    · refine h.unmarked ⟨lower gap, ?_⟩
      rw [hgap, ← hmark]
      exact (List.map_append ..).symm
    · cases gap using List.reverseRecOn with
      | nil =>
        refine h.unmarked ⟨[], ?_⟩
        rw [List.nil_append, ← hmark, hmark', List.nil_append]
      | append_singleton gap c =>
        have hletter : c.isAlpha = true := isAlpha_of_marker hmark c (by simp [hmark'])
        rw [hhead c (by simp [hgap])] at hletter
        cases hletter

theorem Stamp.segment (h : Stamp word digits) : Segment (word ++ '-' :: digits) := by
  refine ⟨h.oneLine.plain, (h.lettered.append _).starts, fun c hc => ?_, fun head _ => ?_⟩
  · rw [List.append_cons, List.getLast?_append_of_ne_nil _ h.digits_ne] at hc
    exact not_isSeparator_of_isDigit (h.digits c (List.mem_of_getLast? hc))
  · have hlast := h.last_not_isAlpha (head ++ word)
    rw [List.append_assoc] at hlast
    exact beforeSnapshot_of_last hlast

theorem segment_suffixOf (h : Word word) (hn : ∀ digits ∈ number, Digits digits) :
    Segment (suffixOf word number) := by
  cases number with
  | none => exact h.segment
  | some digits => exact (h.stamp (hn digits rfl)).segment

/-- A text that ends in a letter has no build number. -/
theorem build_eq_none_of_last (h : c ∈ text.getLast?) (hc : c.isAlpha = true) :
    Build.of? text = none := by
  rw [Option.eq_none_iff_forall_ne_some]
  intro build hbuild
  obtain ⟨hne, hall⟩ := isNumber_iff.1 (build_eq_append hbuild).1
  obtain ⟨front, rfl⟩ := digits_suffix_of_build hbuild
  rw [List.getLast?_append_of_ne_nil _ hne] at h
  rw [not_isAlpha_of_isDecimal (hall c (List.mem_of_getLast? h))] at hc
  cases hc

theorem Word.last (h : Word word) (head : List Char) :
    ∃ c ∈ (head ++ word).getLast?, c.isAlpha = true := by
  refine ⟨_, ?_, h.letters _ (List.getLast_mem h.ne_nil)⟩
  rw [List.getLast?_append_of_ne_nil _ h.ne_nil]
  exact List.getLast?_eq_some_getLast h.ne_nil

theorem Word.build_append (h : Word word) (head : List Char) : Build.of? (head ++ word) = none := by
  obtain ⟨c, hc, hletter⟩ := h.last head
  exact build_eq_none_of_last hc hletter

theorem Word.suffixBuild? (h : Word word) : suffixBuild? word = none := by
  have hunmarked := h.segment.unmarked [] nofun
  rw [List.nil_append] at hunmarked
  rw [Version.suffixBuild?, build?, releaseQualifier,
    qualifier_of_lettered h.lettered h.segment.plain, hunmarked]
  exact h.build_append []

end Word

section Suffixed

/-- The text ends in the word, which starts it or follows a separator. -/
def EndsIn (text word : List Char) : Prop :=
  ∃ head, text = head ++ word ∧ ∀ c ∈ head.getLast?, isSeparator c = true

theorem endsWithSegment_iff : endsWithSegment text word = true ↔ EndsIn text word := by
  unfold endsWithSegment
  constructor
  · intro h
    cases hstrip : stripEnd? word text with
    | none =>
      rw [hstrip] at h
      cases h
    | some head =>
      refine ⟨head, stripEnd?_eq_some.1 hstrip, fun c hc => ?_⟩
      rw [hstrip] at h
      dsimp only at h
      rwa [hc] at h
  · rintro ⟨head, htext, hhead⟩
    rw [stripEnd?_eq_some.2 htext]
    dsimp only
    cases hlast : head.getLast? with
    | none => rfl
    | some c => exact hhead c hlast

/-- A word that ends the release qualifier ends the qualifier up to the build number, for there is
none. -/
theorem Word.hasSegment_iff (h : Word word) :
    v.hasSegment word = true ↔ EndsIn v.qualifierStem word := by
  rw [hasSegment, Bool.or_eq_true, endsWithSegment_iff, endsWithSegment_iff, or_iff_right_iff_imp]
  rintro ⟨head, htext, hhead⟩
  have hbuild : v.build? = none := by rw [build?, htext, h.build_append]
  rw [qualifierStem, hbuild]
  exact ⟨head, htext, hhead⟩

/-- The version ends in the suffix: the word ends the qualifier up to the build number, which has
the value of the number and the width it is written with. -/
structure Suffixed (v : Version) (word : List Char) (number : Option (List Char)) : Prop where
  stem : EndsIn v.qualifierStem word
  build : ∀ digits ∈ number, HasBuild v digits
  padded : ∀ digits ∈ number, ∀ existing, v.buildNumber? = some existing →
    padLike existing digits = existing

/-- Whether the version has the word decides if the suffix is appended or its number is set. -/
theorem appendSuffix_suffixOf (h : Word word) (hn : ∀ digits ∈ number, Digits digits) :
    v.appendSuffix (suffixOf word number) =
      if v.hasSegment word then match number with
        | some digits => v.setBuildNumber digits
        | none => v
      else v.extend (suffixOf word number) := by
  have hdrop : (suffixOf word number).dropWhile isSeparator = suffixOf word number := by
    cases number with
    | none => exact h.lettered.dropWhile
    | some digits => exact (h.lettered.append _).dropWhile
  unfold appendSuffix
  rw [hdrop]
  cases number with
  | none =>
    split
    · rename_i hnil
      exact absurd hnil h.ne_nil
    · have hnone : Version.suffixBuild? (suffixOf word none) = none := h.suffixBuild?
      rw [hnone]
      rfl
  | some digits =>
    split
    · rename_i hnil
      exact absurd (List.append_eq_nil_iff.1 hnil).1 h.ne_nil
    · have hsome : Version.suffixBuild? (suffixOf word (some digits)) = some ⟨word, digits⟩ :=
        (h.stamp (hn digits rfl)).suffixBuild?
      rw [hsome]

/-- Setting the number that a version has changes nothing, if it is written with the same width. -/
theorem setBuildNumber_eq_self {build : Build} (hbuild : v.build? = some build)
    (hpadded : padLike build.digits digits = build.digits) : v.setBuildNumber digits = v := by
  obtain ⟨front, hrelease, -⟩ := letterless_append_releaseQualifier v
  obtain ⟨lead, hlead⟩ := digits_suffix_of_build hbuild
  rw [← hlead, ← List.append_assoc] at hrelease
  have htake : v.release.take (v.release.length - build.digits.length) ++ build.digits =
      v.release := by
    rw [hrelease, List.length_append, Nat.add_sub_cancel, List.take_left]
  rw [setBuildNumber_of_build hbuild, hpadded, htake, ← (release_append_marker v).1]

/-- A version that ends in the suffix is left as it is. -/
theorem appendSuffix_of_suffixed (hw : Word word) (hn : ∀ digits ∈ number, Digits digits)
    (h : Suffixed v word number) : v.appendSuffix (suffixOf word number) = v := by
  rw [appendSuffix_suffixOf hw hn, if_pos (hw.hasSegment_iff.2 h.stem)]
  cases number with
  | none => rfl
  | some digits =>
    obtain ⟨existing, hexisting, -⟩ := h.build digits rfl
    have hpadded := h.padded digits rfl existing hexisting
    obtain ⟨build, hbuild, rfl⟩ := Option.map_eq_some_iff.1 hexisting
    exact setBuildNumber_eq_self hbuild hpadded

theorem Digits.padLike_self (h : Digits digits) : padLike digits digits = digits := by
  rw [padLike_eq (fun c hc => ascii_of_isDigit (h.isDigit c hc)) h, Nat.sub_self, ite_self]
  rfl

theorem Settable.padLike_writtenNumber (h : Settable v) (hd : Digits digits) :
    padLike (v.writtenNumber digits) digits = v.writtenNumber digits := by
  unfold writtenNumber
  cases hexisting : v.buildNumber? with
  | none => exact hd.padLike_self
  | some existing => exact padLike_padLike (h.ascii hexisting) hd

theorem endsIn_footing (v : Version) (word : List Char) : EndsIn (v.footing ++ word) word := by
  refine ⟨v.footing, rfl, fun c hc => ?_⟩
  unfold footing at hc
  split at hc
  · rw [List.getLast?_concat] at hc
    cases hc
    decide
  · cases hc

/-- A version that is extended by the suffix ends in it. -/
theorem suffixed_extend (hp : Plain v.chars) (hw : Word word)
    (hn : ∀ digits ∈ number, Digits digits) :
    Suffixed (v.extend (suffixOf word number)) word number := by
  have hextended := requalified_extend hp (segment_suffixOf hw hn)
  have hline := line_releaseQualifier hextended.plain
  rw [hextended.releaseQualifier] at hline
  cases number with
  | none =>
    have hbuild : (v.extend (suffixOf word none)).build? = none := by
      rw [build?, hextended.releaseQualifier]
      exact hw.build_append _
    refine ⟨?_, ?_, ?_⟩
    · rw [qualifierStem, hbuild, hextended.releaseQualifier]
      exact endsIn_footing v word
    · rintro _ ⟨⟩
    · rintro _ ⟨⟩
  | some digits =>
    have hd := hn digits rfl
    have hbuild : (v.extend (suffixOf word (some digits))).build? =
        some ⟨v.footing ++ word, digits⟩ := by
      rw [build?, hextended.releaseQualifier, suffixOf, ← List.append_assoc]
      refine build_of_number hd.isNumber (Or.inr rfl) fun hmem => hline ?_
      rw [suffixOf, ← List.append_assoc]
      exact List.mem_append_left _ hmem
    have hnumber : (v.extend (suffixOf word (some digits))).buildNumber? = some digits := by
      rw [buildNumber?, hbuild, Option.map_some]
    refine ⟨?_, ?_, ?_⟩
    · rw [qualifierStem, hbuild]
      exact endsIn_footing v word
    · rintro _ ⟨⟩
      exact ⟨digits, hnumber, hd, rfl⟩
    · rintro _ ⟨⟩ existing hexisting
      rw [hnumber] at hexisting
      cases hexisting
      exact hd.padLike_self

/-- A version that has the word ends in the suffix when its number is set. -/
theorem suffixed_setBuildNumber (h : Settable v) (hd : Digits digits)
    (hstem : EndsIn v.qualifierStem word) :
    Suffixed (v.setBuildNumber digits) word (some digits) := by
  have hset := renumbered_setBuildNumber h hd
  refine ⟨by rwa [hset.qualifierStem], ?_, ?_⟩
  · rintro _ ⟨⟩
    exact h.hasBuild hd
  · rintro _ ⟨⟩ existing hexisting
    rw [hset.buildNumber?] at hexisting
    cases hexisting
    exact h.padLike_writtenNumber hd

/-- Once the suffix is appended the version ends in it, and the numbers and the marker are there as
before. -/
theorem suffixed_appendSuffix (h : Settable v) (hw : Word word)
    (hn : ∀ digits ∈ number, Digits digits) :
    Suffixed (v.appendSuffix (suffixOf word number)) word number ∧
      (v.appendSuffix (suffixOf word number)).numbers = v.numbers ∧
      (v.appendSuffix (suffixOf word number)).marker = v.marker := by
  rw [appendSuffix_suffixOf hw hn]
  split
  · rename_i hsegment
    have hstem := hw.hasSegment_iff.1 hsegment
    cases number with
    | none => exact ⟨⟨hstem, nofun, nofun⟩, rfl, rfl⟩
    | some digits =>
      have hset := renumbered_setBuildNumber h (hn digits rfl)
      exact ⟨suffixed_setBuildNumber h (hn digits rfl) hstem, hset.numbers, hset.marker⟩
  · have hextended := requalified_extend h.plain (segment_suffixOf hw hn)
    exact ⟨suffixed_extend h.plain hw hn, hextended.numbers, hextended.marker⟩

/-- An appended suffix ends the qualifier, with its number as the build number, and leaves the
numbers and the snapshot marker; appending it again changes nothing. -/
theorem appendSuffix_once (v : Version) (word : List Char) (number : Option (List Char))
    (hv : OneLineAscii v.chars) (hw : Word word) (hn : ∀ digits ∈ number, Digits digits) :
    (v.appendSuffix (suffixOf word number)).numbers = v.numbers ∧
      (v.appendSuffix (suffixOf word number)).isSnapshot = v.isSnapshot ∧
      EndsIn (v.appendSuffix (suffixOf word number)).qualifierStem word ∧
      (∀ digits ∈ number, HasBuild (v.appendSuffix (suffixOf word number)) digits) ∧
      (v.appendSuffix (suffixOf word number)).appendSuffix (suffixOf word number) =
        v.appendSuffix (suffixOf word number) := by
  obtain ⟨hsuffixed, hnumbers, hmarker⟩ := suffixed_appendSuffix (settable_of_ascii hv) hw hn
  exact ⟨hnumbers, isSnapshot_eq_of_marker hmarker, hsuffixed.stem, hsuffixed.build,
    appendSuffix_of_suffixed hw hn hsuffixed⟩

/-- The padded number of a suffix that is there already is set once. -/
theorem redhat_appended_once :
    ((ofString "1.0.GA-redhat-00009SNAPSHOT").appendSuffix "redhat-12".toList).text =
        "1.0.GA-redhat-00012SNAPSHOT" ∧
      HasBuild ((ofString "1.0.GA-redhat-00009SNAPSHOT").appendSuffix "redhat-12".toList)
        ['1', '2'] ∧
      ((ofString "1.0.GA-redhat-00009SNAPSHOT").appendSuffix "redhat-12".toList).appendSuffix
          "redhat-12".toList =
        (ofString "1.0.GA-redhat-00009SNAPSHOT").appendSuffix "redhat-12".toList := by
  have hsuffix : suffixOf "redhat".toList (some ['1', '2']) = "redhat-12".toList := by
    decide +kernel
  have honce := appendSuffix_once (ofString "1.0.GA-redhat-00009SNAPSHOT") "redhat".toList
    (some ['1', '2']) (by decide +kernel) (by decide +kernel) (by rintro _ ⟨⟩; decide)
  rw [hsuffix] at honce
  exact ⟨by decide +kernel, honce.2.2.2.1 _ rfl, honce.2.2.2.2⟩

end Suffixed

end Realign.Version
