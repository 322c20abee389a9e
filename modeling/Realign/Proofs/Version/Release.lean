import Realign.Proofs.Version.Numeral

/-!
What a version is without its snapshot marker. The marker is the end of the text and, as no letter
stands before the qualifier, the end of the qualifier as well: the release is text without
letters and the release qualifier. So a suffix that the qualifier has is in the release, and a
suffix that is not there is appended, with the number behind its hyphen as the build number.
-/
namespace Realign.Version

open Text

section Marker

/-- What follows a release: nothing, or a snapshot marker with the separator before it. -/
inductive Marks : List Char → Prop
  | none : Marks []
  | word {word : List Char} (h : lower word = snapshotMarker) : Marks word
  | separated {c : Char} {word : List Char} (hc : isSeparator c = true)
      (h : lower word = snapshotMarker) : Marks (c :: word)

variable {front text word tail mark : List Char} {c : Char}

theorem isAlpha_of_marker (h : lower word = snapshotMarker) : ∀ c ∈ word, c.isAlpha = true := by
  have hmarker : ∀ d ∈ snapshotMarker, d.isAlpha = true := List.all_eq_true.1 (by decide)
  intro c hc
  refine isAlpha_of_toLower rfl (hmarker c.toLower ?_)
  rw [← h]
  exact List.mem_map_of_mem hc

theorem marker_ne_nil (h : lower word = snapshotMarker) : word ≠ [] := by
  rintro rfl
  cases h

theorem length_marker (h : lower word = snapshotMarker) :
    word.length = snapshotMarker.length := by
  rw [← h, lower, List.length_map]

theorem beforeSnapshot_append (h : lower word = snapshotMarker) (front : List Char) :
    beforeSnapshot (front ++ word) = dropLastSeparator front := by
  have hcut : (front ++ word).length - snapshotMarker.length = front.length := by
    rw [List.length_append, length_marker h]
    omega
  rw [beforeSnapshot, hcut, List.drop_left, List.take_left]
  exact if_pos h

theorem beforeSnapshot_cases (text : List Char) :
    beforeSnapshot text = text ∨ ∃ front word, lower word = snapshotMarker ∧ text = front ++ word ∧
      beforeSnapshot text = dropLastSeparator front := by
  unfold beforeSnapshot
  dsimp only
  split
  · rename_i hword
    exact Or.inr ⟨_, _, hword, (List.take_append_drop _ text).symm, rfl⟩
  · exact Or.inl rfl

theorem dropLastSeparator_concat (front : List Char) (c : Char) :
    dropLastSeparator (front ++ [c]) = if isSeparator c then front else front ++ [c] := by
  simp [dropLastSeparator]

theorem dropLastSeparator_cases (text : List Char) :
    dropLastSeparator text = text ∨
      ∃ c, isSeparator c = true ∧ text = dropLastSeparator text ++ [c] := by
  induction text using List.reverseRecOn with
  | nil => exact Or.inl rfl
  | append_singleton front c =>
    rw [dropLastSeparator_concat]
    split
    · rename_i hc
      exact Or.inr ⟨c, hc, rfl⟩
    · exact Or.inl rfl

theorem dropLastSeparator_append (front : List Char) (h : tail ≠ []) :
    dropLastSeparator (front ++ tail) = front ++ dropLastSeparator tail := by
  induction tail using List.reverseRecOn with
  | nil => exact absurd rfl h
  | append_singleton tail c =>
    rw [← List.append_assoc, dropLastSeparator_concat, dropLastSeparator_concat]
    split
    · rfl
    · rw [List.append_assoc]

theorem dropLastSeparator_of_closed (h : ∀ c ∈ text.getLast?, isSeparator c = false) :
    dropLastSeparator text = text := by
  unfold dropLastSeparator
  split
  · rename_i c hc
    rw [h c hc]
    rfl
  · rfl

/-- A digit at the start of a mark is the separator before the marker. -/
theorem Marks.of_digit (hm : Marks (c :: word)) (hc : isDecimal c = true) :
    isSeparator c = true ∧ lower word = snapshotMarker := by
  cases hm with
  | word hword =>
    rw [not_isDecimal_of_isAlpha (isAlpha_of_marker hword c (List.mem_cons_self ..))] at hc
    cases hc
  | separated hsep hword => exact ⟨hsep, hword⟩

theorem digitless_of_marker (h : lower word = snapshotMarker) :
    ∀ c ∈ word, isDecimal c = false :=
  fun c hc => not_isDecimal_of_isAlpha (isAlpha_of_marker h c hc)

theorem Marks.digitless (hm : Marks mark) (h : ∀ c ∈ mark.head?, isDecimal c = false) :
    ∀ c ∈ mark, isDecimal c = false := by
  cases hm with
  | none => nofun
  | word hword => exact digitless_of_marker hword
  | separated _ hword =>
    rw [List.forall_mem_cons]
    exact ⟨h _ rfl, digitless_of_marker hword⟩

/-- A text is its release and what follows it. -/
theorem marks_beforeSnapshot (text : List Char) :
    ∃ mark, text = beforeSnapshot text ++ mark ∧ Marks mark := by
  rcases beforeSnapshot_cases text with h | ⟨front, word, hword, htext, h⟩
  · exact ⟨[], by rw [h, List.append_nil], .none⟩
  · rw [h]
    rcases dropLastSeparator_cases front with hfront | ⟨c, hc, hfront⟩
    · exact ⟨word, by rw [hfront, htext], .word hword⟩
    · refine ⟨c :: word, ?_, .separated hc hword⟩
      rw [htext, hfront, dropLastSeparator_concat, if_pos hc, List.append_assoc]
      rfl

/-- A text that does not end in a letter has no marker to lose. -/
theorem beforeSnapshot_of_last (h : ∀ c ∈ text.getLast?, c.isAlpha = false) :
    beforeSnapshot text = text := by
  rcases beforeSnapshot_cases text with heq | ⟨front, word, hword, rfl, -⟩
  · exact heq
  · have hlast := List.getLast?_eq_some_getLast (marker_ne_nil hword)
    have halpha := isAlpha_of_marker hword _ (List.getLast_mem (marker_ne_nil hword))
    rw [h _ (by rw [List.getLast?_append, hlast]; rfl)] at halpha
    cases halpha

/-- The marker that follows a closed text is what is taken off, if the text has none of its own. -/
theorem beforeSnapshot_append_marks (hm : Marks mark)
    (hclosed : ∀ c ∈ text.getLast?, isSeparator c = false)
    (hunmarked : beforeSnapshot text = text) : beforeSnapshot (text ++ mark) = text := by
  cases hm with
  | none => rw [List.append_nil, hunmarked]
  | word hword => rw [beforeSnapshot_append hword, dropLastSeparator_of_closed hclosed]
  | separated hc hword =>
    rw [List.append_cons, beforeSnapshot_append hword, dropLastSeparator_concat, if_pos hc]

/-- Behind text without letters the marker is the marker of the rest, or it is all of the rest. -/
theorem beforeSnapshot_letterless_append (hfront : ∀ c ∈ front, c.isAlpha = false)
    (tail : List Char) : beforeSnapshot (front ++ tail) = front ++ beforeSnapshot tail ∨
      lower tail = snapshotMarker ∧ beforeSnapshot (front ++ tail) = dropLastSeparator front := by
  rcases beforeSnapshot_cases tail with htail | ⟨head, word, hword, rfl, htail⟩
  · left
    rw [htail]
    rcases beforeSnapshot_cases (front ++ tail) with h | ⟨head, word, hword, htext, -⟩
    · exact h
    · -- the marker would be in the tail, which has none
      exfalso
      have hpast : ∃ gap, tail = gap ++ word := by
        rcases List.append_eq_append_iff.1 htext with ⟨gap, -, hgap⟩ | ⟨gap, hgap, hword'⟩
        · exact ⟨gap, hgap⟩
        · cases gap with
          | nil => exact ⟨[], hword'.symm⟩
          | cons c gap =>
            have hletter : c.isAlpha = true := isAlpha_of_marker hword c (by simp [hword'])
            rw [hfront c (by simp [hgap])] at hletter
            cases hletter
      obtain ⟨gap, rfl⟩ := hpast
      rw [beforeSnapshot_append hword] at htail
      have hlength := congrArg List.length htail
      have hshort : (dropLastSeparator gap).length ≤ gap.length := by
        rcases dropLastSeparator_cases gap with hgap | ⟨c, -, hgap⟩
        · rw [hgap]
        · have := congrArg List.length hgap
          rw [List.length_append] at this
          omega
      have hnonempty := List.length_pos_iff.2 (marker_ne_nil hword)
      rw [List.length_append] at hlength
      omega
  · rw [htail, ← List.append_assoc, beforeSnapshot_append hword]
    by_cases hhead : head = []
    · right
      rw [hhead, List.append_nil]
      exact ⟨hword, rfl⟩
    · exact Or.inl (dropLastSeparator_append front hhead)

end Marker

section Release

variable {v : Version} {segment : List Char}

/-- A version text is its release and its marker. -/
theorem release_append_marker (v : Version) : v.chars = v.release ++ v.marker ∧ Marks v.marker := by
  obtain ⟨mark, hchars, hmark⟩ := marks_beforeSnapshot v.chars
  have hmarker : v.marker = mark := by
    have hdrop := congrArg (List.drop v.release.length) hchars
    rwa [release, List.drop_left] at hdrop
  rw [hmarker]
  exact ⟨hchars, hmark⟩

theorem release_of_not_isSnapshot (h : v.isSnapshot = false) :
    v.release = v.chars ∧ v.marker = [] := by
  obtain ⟨hchars, -⟩ := release_append_marker v
  have hlength : v.release.length = v.chars.length := by simpa [isSnapshot, release] using h
  have hmarker : v.marker = [] := by
    rw [hchars, List.length_append] at hlength
    exact List.length_eq_zero_iff.1 (by omega)
  refine ⟨?_, hmarker⟩
  rw [hmarker, List.append_nil] at hchars
  exact hchars.symm

/-- No digit starts the marker, or the separator in it is one. -/
theorem marker_cases (v : Version) :
    (∀ c ∈ v.marker.head?, isDecimal c = false) ∨ ∃ c word, v.marker = c :: word ∧
      isDecimal c = true ∧ isSeparator c = true ∧ lower word = snapshotMarker := by
  have hmarks := (release_append_marker v).2
  cases hm : v.marker with
  | nil => exact Or.inl nofun
  | cons c word =>
    rw [hm] at hmarks
    cases hc : isDecimal c with
    | false => exact Or.inl (by simpa using hc)
    | true => exact Or.inr ⟨c, word, rfl, hc, hmarks.of_digit hc⟩

/-- No letter stands before the qualifier. -/
theorem letterless_append_qualifier (v : Version) :
    ∃ front, v.chars = front ++ v.qualifier ∧ ∀ c ∈ front, c.isAlpha = false := by
  obtain ⟨front, htext, hfront⟩ := (reads_split v.chars).front
  refine ⟨front ++ v.split.rest.takeWhile isSeparator, ?_, ?_⟩
  · rw [qualifier, List.append_assoc, List.takeWhile_append_dropWhile]
    exact htext
  · intro c hc
    rcases List.mem_append.1 hc with hc | hc
    · exact hfront c hc
    · exact not_isAlpha_of_isSeparator (List.all_eq_true.1 List.all_takeWhile c hc)

/-- A release is text without letters and the release qualifier. -/
theorem letterless_append_releaseQualifier (v : Version) :
    ∃ front, v.release = front ++ v.releaseQualifier ∧ ∀ c ∈ front, c.isAlpha = false := by
  obtain ⟨front, hchars, hfront⟩ := letterless_append_qualifier v
  rw [release, releaseQualifier, hchars]
  rcases beforeSnapshot_letterless_append hfront v.qualifier with h | ⟨hword, h⟩
  · exact ⟨front, h, hfront⟩
  · refine ⟨dropLastSeparator front, ?_, ?_⟩
    · have hnil : beforeSnapshot v.qualifier = [] := beforeSnapshot_append hword []
      rw [h, hnil, List.append_nil]
    · intro c hc
      apply hfront
      rcases dropLastSeparator_cases front with heq | ⟨d, -, heq⟩
      · rwa [heq] at hc
      · rw [heq]
        exact List.mem_append_left _ hc

theorem qualifierStem_within (v : Version) : v.qualifierStem <:+: v.releaseQualifier := by
  unfold qualifierStem
  cases hbuild : v.build? with
  | none => exact List.infix_rfl
  | some build =>
    obtain ⟨-, ⟨hstem, -⟩ | ⟨joint, -, htext⟩⟩ := build_eq_append hbuild
    · simp [hstem]
    · rw [htext]
      exact (List.prefix_append _ _).isInfix

theorem infix_of_endsWithSegment {text : List Char} (h : endsWithSegment text segment = true) :
    segment <:+: text := by
  unfold endsWithSegment at h
  cases hstrip : stripEnd? segment text with
  | none =>
    rw [hstrip] at h
    cases h
  | some head =>
    rw [stripEnd?_eq_some.1 hstrip]
    exact (List.suffix_append _ _).isInfix

/-- A segment that a version has is in its release. -/
theorem infix_release_of_hasSegment (h : v.hasSegment segment = true) : segment <:+: v.release := by
  obtain ⟨front, hrelease, -⟩ := letterless_append_releaseQualifier v
  have hqualifier : v.releaseQualifier <:+: v.release := by
    rw [hrelease]
    exact (List.suffix_append _ _).isInfix
  rcases Bool.or_eq_true_iff.1 h with h | h
  · exact (infix_of_endsWithSegment h).trans hqualifier
  · exact ((infix_of_endsWithSegment h).trans (qualifierStem_within v)).trans hqualifier

end Release

section Suffix

variable {v : Version} {word stem digits text : List Char} {joint : Char}

theorem build_of_number (hd : isNumber digits = true) (hj : joint = '.' ∨ joint = '-')
    (hline : '\n' ∉ stem) : Build.of? (stem ++ joint :: digits) = some ⟨stem, digits⟩ := by
  obtain ⟨hne, hall⟩ := isNumber_iff.1 hd
  have hjoint : isDecimal joint = false := by rcases hj with rfl | rfl <;> decide
  have hreverse : (stem ++ joint :: digits).reverse =
      digits.reverse ++ joint :: stem.reverse := by simp
  have hall' : ∀ c ∈ digits.reverse, isDecimal c = true :=
    fun c hc => hall c (List.mem_reverse.1 hc)
  have hspan : (stem ++ joint :: digits).reverse.span isDecimal =
      (digits.reverse, joint :: stem.reverse) := by
    rw [hreverse, List.span_eq_takeWhile_dropWhile, List.takeWhile_append_of_pos hall',
      List.dropWhile_append_of_pos hall', List.takeWhile_cons, List.dropWhile_cons, hjoint]
    simp
  unfold Build.of?
  rw [hspan]
  cases hdigits : digits.reverse with
  | nil => exact absurd (List.reverse_eq_nil_iff.1 hdigits) hne
  | cons d rest =>
    have hback : digits = (d :: rest).reverse := by rw [← hdigits, List.reverse_reverse]
    simp [hj, hline, hback]

/-- A suffix of letters and the number behind its hyphen. -/
structure Stamp (word digits : List Char) : Prop where
  word_ne : word ≠ []
  letters : ∀ c ∈ word, c.isAlpha = true
  digits_ne : digits ≠ []
  digits : ∀ c ∈ digits, c.isDigit = true

instance (word digits : List Char) : Decidable (Stamp word digits) :=
  decidable_of_iff
    (word ≠ [] ∧ word.all Char.isAlpha = true ∧ digits ≠ [] ∧ digits.all Char.isDigit = true)
    ⟨fun h => ⟨h.1, List.all_eq_true.1 h.2.1, h.2.2.1, List.all_eq_true.1 h.2.2.2⟩,
      fun h => ⟨h.word_ne, List.all_eq_true.2 h.letters, h.digits_ne, List.all_eq_true.2 h.digits⟩⟩

namespace Stamp

theorem lettered (h : Stamp word digits) : Lettered word := by
  obtain ⟨c, rest, rfl⟩ := List.exists_cons_of_ne_nil h.word_ne
  exact ⟨c, rest, rfl, h.letters c (List.mem_cons_self ..)⟩

theorem not_mem (h : Stamp word digits) (hj : joint.isAlpha = false) : joint ∉ word := by
  intro hmem
  rw [h.letters joint hmem] at hj
  cases hj

/-- A suffix is not in a text without letters. -/
theorem not_within (h : Stamp word digits) (ht : ∀ c ∈ text, c.isAlpha = false) :
    ¬ word <:+: text := by
  intro hwithin
  obtain ⟨c, rest, rfl⟩ := List.exists_cons_of_ne_nil h.word_ne
  have halpha := h.letters c (List.mem_cons_self ..)
  rw [ht c (hwithin.subset (List.mem_cons_self ..))] at halpha
  cases halpha

theorem oneLine (h : Stamp word digits) : OneLineAscii (word ++ '-' :: digits) := by
  intro c hc
  rcases List.mem_append.1 hc with hc | hc
  · refine ⟨(ascii_of_isAlpha (h.letters c hc)).1, ?_⟩
    rintro rfl
    cases h.letters _ hc
  · rcases List.mem_cons.1 hc with rfl | hc
    · decide
    · have hdigit := h.digits c hc
      have hnine : c.toNat ≤ 57 := of_decide_eq_true (Bool.and_eq_true_iff.1 hdigit).2
      refine ⟨by omega, ?_⟩
      rintro rfl
      cases hdigit

theorem plain (h : Stamp word digits) : Plain word :=
  h.oneLine.plain.subset (List.subset_append_left _ _)

theorem isNumber (h : Stamp word digits) : isNumber digits = true :=
  isNumber_iff.2 ⟨h.digits_ne, fun c hc => isDecimal_of_isDigit (h.digits c hc)⟩

theorem isQualifierChar (h : Stamp word digits) : ∀ c ∈ word, isQualifierChar c = true := by
  intro c hc
  simp [Version.isQualifierChar, Char.isAlphanum, h.letters c hc]

theorem zero (h : Stamp word digits) : Stamp word ['0'] := ⟨h.word_ne, h.letters, by simp, by simp⟩

/-- A text that ends in the number does not end in a letter. -/
theorem last_not_isAlpha (h : Stamp word digits) (text : List Char) :
    ∀ c ∈ (text ++ '-' :: digits).getLast?, c.isAlpha = false := by
  intro c hc
  rw [List.append_cons, List.getLast?_append_of_ne_nil _ h.digits_ne] at hc
  exact not_isAlpha_of_isDecimal (isDecimal_of_isDigit (h.digits c (List.mem_of_getLast? hc)))

/-- The number behind the hyphen is the build number. -/
theorem suffixBuild? (h : Stamp word digits) :
    suffixBuild? (word ++ '-' :: digits) = some ⟨word, digits⟩ := by
  rw [Version.suffixBuild?, build?, releaseQualifier,
    qualifier_of_lettered (h.lettered.append _) h.oneLine.plain,
    beforeSnapshot_of_last (h.last_not_isAlpha word)]
  exact build_of_number h.isNumber (Or.inr rfl) fun hline => (h.plain _ hline).1 rfl

/-- A suffix that is not in the release is appended to it. -/
theorem appendSuffix (h : Stamp word digits) (habsent : ¬ word <:+: v.release) :
    v.appendSuffix (word ++ '-' :: digits) = v.extend (word ++ '-' :: digits) := by
  have hsegment : v.hasSegment word = false :=
    Bool.eq_false_iff.2 fun hhas => habsent (infix_release_of_hasSegment hhas)
  have hdrop := (h.lettered.append ('-' :: digits)).dropWhile
  unfold Version.appendSuffix
  rw [hdrop]
  split
  · rename_i hnil
    exact absurd (List.append_eq_nil_iff.1 hnil).1 h.word_ne
  · rw [h.suffixBuild?]
    dsimp only
    rw [hsegment]
    rfl

end Stamp

end Suffix

end Realign.Version
