import Realign.Proofs.Version.Numbers

/-!
Letters end the numbers of a version. A snapshot marker and an alignment suffix begin with a
letter, so a version has the same numbers without them. A version that is all numbers takes a
suffix behind three numbers; it cannot carry the suffix already, as nothing but a build number
stands in front of no letter.
-/
namespace Realign.Version

open Text

variable {c : Char} {text suffix : List Char} {build : Build} {v : Version}

theorem isDecimal_of_ascii (h : c.toNat < 128) : isDecimal c = c.isDigit := by
  have hzeros : ∀ z ∈ digitZeros, z = '0'.toNat ∨ 128 ≤ z := by decide
  rw [isDecimal, Bool.or_eq_left_iff_imp]
  intro hany
  obtain ⟨z, hz, hc⟩ := List.any_eq_true.1 hany
  simp only [Bool.and_eq_true, decide_eq_true_eq] at hc
  rcases hzeros z hz with rfl | hlarge
  · have hnine : '9'.toNat = '0'.toNat + 9 := by decide
    have hdigit : '0'.toNat ≤ c.toNat ∧ c.toNat ≤ '9'.toNat := by omega
    simpa [Char.isDigit, UInt32.le_iff_toNat_le] using hdigit
  · omega

theorem letter_range (h : c.isAlpha = true) :
    65 ≤ c.toNat ∧ c.toNat ≤ 90 ∨ 97 ≤ c.toNat ∧ c.toNat ≤ 122 := by
  rcases Bool.or_eq_true_iff.1 h with hupper | hlower
  · exact Or.inl (of_decide_eq_true hupper)
  · have hbounds := Bool.and_eq_true_iff.1 hlower
    exact Or.inr ⟨of_decide_eq_true hbounds.1, of_decide_eq_true hbounds.2⟩

theorem ascii_of_isAlpha (h : c.isAlpha = true) : c.toNat < 128 ∧ c.isDigit = false := by
  have hrange := letter_range h
  refine ⟨by omega, Bool.eq_false_iff.2 fun hdigit => ?_⟩
  have hnine : c.toNat ≤ 57 := of_decide_eq_true (Bool.and_eq_true_iff.1 hdigit).2
  omega

theorem not_isSeparator_of_isAlpha (h : c.isAlpha = true) : isSeparator c = false := by
  simp [isSeparator, Char.isAlphanum, h]

theorem not_isDecimal_of_isAlpha (h : c.isAlpha = true) : isDecimal c = false := by
  obtain ⟨hascii, hdigit⟩ := ascii_of_isAlpha h
  rw [isDecimal_of_ascii hascii, hdigit]

theorem isAlpha_of_toLower {d : Char} (h : c.toLower = d) (hd : d.isAlpha = true) :
    c.isAlpha = true := by
  unfold Char.toLower at h
  split at h
  · rename_i hupper
    exact Bool.or_eq_true_iff.2 (Or.inl (decide_eq_true hupper))
  · rwa [h]

/-- An ASCII text on one line. -/
def OneLineAscii (text : List Char) : Prop := ∀ c ∈ text, c.toNat < 128 ∧ c ≠ '\n'

instance (text : List Char) : Decidable (OneLineAscii text) := List.decidableBAll _ text

theorem OneLineAscii.plain (h : OneLineAscii text) : Plain text := by
  intro c hc
  obtain ⟨hascii, hline⟩ := h c hc
  refine ⟨hline, fun hd => ?_⟩
  rw [isDecimal_of_ascii hascii] at hd
  exact not_isSeparator_of_isDigit hd

/-- The first character is an ASCII letter. -/
def Lettered (text : List Char) : Prop := ∃ c rest, text = c :: rest ∧ c.isAlpha = true

theorem Lettered.numberless (h : Lettered text) : Numberless text := by
  obtain ⟨c, rest, rfl, hc⟩ := h
  exact numberless_cons (not_isSeparator_of_isAlpha hc) (not_isDecimal_of_isAlpha hc) rest

theorem Lettered.append (h : Lettered text) (more : List Char) : Lettered (text ++ more) := by
  obtain ⟨c, rest, rfl, hc⟩ := h
  exact ⟨c, rest ++ more, rfl, hc⟩

theorem Lettered.dropWhile (h : Lettered text) : text.dropWhile isSeparator = text := by
  obtain ⟨c, rest, rfl, hc⟩ := h
  rw [List.dropWhile_cons, not_isSeparator_of_isAlpha hc]
  rfl

theorem Lettered.starts (h : Lettered text) : ∃ c ∈ text.head?, isSeparator c = false := by
  obtain ⟨c, rest, rfl, hc⟩ := h
  exact ⟨c, rfl, not_isSeparator_of_isAlpha hc⟩

/-- Separators at the start do not reach into what starts with a letter or a digit. -/
theorem dropWhile_append_of_starts (h : ∃ c ∈ text.head?, isSeparator c = false)
    (front : List Char) :
    (front ++ text).dropWhile isSeparator = front.dropWhile isSeparator ++ text := by
  obtain ⟨c, hhead, hc⟩ := h
  obtain ⟨rest, rfl⟩ := List.head?_eq_some_iff.1 hhead
  rw [List.dropWhile_append]
  split
  · rename_i hempty
    rw [List.isEmpty_iff.1 hempty, List.dropWhile_cons, hc]
    rfl
  · rfl

/-- A snapshot marker begins with a letter, so the numbers stand before it. -/
theorem trims_beforeSnapshot (text : List Char) : Trims (beforeSnapshot text) text := by
  unfold beforeSnapshot
  dsimp only
  split
  · rename_i hmarker
    have hlettered : Lettered (text.drop (text.length - snapshotMarker.length)) := by
      cases hd : text.drop (text.length - snapshotMarker.length) with
      | nil =>
        rw [hd] at hmarker
        cases hmarker
      | cons c rest =>
        rw [hd] at hmarker
        have hc : c.toLower = 's' := (List.cons.inj hmarker).1
        exact ⟨c, rest, rfl, isAlpha_of_toLower hc (by decide)⟩
    have htext := List.take_append_drop (text.length - snapshotMarker.length) text
    unfold dropLastSeparator
    split
    · rename_i c hlast
      split
      · rename_i hc
        refine ⟨[c] ++ text.drop (text.length - snapshotMarker.length), ?_,
          hlettered.numberless.separated (by simpa using hc)⟩
        have hne := List.getLast?_eq_some_iff.1 hlast
        obtain ⟨init, hinit⟩ := hne
        rw [hinit, List.dropLast_concat, ← List.append_assoc, ← hinit, htext]
      · exact ⟨_, htext.symm, hlettered.numberless⟩
    · exact ⟨_, htext.symm, hlettered.numberless⟩
  · exact trims_refl text

/-- A build number is digits at the end of a text, on their own or behind a point or hyphen. -/
theorem build_eq_append (h : Build.of? text = some build) :
    isNumber build.digits = true ∧
      (build.stem = [] ∧ text = build.digits ∨
        ∃ joint, (joint = '.' ∨ joint = '-') ∧ text = build.stem ++ joint :: build.digits) := by
  unfold Build.of? at h
  rw [List.span_eq_takeWhile_dropWhile] at h
  have htext : text = (text.reverse.dropWhile isDecimal).reverse ++
      (text.reverse.takeWhile isDecimal).reverse := by
    rw [← List.reverse_append, List.takeWhile_append_dropWhile, List.reverse_reverse]
  have hnumber (hne : text.reverse.takeWhile isDecimal ≠ []) :
      isNumber (text.reverse.takeWhile isDecimal).reverse = true := by
    have hall : (text.reverse.takeWhile isDecimal).all isDecimal = true := List.all_takeWhile
    rw [isNumber, List.isEmpty_reverse, List.all_reverse]
    exact isNumber_iff.2 ⟨hne, List.all_eq_true.1 hall⟩
  cases htake : text.reverse.takeWhile isDecimal with
  | nil =>
    rw [htake] at h
    cases h
  | cons d digits =>
    rw [htake] at h htext hnumber
    cases hdrop : text.reverse.dropWhile isDecimal with
    | nil =>
      rw [hdrop] at h htext
      cases h
      exact ⟨hnumber (by simp), Or.inl ⟨rfl, htext⟩⟩
    | cons joint stem =>
      rw [hdrop] at h htext
      simp only [Bool.and_eq_true, Bool.or_eq_true, decide_eq_true_eq] at h
      split at h
      · rename_i hjoint
        cases h
        refine ⟨hnumber (by simp), Or.inr ⟨joint, hjoint.1, ?_⟩⟩
        rw [htext]
        simp
      · cases h

theorem beforeSnapshot_nil : beforeSnapshot [] = [] := rfl

/-- Behind a first number and a point all of a text that starts with a letter is the qualifier. -/
theorem qualifier_of_lettered (hs : Lettered suffix) (hp : Plain suffix) :
    qualifier ⟨'0' :: '.' :: suffix⟩ = suffix := by
  have hplain : Plain ('0' :: '.' :: suffix) := by
    have hzero : Plain ['0', '.'] := by decide
    exact hzero.append hp
  have hnext : nextNumber? ('.' :: suffix) = none := by
    have hnone := hs.numberless
    rw [Numberless, hs.dropWhile] at hnone
    have hpoint : isSeparator '.' = true := by decide
    rw [nextNumber?, List.dropWhile_cons, hpoint]
    simp [hs.dropWhile, hnone]
  have hzero : number? ('0' :: '.' :: suffix) = some (['0'], '.' :: suffix) :=
    number?_digits (by decide : isNumber ['0'] = true) number?_point
  have hscan : scan ('0' :: '.' :: suffix) = putMajor ['0'] (scanRest ('.' :: suffix)) := by
    rw [scan, hzero]
    simp only [scanMinor, scanNext, hnext]
  rw [qualifier, split, split_of_plain hplain, hscan]
  exact hs.dropWhile

/-- What stands before the build number of a suffix is not empty. -/
theorem stem_ne_nil (hs : Lettered suffix) (hp : Plain suffix)
    (h : suffixBuild? suffix = some build) : build.stem ≠ [] := by
  obtain ⟨tail, htail, -⟩ := trims_beforeSnapshot suffix
  rw [suffixBuild?, build?, releaseQualifier, qualifier_of_lettered hs hp] at h
  obtain ⟨hnumber, hcases⟩ := build_eq_append h
  obtain ⟨c, rest, rfl, hc⟩ := hs
  intro hstem
  rw [hstem] at hcases
  rcases hcases with ⟨-, hdigits⟩ | ⟨joint, hjoint, htext⟩
  · cases hd : build.digits with
    | nil =>
      rw [hd] at hnumber
      cases hnumber
    | cons d digits =>
      rw [hdigits, hd, List.cons_append] at htail
      rw [hd] at hnumber
      have hdecimal : isDecimal d = true := (isNumber_iff.1 hnumber).2 d (List.mem_cons_self ..)
      rw [← (List.cons.inj htail).1, not_isDecimal_of_isAlpha hc] at hdecimal
      cases hdecimal
  · rw [htext, List.nil_append, List.cons_append] at htail
    rw [(List.cons.inj htail).1] at hc
    rcases hjoint with rfl | rfl
    · cases hc
    · cases hc

/-- A version that is all numbers takes a suffix behind all three of them. -/
theorem appendSuffix_of_unqualified (hq : v.qualifier = []) (hs : Lettered suffix)
    (hp : Plain suffix) : v.appendSuffix suffix = ⟨v.numbersDot ++ (suffix ++ v.marker)⟩ := by
  have hrelease : v.releaseQualifier = [] := by rw [releaseQualifier, hq, beforeSnapshot_nil]
  have hstem : v.qualifierStem = [] := by
    rw [qualifierStem, build?, hrelease]
    rfl
  have hextend : v.extend suffix = ⟨v.numbersDot ++ (suffix ++ v.marker)⟩ := by
    rw [extend, hasQualifier, hrelease]
    simp
  have hsegment (segment : List Char) (hne : segment ≠ []) : v.hasSegment segment = false := by
    rw [hasSegment, hrelease, hstem, endsWithSegment]
    cases hstrip : stripEnd? segment [] with
    | none => rfl
    | some head =>
      rw [stripEnd?_eq_some] at hstrip
      exact absurd (List.append_eq_nil_iff.1 hstrip.symm).2 hne
  have hne : suffix ≠ [] := by
    obtain ⟨c, rest, rfl, -⟩ := hs
    simp
  unfold appendSuffix
  rw [hs.dropWhile]
  split
  · exact absurd rfl hne
  · split
    · rename_i build hbuild
      rw [hsegment _ (stem_ne_nil hs hp hbuild)]
      exact hextend
    · rw [hsegment _ hne]
      exact hextend

end Realign.Version
