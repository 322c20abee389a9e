import Realign.Proofs.Version.Qualifier
import Realign.Proofs.Version.Stamped

/-!
Setting the build number of a version. The new number is written with the width of the zero padded
one that it replaces, which does not change its value. It stands where the old one stood, or behind
the release qualifier or the three numbers, so all else of the version stays: its numbers, the
qualifier up to the build number, and the snapshot marker.
-/
namespace Realign.Version

open Text

section Padding

variable {text existing number : List Char}

/-- A number in ASCII digits. -/
structure Digits (digits : List Char) : Prop where
  ne_nil : digits ≠ []
  isDigit : ∀ c ∈ digits, c.isDigit = true

instance (digits : List Char) : Decidable (Digits digits) :=
  decidable_of_iff (digits ≠ [] ∧ digits.all Char.isDigit = true)
    ⟨fun h => ⟨h.1, List.all_eq_true.1 h.2⟩, fun h => ⟨h.ne_nil, List.all_eq_true.2 h.isDigit⟩⟩

/-- More than one digit, the first of which is a zero. -/
def ZeroPadded (digits : List Char) : Prop := 1 < digits.length ∧ digits.head? = some '0'

instance (digits : List Char) : Decidable (ZeroPadded digits) :=
  inferInstanceAs (Decidable (_ ∧ _))

theorem byteLength_of_ascii (h : ∀ c ∈ text, c.toNat < 128) : byteLength text = text.length := by
  have hfold (n : Nat) : text.foldl (fun n c => n + c.utf8Size) n = n + text.length := by
    induction text generalizing n with
    | nil => rfl
    | cons c text ih =>
      rw [List.forall_mem_cons] at h
      have hsize : c.utf8Size = 1 := by
        rw [Char.utf8Size_eq_one_iff, UInt32.le_iff_toNat_le]
        exact Nat.le_of_lt_succ h.1
      rw [List.foldl_cons, ih h.2, hsize, List.length_cons]
      omega
  rw [byteLength, hfold, Nat.zero_add]

theorem ascii_of_isDigit {c : Char} (h : c.isDigit = true) : c.toNat < 128 := by
  have hnine : c.toNat ≤ 57 := of_decide_eq_true (Bool.and_eq_true_iff.1 h).2
  omega

/-- Zeros in front of a number, as many as the width of a zero padded one takes. -/
theorem padLike_eq (he : ∀ c ∈ existing, c.toNat < 128) (hn : Digits number) :
    padLike existing number =
      List.replicate (if ZeroPadded existing then existing.length - number.length else 0) '0' ++
        number := by
  have hcondition : (1 < byteLength existing && existing.head? = some '0' &&
      number.all Char.isDigit) = decide (ZeroPadded existing) := by
    rw [byteLength_of_ascii he, List.all_eq_true.2 hn.isDigit, Bool.and_true]
    exact (Bool.decide_and _ _).symm
  rw [padLike, hcondition, byteLength_of_ascii he]
  by_cases hpadded : ZeroPadded existing
  · rw [if_pos hpadded, if_pos (decide_eq_true hpadded)]
  · rw [if_neg hpadded, if_neg (by simpa using hpadded)]
    rfl

theorem digits_replicate (hn : Digits number) (k : Nat) :
    Digits (List.replicate k '0' ++ number) := by
  refine ⟨by simp [hn.ne_nil], fun c hc => ?_⟩
  rcases List.mem_append.1 hc with hc | hc
  · rw [List.eq_of_mem_replicate hc]
    decide
  · exact hn.isDigit c hc

theorem digits_padLike (he : ∀ c ∈ existing, c.toNat < 128) (hn : Digits number) :
    Digits (padLike existing number) := by
  rw [padLike_eq he hn]
  exact digits_replicate hn _

theorem decimalValue_padLike (he : ∀ c ∈ existing, c.toNat < 128) (hn : Digits number) :
    decimalValue (padLike existing number) = decimalValue number := by
  rw [padLike_eq he hn, decimalValue, Nat.ofDigitChars_append, Nat.ofDigitChars_replicate_zero,
    Nat.mul_zero, decimalValue]

theorem length_padLike (he : ∀ c ∈ existing, c.toNat < 128) (hn : Digits number) :
    (padLike existing number).length =
      if ZeroPadded existing then max existing.length number.length else number.length := by
  rw [padLike_eq he hn, List.length_append, List.length_replicate]
  split <;> omega

/-- A number that is padded already stays as it is. -/
theorem padLike_padLike (he : ∀ c ∈ existing, c.toNat < 128) (hn : Digits number) :
    padLike (padLike existing number) number = padLike existing number := by
  have hpadded (k : Nat) :
      padLike (List.replicate k '0' ++ number) number = List.replicate k '0' ++ number := by
    have hdigits := digits_replicate hn k
    rw [padLike_eq (fun c hc => ascii_of_isDigit (hdigits.isDigit c hc)) hn]
    split
    · rw [List.length_append, List.length_replicate, Nat.add_sub_cancel]
    · rename_i hnot
      cases k with
      | zero => rfl
      | succ k =>
        have hlength := List.length_pos_iff.2 hn.ne_nil
        refine absurd ⟨?_, rfl⟩ hnot
        rw [List.length_append, List.length_replicate]
        omega
  rw [padLike_eq he hn, hpadded]

end Padding

section BuildNumber

variable {v w : Version} {build : Build} {text existing digits number : List Char}

theorem Digits.isNumber (h : Digits digits) : isNumber digits = true :=
  isNumber_iff.2 ⟨h.ne_nil, fun c hc => isDecimal_of_isDigit (h.isDigit c hc)⟩

theorem Digits.plain (h : Digits digits) : Plain digits := by
  intro c hc
  refine ⟨?_, fun _ => not_isSeparator_of_isDigit (h.isDigit c hc)⟩
  rintro rfl
  cases h.isDigit _ hc

theorem Digits.opened (h : Digits digits) (htext : Plain text) :
    ∃ c, Opened (digits ++ text) c ∧ isDecimal c = true := by
  obtain ⟨c, rest, rfl⟩ := List.exists_cons_of_ne_nil h.ne_nil
  have hc := h.isDigit c (List.mem_cons_self ..)
  refine ⟨c, ⟨rfl, not_isSeparator_of_isDigit hc, fun hline => ?_⟩, isDecimal_of_isDigit hc⟩
  exact (h.plain.append htext _ hline).1 rfl

theorem Digits.segment (h : Digits digits) : Segment digits := by
  have hlast (c : Char) (hc : c ∈ digits.getLast?) := h.isDigit c (List.mem_of_getLast? hc)
  obtain ⟨c, rest, rfl⟩ := List.exists_cons_of_ne_nil h.ne_nil
  refine ⟨h.plain, ⟨c, rfl, not_isSeparator_of_isDigit (h.isDigit c (List.mem_cons_self ..))⟩,
    fun c hc => not_isSeparator_of_isDigit (hlast c hc), fun head _ => ?_⟩
  apply beforeSnapshot_of_last
  intro d hd
  rw [List.getLast?_append_of_ne_nil _ h.ne_nil] at hd
  exact not_isAlpha_of_isDecimal (isDecimal_of_isDigit (hlast d hd))

theorem build_of_isNumber (h : isNumber digits = true) : Build.of? digits = some ⟨[], digits⟩ := by
  obtain ⟨hne, hall⟩ := isNumber_iff.1 h
  have hall' : ∀ c ∈ digits.reverse, isDecimal c = true :=
    fun c hc => hall c (List.mem_reverse.1 hc)
  have hspan : digits.reverse.span isDecimal = (digits.reverse, []) := by
    rw [List.span_eq_takeWhile_dropWhile, List.takeWhile_eq_self_iff.2 hall',
      List.dropWhile_eq_nil_iff.2 hall']
  unfold Build.of?
  rw [hspan]
  cases hdigits : digits.reverse with
  | nil => exact absurd (List.reverse_eq_nil_iff.1 hdigits) hne
  | cons d rest =>
    have hback : digits = (d :: rest).reverse := by rw [← hdigits, List.reverse_reverse]
    rw [hback]

theorem digits_suffix_of_build (h : Build.of? text = some build) : build.digits <:+ text := by
  obtain ⟨-, ⟨-, htext⟩ | ⟨joint, -, htext⟩⟩ := build_eq_append h
  · rw [htext]
  · rw [htext, List.append_cons]
    exact List.suffix_append _ _

/-- Another number in the place of the build number is the build number. -/
theorem build_replace (h : Build.of? text = some build) (hline : '\n' ∉ text) :
    ∃ lead, text = lead ++ build.digits ∧ (∀ c ∈ lead.getLast?, c.isAlpha = false) ∧
      ∀ digits, isNumber digits = true →
        Build.of? (lead ++ digits) = some ⟨build.stem, digits⟩ := by
  obtain ⟨-, ⟨hstem, htext⟩ | ⟨joint, hjoint, htext⟩⟩ := build_eq_append h
  · refine ⟨[], htext, nofun, fun digits hd => ?_⟩
    rw [hstem]
    exact build_of_isNumber hd
  · refine ⟨build.stem ++ [joint], by simp [htext], last_joint_not_isAlpha ?_ _,
      fun digits hd => ?_⟩
    · rcases hjoint with rfl | rfl <;> decide
    · rw [List.append_assoc, List.singleton_append]
      refine build_of_number hd hjoint fun hmem => hline ?_
      rw [htext]
      exact List.mem_append_left _ hmem

/-- One line in plain digits, with ASCII digits for its build number, if it has one. -/
structure Settable (v : Version) : Prop where
  plain : Plain v.chars
  digits : ∀ existing, v.buildNumber? = some existing → Digits existing

/-- The build number that a version gets when `number` is set. -/
def writtenNumber (v : Version) (number : List Char) : List Char :=
  v.buildNumber?.elim number fun existing => padLike existing number

/-- The first version becomes the second one: it keeps its numbers, its marker and the qualifier up
to the build number, which is `digits`. -/
structure Renumbered (v w : Version) (digits : List Char) : Prop where
  plain : Plain w.chars
  numbers : w.numbers = v.numbers
  marker : w.marker = v.marker
  build : w.build? = some ⟨v.qualifierStem, digits⟩

theorem line_releaseQualifier (hp : Plain v.chars) : '\n' ∉ v.releaseQualifier := by
  intro hline
  obtain ⟨front, hrelease, -⟩ := letterless_append_releaseQualifier v
  refine (hp '\n' ?_).1 rfl
  rw [(release_append_marker v).1, hrelease]
  exact List.mem_append_left _ (List.mem_append_right front hline)

theorem Settable.digits_of_build (h : Settable v) (hbuild : v.build? = some build) :
    Digits build.digits :=
  h.digits _ (by rw [buildNumber?, hbuild, Option.map_some])

theorem Settable.ascii (h : Settable v)
    (hexisting : v.buildNumber? = some existing) : ∀ c ∈ existing, c.toNat < 128 :=
  fun c hc => ascii_of_isDigit ((h.digits existing hexisting).isDigit c hc)

theorem writtenNumber_of_build (hbuild : v.build? = some build) (number : List Char) :
    v.writtenNumber number = padLike build.digits number := by
  rw [writtenNumber, buildNumber?, hbuild]
  rfl

theorem Settable.digits_writtenNumber (h : Settable v) (hn : Digits number) :
    Digits (v.writtenNumber number) := by
  unfold writtenNumber
  cases hexisting : v.buildNumber? with
  | none => exact hn
  | some existing => exact digits_padLike (h.ascii hexisting) hn

/-- The number that is set stands behind the release qualifier or the three numbers. -/
theorem renumbered_of_none (h : Settable v) (hbuild : v.build? = none) (hn : Digits number) :
    Renumbered v (v.extend number) number := by
  obtain ⟨hplain, hnumbers, hmarker, hqualifier⟩ := requalified_extend h.plain hn.segment
  refine ⟨hplain, hnumbers, hmarker, ?_⟩
  have hstem : v.qualifierStem = v.releaseQualifier := by rw [qualifierStem, hbuild]
  rw [build?, hqualifier, footing, hstem]
  split
  · rw [List.append_assoc, List.singleton_append]
    exact build_of_number hn.isNumber (Or.inr rfl) (line_releaseQualifier h.plain)
  · rename_i hnone
    have hnil : v.releaseQualifier = [] := by simpa [hasQualifier] using hnone
    rw [hnil]
    exact build_of_isNumber hn.isNumber

/-- The number that is set stands in the place of the build number. -/
theorem renumbered_of_build (h : Settable v) (hbuild : v.build? = some build)
    (hd : Digits digits) :
    Renumbered v
      ⟨v.release.take (v.release.length - build.digits.length) ++ digits ++ v.marker⟩ digits := by
  have hmarker := plain_marker h.plain
  have hbuilt := h.digits_of_build hbuild
  obtain ⟨lead, hlead, hlast, hreplace⟩ := build_replace hbuild (line_releaseQualifier h.plain)
  have hq : v.releaseQualifier ≠ [] := by simp [hlead, hbuilt.ne_nil]
  obtain ⟨front, hfront, hrelease, hqualifier⟩ := exists_front hq
  rw [hlead, ← List.append_assoc] at hrelease
  rw [hlead, List.append_assoc] at hqualifier
  have hold : v.chars = front ++ lead ++ (build.digits ++ v.marker) := by
    rw [← List.append_assoc, ← hrelease]
    exact (release_append_marker v).1
  have htake : v.release.take (v.release.length - build.digits.length) = front ++ lead := by
    rw [hrelease, List.length_append, Nat.add_sub_cancel, List.take_left]
  have hplain : Plain (front ++ lead ++ (digits ++ v.marker)) := by
    refine Plain.append (h.plain.subset ?_) (hd.plain.append hmarker)
    rw [hold]
    exact List.subset_append_left _ _
  rw [htake, List.append_assoc]
  -- a number takes the place of a number, so the version is read as before up to there
  obtain ⟨c, hopened, hc⟩ := hbuilt.opened hmarker
  obtain ⟨d, hopened', hd'⟩ := hd.opened hmarker
  obtain ⟨hnumbers, stem, hstem, hnew⟩ := numbers_exchange (front ++ lead) hopened hopened'
    (hc.trans hd'.symm) (by rw [← hold, hqualifier]; exact List.suffix_append _ _)
  rw [← hold, hqualifier] at hstem
  rw [← List.append_cancel_right hstem] at hnew
  have hall : ∀ c ∈ (front ++ lead).getLast?, c.isAlpha = false := by
    intro c hc
    rw [List.getLast?_append] at hc
    cases hl : lead.getLast? with
    | none =>
      rw [hl] at hc
      exact hfront c (List.mem_of_getLast? hc)
    | some d =>
      rw [hl] at hc
      exact hlast c (hl.trans hc)
  obtain ⟨-, -, hmarker', hrequalified⟩ := requalified_of_segment _ _ hd.segment hall hlast hplain
    rfl hnew (by rw [hnumbers, ← hold])
  refine ⟨hplain, by rw [hnumbers, ← hold], hmarker', ?_⟩
  rw [build?, hrequalified, hreplace _ hd.isNumber, qualifierStem, hbuild]

theorem setBuildNumber_of_none (hbuild : v.build? = none) (number : List Char) :
    v.setBuildNumber number = v.extend number := by
  have hnone : v.buildNumber? = none := by rw [buildNumber?, hbuild, Option.map_none]
  delta setBuildNumber
  rw [hnone]

theorem setBuildNumber_of_build (hbuild : v.build? = some build) (number : List Char) :
    v.setBuildNumber number =
      ⟨v.release.take (v.release.length - build.digits.length) ++ padLike build.digits number ++
        v.marker⟩ := by
  have hsome : v.buildNumber? = some build.digits := by rw [buildNumber?, hbuild, Option.map_some]
  delta setBuildNumber
  rw [hsome]

theorem renumbered_setBuildNumber (h : Settable v) (hn : Digits number) :
    Renumbered v (v.setBuildNumber number) (v.writtenNumber number) := by
  have hwritten := h.digits_writtenNumber hn
  cases hbuild : v.build? with
  | none =>
    have hnumber : v.writtenNumber number = number := by
      rw [writtenNumber, buildNumber?, hbuild]
      rfl
    rw [setBuildNumber_of_none hbuild, hnumber]
    exact renumbered_of_none h hbuild hn
  | some build =>
    rw [writtenNumber_of_build hbuild] at hwritten ⊢
    rw [setBuildNumber_of_build hbuild]
    exact renumbered_of_build h hbuild hwritten

theorem settable_of_ascii (h : OneLineAscii v.chars) : Settable v := by
  refine ⟨h.plain, fun existing hexisting => ?_⟩
  obtain ⟨build, hbuild, rfl⟩ := Option.map_eq_some_iff.1 hexisting
  obtain ⟨front, hrelease, -⟩ := letterless_append_releaseQualifier v
  obtain ⟨hne, hall⟩ := isNumber_iff.1 (build_eq_append hbuild).1
  refine ⟨hne, fun c hc => ?_⟩
  have hmem : c ∈ v.chars := by
    have hqualifier := (digits_suffix_of_build hbuild).subset hc
    rw [(release_append_marker v).1, hrelease]
    exact List.mem_append_left _ (List.mem_append_right _ hqualifier)
  rw [← isDecimal_of_ascii (h c hmem).1]
  exact hall c hc

namespace Renumbered

theorem buildNumber? (h : Renumbered v w digits) : w.buildNumber? = some digits := by
  rw [Version.buildNumber?, h.build, Option.map_some]

theorem qualifierStem (h : Renumbered v w digits) : w.qualifierStem = v.qualifierStem := by
  rw [Version.qualifierStem, h.build]

theorem settable (h : Renumbered v w digits) (hd : Digits digits) : Settable w := by
  refine ⟨h.plain, fun existing hexisting => ?_⟩
  rw [h.buildNumber?] at hexisting
  cases hexisting
  exact hd

end Renumbered

/-- The version has a build number, and it has the value of `number`. -/
def HasBuild (v : Version) (number : List Char) : Prop :=
  ∃ digits, v.buildNumber? = some digits ∧ Digits digits ∧ decimalValue digits = decimalValue number

theorem HasBuild.buildValue? (h : HasBuild v number) (hn : Digits number) :
    v.buildValue? = numberValue? number := by
  obtain ⟨digits, hbuild, hd, hvalue⟩ := h
  rw [Version.buildValue?, hbuild, Option.bind_some, numberValue?_of_digits hd.ne_nil hd.isDigit,
    numberValue?_of_digits hn.ne_nil hn.isDigit, hvalue]

/-- Two versions that are the same but for their build numbers, as far as they are read. -/
structure SameButBuild (v w : Version) : Prop where
  major : w.major = v.major
  minor : w.minor = v.minor
  micro : w.micro = v.micro
  qualifierStem : w.qualifierStem = v.qualifierStem
  isSnapshot : w.isSnapshot = v.isSnapshot

theorem SameButBuild.trans {u : Version} (h : SameButBuild u v) (h' : SameButBuild v w) :
    SameButBuild u w :=
  ⟨h'.major.trans h.major, h'.minor.trans h.minor, h'.micro.trans h.micro,
    h'.qualifierStem.trans h.qualifierStem, h'.isSnapshot.trans h.isSnapshot⟩

theorem Renumbered.sameButBuild (h : Renumbered v w digits) : SameButBuild v w := by
  have hnumbers := h.numbers
  simp only [Version.numbers, Prod.mk.injEq] at hnumbers
  exact ⟨hnumbers.1, hnumbers.2.1, hnumbers.2.2, h.qualifierStem, isSnapshot_eq_of_marker h.marker⟩

theorem Settable.hasBuild (h : Settable v) (hn : Digits number) :
    HasBuild (v.setBuildNumber number) number := by
  refine ⟨_, (renumbered_setBuildNumber h hn).buildNumber?, h.digits_writtenNumber hn, ?_⟩
  unfold writtenNumber
  cases hexisting : v.buildNumber? with
  | none => rfl
  | some existing => exact decimalValue_padLike (h.ascii hexisting) hn

/-- How many digits a number gets that is written in the place of another one: its own, or those of
a zero padded number that is longer. -/
def paddedWidth (existing : Option (List Char)) (number : List Char) : Nat :=
  existing.elim number.length fun existing =>
    if ZeroPadded existing then max existing.length number.length else number.length

theorem Settable.length_writtenNumber (h : Settable v) (hn : Digits number) :
    (v.writtenNumber number).length = paddedWidth v.buildNumber? number := by
  unfold writtenNumber paddedWidth
  cases hexisting : v.buildNumber? with
  | none => rfl
  | some existing => exact length_padLike (h.ascii hexisting) hn

/-- Setting a build number sets its value and nothing else of the version, and the number that is
set last counts. -/
theorem setBuildNumber_sets (v : Version) (n m : List Char) (hv : OneLineAscii v.chars)
    (hn : Digits n) (hm : Digits m) :
    HasBuild (v.setBuildNumber n) n ∧ (v.setBuildNumber n).buildValue? = numberValue? n ∧
      (v.setBuildNumber n).buildNumber?.map List.length = some (paddedWidth v.buildNumber? n) ∧
      SameButBuild v (v.setBuildNumber n) ∧
      HasBuild ((v.setBuildNumber n).setBuildNumber m) m ∧
      SameButBuild v ((v.setBuildNumber n).setBuildNumber m) := by
  have h := settable_of_ascii hv
  have hset := renumbered_setBuildNumber h hn
  have hagain := hset.settable (h.digits_writtenNumber hn)
  have hreset := renumbered_setBuildNumber hagain hm
  refine ⟨h.hasBuild hn, (h.hasBuild hn).buildValue? hn, ?_, hset.sameButBuild, hagain.hasBuild hm,
    hset.sameButBuild.trans hreset.sameButBuild⟩
  rw [hset.buildNumber?, Option.map_some, h.length_writtenNumber hn]

/-- The width of the padded number stays, until a longer one is set. -/
theorem redhat_padded_build_set :
    ((ofString "1.0.redhat-00009-SNAPSHOT").setBuildNumber ['1', '2']).text =
        "1.0.redhat-00012-SNAPSHOT" ∧
      HasBuild ((ofString "1.0.redhat-00009-SNAPSHOT").setBuildNumber ['1', '2']) ['1', '2'] ∧
      SameButBuild (ofString "1.0.redhat-00009-SNAPSHOT")
        (((ofString "1.0.redhat-00009-SNAPSHOT").setBuildNumber ['1', '2']).setBuildNumber
          "123456".toList) := by
  have hset := setBuildNumber_sets (ofString "1.0.redhat-00009-SNAPSHOT") ['1', '2']
    "123456".toList (by decide +kernel) (by decide) (by decide +kernel)
  exact ⟨by decide +kernel, hset.1, hset.2.2.2.2.2⟩

end BuildNumber

end Realign.Version
