import Realign.Proofs.Version.Bare

/-!
Versions with a suffix and a build number appended. The suffix stands behind text that ends in a
letter or a digit and behind a point or a hyphen; this footing is the same for every suffix that is
not in the version. A text that is stamped on it has the numbers of the footing, whatever the
build number is, and a qualifier that ends in the suffix and the build number. So of two such
texts with one suffix the higher build number is the higher one of the two that are stamped, as
far as these are below the bound for values.
-/
namespace Realign.Version

open Text

section Value

variable {digits : List Char}

/-- The number that ASCII digits write. -/
def decimalValue (digits : List Char) : Nat := Nat.ofDigitChars 10 digits 0

/-- ASCII digits have their value if it is below the bound. -/
theorem numberValue?_of_digits (hne : digits ≠ []) (h : ∀ c ∈ digits, c.isDigit = true) :
    numberValue? digits =
      if decimalValue digits < numberBound then some (decimalValue digits) else none := by
  have hvalue : digits.foldl (fun n c => n * 10 + (c.toNat - '0'.toNat)) 0 =
      decimalValue digits := by
    simp only [decimalValue, Nat.ofDigitChars_eq_foldl, Nat.mul_comm]
  rw [numberValue?, if_pos ⟨hne, List.all_eq_true.2 h⟩, hvalue]

end Value

section Footing

variable {front word digits a b : List Char} {joint : Char}

/-- What a suffix can stand behind: a line that ends in a letter or a digit, and a joint. -/
structure Footing (front : List Char) (joint : Char) : Prop where
  plain : Plain front
  closed : ∃ c ∈ front.getLast?, isSeparator c = false
  joint : joint = '.' ∨ joint = '-'

/-- The suffix and the build number behind the footing. -/
def stampOn (front : List Char) (joint : Char) (word digits : List Char) : List Char :=
  front ++ joint :: (word ++ '-' :: digits)

/-- The qualifier of a stamped text, up to the build number. -/
def stampStem (front : List Char) (joint : Char) (word : List Char) : List Char :=
  ((Split.of front).rest ++ [joint]).dropWhile isSeparator ++ word

theorem Stamp.numberValue?_eq (h : Stamp word digits) :
    numberValue? digits =
      if decimalValue digits < numberBound then some (decimalValue digits) else none :=
  numberValue?_of_digits h.digits_ne h.digits

/-- The new build number has a value, and the old one has none or not a higher one. -/
def Advances (old new : List Char) : Prop :=
  ∃ n, numberValue? new = some n ∧ ∀ m, numberValue? old = some m → m ≤ n

theorem advances_iff (ha : Stamp word a) (hb : Stamp word b) :
    Advances a b ↔ decimalValue b < numberBound ∧
      (decimalValue a ≤ decimalValue b ∨ numberBound ≤ decimalValue a) := by
  rw [Advances, ha.numberValue?_eq, hb.numberValue?_eq]
  by_cases hbound : decimalValue b < numberBound
  · by_cases hold : decimalValue a < numberBound
    · simp [hbound, hold, Nat.not_le.2 hold]
    · simp [hbound, hold, Nat.not_lt.1 hold]
  · simp [hbound]

theorem advances_zero (hb : Stamp word b) (hvalue : decimalValue b < numberBound) :
    Advances ['0'] b := by
  have hzero : decimalValue ['0'] = 0 := by decide
  rw [advances_iff hb.zero hb, hzero]
  exact ⟨hvalue, Or.inl (Nat.zero_le _)⟩

namespace Footing

theorem isSeparator_joint (h : Footing front joint) : isSeparator joint = true := by
  rcases h.joint with rfl | rfl <;> decide

theorem not_isAlpha_joint (h : Footing front joint) : joint.isAlpha = false := by
  rcases h.joint with rfl | rfl <;> decide

theorem front_ne_nil (h : Footing front joint) : front ≠ [] := by
  obtain ⟨c, hc, -⟩ := h.closed
  exact List.ne_nil_of_mem (List.mem_of_getLast? hc)

theorem plain_stampOn (h : Footing front joint) (hs : Stamp word digits) :
    Plain (stampOn front joint word digits) := by
  have hjoint : Plain [joint] := by rcases h.joint with rfl | rfl <;> decide
  exact h.plain.append (hjoint.append hs.oneLine.plain)

theorem beforeSnapshot_stampOn (hs : Stamp word digits) :
    beforeSnapshot (stampOn front joint word digits) = stampOn front joint word digits := by
  have hlast := hs.last_not_isAlpha (front ++ joint :: word)
  rw [List.append_assoc, List.cons_append] at hlast
  exact beforeSnapshot_of_last hlast

/-- The stamp only lengthens the rest, as the joint leads to a letter. -/
theorem split_stampOn (h : Footing front joint) (hs : Stamp word digits) :
    Split.of (stampOn front joint word digits) =
      more (joint :: (word ++ '-' :: digits)) (Split.of front) := by
  have hnumberless : Numberless ([joint] ++ (word ++ '-' :: digits)) := by
    apply (hs.lettered.append _).numberless.separated
    rw [List.forall_mem_singleton]
    exact h.isSeparator_joint
  exact split_append_of_numberless (h.plain_stampOn hs) hnumberless

theorem components_stampOn (h : Footing front joint) (hs : Stamp word digits) :
    components ⟨stampOn front joint word digits⟩ = components ⟨front⟩ := by
  simp only [components, major, minor, micro, split, h.split_stampOn hs]
  rfl

theorem qualifier_stampOn (h : Footing front joint) (hs : Stamp word digits) :
    qualifier ⟨stampOn front joint word digits⟩ = stampStem front joint word ++ '-' :: digits := by
  have hrest : (more (joint :: (word ++ '-' :: digits)) (Split.of front)).rest =
      (Split.of front).rest ++ [joint] ++ (word ++ '-' :: digits) := by
    simp [more]
  rw [qualifier, split, h.split_stampOn hs, hrest,
    dropWhile_append_of_starts (hs.lettered.append _).starts, stampStem, List.append_assoc]

theorem build?_stampOn (h : Footing front joint) (hs : Stamp word digits) :
    build? ⟨stampOn front joint word digits⟩ = some ⟨stampStem front joint word, digits⟩ := by
  have hline : '\n' ∉ stampStem front joint word := by
    intro hmem
    have hqualifier : '\n' ∈ qualifier ⟨stampOn front joint word digits⟩ := by
      rw [h.qualifier_stampOn hs]
      exact List.mem_append_left _ hmem
    obtain ⟨before, hchars, -⟩ := letterless_append_qualifier ⟨stampOn front joint word digits⟩
    have htext := List.mem_append_right before hqualifier
    rw [← hchars] at htext
    exact (h.plain_stampOn hs _ htext).1 rfl
  rw [build?, releaseQualifier, h.qualifier_stampOn hs,
    beforeSnapshot_of_last (hs.last_not_isAlpha _)]
  exact build_of_number hs.isNumber (Or.inr rfl) hline

theorem qualifierStem_stampOn (h : Footing front joint) (hs : Stamp word digits) :
    qualifierStem ⟨stampOn front joint word digits⟩ = stampStem front joint word := by
  rw [qualifierStem, h.build?_stampOn hs]

theorem buildValue?_stampOn (h : Footing front joint) (hs : Stamp word digits) :
    buildValue? ⟨stampOn front joint word digits⟩ = numberValue? digits := by
  rw [buildValue?, buildNumber?, h.build?_stampOn hs]
  rfl

/-- The highest build number of two texts that are stamped with one suffix. -/
theorem highestBuild?_stampOn (h : Footing front joint) (ha : Stamp word a) (hb : Stamp word b) :
    highestBuild? ⟨stampOn front joint word a⟩
        [⟨stampOn front joint word a⟩, ⟨stampOn front joint word b⟩] =
      ([numberValue? a, numberValue? b].filterMap id).max? := by
  simp only [highestBuild?, List.filterMap_cons, List.filterMap_nil, h.components_stampOn ha,
    h.components_stampOn hb, h.qualifierStem_stampOn ha, h.qualifierStem_stampOn hb,
    h.buildValue?_stampOn ha, h.buildValue?_stampOn hb, and_self, if_true, id]

/-- The suffix is in the OSGi form of the stamped text. -/
theorem within_toOsgi_stampOn (h : Footing front joint) (hs : Stamp word digits) :
    word <:+: toOsgi ⟨stampOn front joint word digits⟩ := by
  have hne : qualifier ⟨stampOn front joint word digits⟩ ≠ [] := by
    rw [h.qualifier_stampOn hs]
    simp
  have hwithin : word <:+: osgiQualifier (qualifier ⟨stampOn front joint word digits⟩) := by
    have hword := osgiQualifier_of_valid hs.isQualifierChar
    rw [h.qualifier_stampOn hs, stampStem]
    simp only [osgiQualifier, List.map_append] at hword ⊢
    rw [hword]
    exact ⟨_, _, rfl⟩
  rw [toOsgi_of_qualified hne]
  exact hwithin.trans (List.suffix_append _ _).isInfix

end Footing

end Footing

section Version

variable {v : Version}

theorem closed_micro (hp : Plain v.chars) : ∃ c ∈ v.micro.getLast?, isSeparator c = false := by
  obtain ⟨-, -, hnumber, hplain⟩ := isNumber_parts hp.digits
  obtain ⟨hne, hdecimal⟩ := isNumber_iff.1 hnumber
  have hmem := List.getLast_mem hne
  exact ⟨_, List.getLast?_eq_some_getLast hne, (hplain _ hmem).2 (hdecimal _ hmem)⟩

theorem footing_dotted (hp : Plain v.chars) : Footing (dotted [v.major, v.minor, v.micro]) '.' := by
  obtain ⟨hmajor, hminor, hmicro⟩ := isNumber_parts hp.digits
  have hplain : Plain (dotted [v.major, v.minor, v.micro]) := by
    apply plain_dotted
    simp only [List.forall_mem_cons]
    exact ⟨hmajor.2, hminor.2, hmicro.2, nofun⟩
  have hdotted : dotted [v.major, v.minor, v.micro] =
      v.major ++ '.' :: v.minor ++ ['.'] ++ v.micro := by
    simp [dotted]
  refine ⟨hplain, ?_, Or.inl rfl⟩
  rw [hdotted, List.getLast?_append_of_ne_nil _ (isNumber_iff.1 hmicro.1).1]
  exact closed_micro hp

/-- Every suffix that is not in a version without marker is appended on the same footing: behind the
version if it is qualified, else behind its three numbers. -/
theorem exists_footing (hp : Plain v.chars) (hsnapshot : v.isSnapshot = false)
    (hclosed : ∃ c ∈ v.chars.getLast?, isSeparator c = false) :
    ∃ front joint, Footing front joint ∧ ∀ word digits, Stamp word digits → ¬ word <:+: v.chars →
      ¬ word <:+: front ∧
        (v.appendSuffix (word ++ '-' :: digits)).chars = stampOn front joint word digits := by
  obtain ⟨hrelease, hmarker⟩ := release_of_not_isSnapshot hsnapshot
  -- A version without a qualifier is padded to three numbers before a suffix is appended.
  by_cases hq : v.releaseQualifier = []
  · refine ⟨_, _, footing_dotted hp, fun word digits hs habsent => ?_⟩
    refine ⟨hs.not_within (letterless_dotted v), ?_⟩
    rw [hs.appendSuffix (hrelease ▸ habsent), extend, hasQualifier, hq, hmarker]
    simp [stampOn, numbersDot, dotted]
  · refine ⟨v.chars, '-', ⟨hp, hclosed, Or.inr rfl⟩, fun word digits hs habsent => ⟨habsent, ?_⟩⟩
    rw [hs.appendSuffix (hrelease ▸ habsent), extend, hasQualifier, if_pos (by simpa using hq),
      hmarker, hrelease]
    simp [stampOn]

end Version

end Realign.Version
