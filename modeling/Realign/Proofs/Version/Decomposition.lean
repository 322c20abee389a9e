import Realign.Proofs.Text
import Realign.Proofs.Version.Suffix

/-!
The decomposition of a version text. What a decomposition has to be is said of its parts alone: they
make up the text in their order, every number is a run of digits that cannot be made longer, and a
number is there wherever the part in front of it leads to one. An ASCII text on one line has one
such decomposition, up to how the separators are shared out where numbers are absent, and its parts
are the ones that the scan from the front reads off.
-/
namespace Realign.Version

open Text

/-- The parts of a version text in their order. A number that is absent takes up no text. -/
@[ext]
structure Decomposition where
  major : Option (List Char) := none
  beforeMinor : List Char := []
  minor : Option (List Char) := none
  beforeMicro : List Char := []
  micro : Option (List Char) := none
  beforeQualifier : List Char := []
  qualifier : List Char := []
deriving DecidableEq, Repr

namespace Decomposition

def afterMicro (d : Decomposition) : List Char := d.beforeQualifier ++ d.qualifier

def afterMinor (d : Decomposition) : List Char :=
  d.beforeMicro ++ (d.micro.getD [] ++ d.afterMicro)

def afterMajor (d : Decomposition) : List Char :=
  d.beforeMinor ++ (d.minor.getD [] ++ d.afterMinor)

def text (d : Decomposition) : List Char := d.major.getD [] ++ d.afterMajor

/-- No separators are kept before a number that is absent. -/
def Tight (d : Decomposition) : Prop :=
  (d.minor = none → d.beforeMinor = []) ∧ (d.micro = none → d.beforeMicro = [])

end Decomposition

/-- Digits between two texts that do not go on with them. -/
structure MaximalRun (before digits after : List Char) : Prop where
  ne_nil : digits ≠ []
  isDigit : ∀ c ∈ digits, c.isDigit = true
  stops_before : ∀ c ∈ before.getLast?, c.isDigit = false
  stops_after : ∀ c ∈ after.head?, c.isDigit = false

def StartsWithDigit (text : List Char) : Prop := ∃ c ∈ text.head?, c.isDigit = true

/-- The text starts with a separator or more, and a digit behind them. -/
def LeadsToDigit (text : List Char) : Prop :=
  ∃ separators rest, text = separators ++ rest ∧ separators ≠ [] ∧
    (∀ c ∈ separators, isSeparator c = true) ∧ StartsWithDigit rest

/-- A further number, or none, behind the number `prior` that ends the text `before`. -/
structure Joint (before : List Char) (prior : Option (List Char)) (separators : List Char)
    (part : Option (List Char)) (after : List Char) : Prop where
  all_separators : ∀ c ∈ separators, isSeparator c = true
  separated : prior.isSome → part.isSome → separators ≠ []
  run : ∀ digits ∈ part, MaximalRun (before ++ separators) digits after
  present : part.isSome ↔ prior.isSome ∧ LeadsToDigit (separators ++ (part.getD [] ++ after))

/-- A decomposition of the text into numbers as long as they can be, and as many as there are. -/
structure Decomposes (text : List Char) (d : Decomposition) : Prop where
  whole : d.text = text
  run : ∀ digits ∈ d.major, MaximalRun [] digits d.afterMajor
  present : d.major.isSome ↔ StartsWithDigit text
  minor : Joint (d.major.getD []) d.major d.beforeMinor d.minor d.afterMinor
  micro : Joint (d.major.getD [] ++ d.beforeMinor ++ d.minor.getD []) d.minor d.beforeMicro d.micro
    d.afterMicro
  beforeQualifier : ∀ c ∈ d.beforeQualifier, isSeparator c = true
  qualifier : ∀ c ∈ d.qualifier.head?, isSeparator c = false

section Number

variable {text other before digits rest after : List Char}

theorem OneLineAscii.subset (h : OneLineAscii text) (hs : other ⊆ text) : OneLineAscii other :=
  fun c hc => h c (hs hc)

theorem StartsWithDigit.not_separator (h : StartsWithDigit text) :
    ∀ c ∈ text.head?, isSeparator c = false := by
  obtain ⟨d, hd, hdigit⟩ := h
  intro c hc
  cases hd.symm.trans hc
  exact not_isSeparator_of_isDigit hdigit

theorem MaximalRun.starts (h : MaximalRun before digits after) :
    StartsWithDigit (digits ++ rest) := by
  obtain ⟨c, digits, rfl⟩ := List.exists_cons_of_ne_nil h.ne_nil
  exact ⟨c, rfl, h.isDigit c (List.mem_cons_self ..)⟩

theorem isSome_number?_iff (h : OneLineAscii text) :
    (number? text).isSome ↔ StartsWithDigit text := by
  cases text with
  | nil => simp [number?, StartsWithDigit]
  | cons c text =>
    have hc := isDecimal_of_ascii (h c (List.mem_cons_self ..)).1
    by_cases hd : c.isDigit = true <;> simp [number?, StartsWithDigit, hc, hd]

theorem isSome_nextNumber?_iff (h : OneLineAscii text) :
    (nextNumber? text).isSome ↔ LeadsToDigit text := by
  have hdrop : OneLineAscii (text.dropWhile isSeparator) :=
    h.subset (List.dropWhile_suffix _).subset
  constructor
  · intro hn
    refine ⟨text.takeWhile isSeparator, text.dropWhile isSeparator,
      List.takeWhile_append_dropWhile.symm, ?_⟩
    unfold nextNumber? at hn
    split at hn
    · cases hn
    · rename_i hne
      exact ⟨hne, List.all_eq_true.1 List.all_takeWhile, (isSome_number?_iff hdrop).1 hn⟩
  · rintro ⟨separators, rest, rfl, hne, hsep, hstarts⟩
    have hhead := hstarts.not_separator
    rw [dropWhile_append_of_head hsep hhead] at hdrop
    rwa [nextNumber?, takeWhile_append_of_head hsep hhead, if_neg hne,
      dropWhile_append_of_head hsep hhead, isSome_number?_iff hdrop]

/-- A maximal run at the start of a text is the number that is read there. -/
theorem MaximalRun.number? (h : MaximalRun before digits after)
    (hascii : OneLineAscii (digits ++ after)) :
    Version.number? (digits ++ after) = some (digits, after) := by
  have hin : ∀ c ∈ digits, isDecimal c = true := fun c hc => isDecimal_of_isDigit (h.isDigit c hc)
  have hout : ∀ c ∈ after.head?, isDecimal c = false := by
    intro c hc
    have hmem : c ∈ digits ++ after := List.mem_append_right _ (List.mem_of_mem_head? hc)
    rw [isDecimal_of_ascii (hascii c hmem).1]
    exact h.stops_after c hc
  rw [Version.number?, takeWhile_append_of_head hin hout, dropWhile_append_of_head hin hout,
    if_neg h.ne_nil]

/-- The number that is read at the start of a text is a maximal run, behind whatever does not end
in a digit. -/
theorem maximalRun_of_number? (h : number? text = some (digits, after)) (hascii : OneLineAscii text)
    (hbefore : ∀ c ∈ before.getLast?, c.isDigit = false) :
    text = digits ++ after ∧ MaximalRun before digits after := by
  obtain ⟨rfl, rfl, hne⟩ := number?_eq_some h
  have hdecimal : ∀ c ∈ text, isDecimal c = c.isDigit := fun c hc =>
    isDecimal_of_ascii (hascii c hc).1
  refine ⟨List.takeWhile_append_dropWhile.symm, hne, ?_, hbefore, ?_⟩
  · intro c hc
    rw [← hdecimal c ((List.takeWhile_prefix _).subset hc)]
    exact List.all_eq_true.1 List.all_takeWhile c hc
  · intro c hc
    have hmem := (List.dropWhile_suffix isDecimal).subset (List.mem_of_mem_head? hc)
    have hstop := List.head?_dropWhile_not isDecimal text
    rw [hc] at hstop
    rw [← hdecimal c hmem]
    simpa using hstop

end Number

section Joint

variable {before text separators separators' after after' : List Char}
  {prior part part' : Option (List Char)}

/-- Without a number in front there is none behind. -/
theorem Joint.absent (h : Joint before prior separators part after) (hprior : prior = none) :
    part = none := by
  rw [← Option.not_isSome_iff_eq_none, h.present, hprior]
  exact fun hboth => Bool.noConfusion hboth.1

/-- What a joint says of the number behind it is what a scan reads there. -/
theorem Joint.nextNumber? (h : Joint before prior separators part after) (hprior : prior ≠ none)
    (hascii : OneLineAscii (separators ++ (part.getD [] ++ after))) :
    Version.nextNumber? (separators ++ (part.getD [] ++ after)) =
      part.map fun digits => (digits, after) := by
  cases part with
  | none =>
    rw [Option.map_none, ← Option.not_isSome_iff_eq_none, isSome_nextNumber?_iff hascii]
    intro hleads
    cases h.present.2 ⟨Option.isSome_iff_ne_none.2 hprior, hleads⟩
  | some digits =>
    have hrun := h.run digits rfl
    have hhead : ∀ c ∈ (digits ++ after).head?, isSeparator c = false := hrun.starts.not_separator
    have hdigits : OneLineAscii (digits ++ after) := hascii.subset (List.subset_append_right ..)
    have hne := h.separated (Option.isSome_iff_ne_none.2 hprior) rfl
    rw [Option.getD_some, Version.nextNumber?, takeWhile_append_of_head h.all_separators hhead,
      dropWhile_append_of_head h.all_separators hhead, if_neg hne, hrun.number? hdigits]
    rfl

/-- Behind a number there is one joint only that keeps no separators before an absent number. -/
theorem Joint.unique (h : Joint before prior separators part after)
    (h' : Joint before prior separators' part' after')
    (hascii : OneLineAscii (separators ++ (part.getD [] ++ after)))
    (heq : separators ++ (part.getD [] ++ after) = separators' ++ (part'.getD [] ++ after'))
    (ht : part = none → separators = []) (ht' : part' = none → separators' = []) :
    separators = separators' ∧ part = part' ∧ after = after' := by
  have hpart : part.map (fun digits => (digits, after)) =
      part'.map fun digits => (digits, after') := by
    by_cases hprior : prior = none
    · rw [h.absent hprior, h'.absent hprior, Option.map_none, Option.map_none]
    · rw [← h.nextNumber? hprior hascii, ← h'.nextNumber? hprior (heq ▸ hascii), heq]
  cases part with
  | none =>
    have hnone' : part' = none := by simpa using hpart.symm
    subst hnone'
    rw [ht rfl, ht' rfl] at heq
    exact ⟨(ht rfl).trans (ht' rfl).symm, rfl, heq⟩
  | some digits =>
    obtain ⟨digits', rfl⟩ : ∃ digits', part' = some digits' := by
      cases part' with
      | none => cases hpart
      | some digits' => exact ⟨digits', rfl⟩
    simp only [Option.map_some, Option.some.injEq, Prod.mk.injEq] at hpart
    obtain ⟨rfl, rfl⟩ := hpart
    exact ⟨List.append_cancel_right heq, rfl, rfl⟩

/-- Nothing is read where no number is in front or the text leads to none. -/
theorem joint_absent (h : prior.isSome → ¬ LeadsToDigit text) :
    Joint before prior [] none text where
  all_separators := nofun
  separated _ hpart := nomatch hpart
  run := nofun
  present := by simpa using h

/-- A number that is read behind another one is joined to it by the separators in between. -/
theorem joint_of_nextNumber? (before number : List Char) {digits : List Char}
    (hn : Version.nextNumber? text = some (digits, after)) (hascii : OneLineAscii text) :
    text = text.takeWhile isSeparator ++ (digits ++ after) ∧
      Joint before (some number) (text.takeWhile isSeparator) (some digits) after := by
  have hdrop : OneLineAscii (text.dropWhile isSeparator) :=
    hascii.subset (List.dropWhile_suffix _).subset
  have hsep : ∀ c ∈ text.takeWhile isSeparator, isSeparator c = true :=
    List.all_eq_true.1 List.all_takeWhile
  have hne : text.takeWhile isSeparator ≠ [] := by
    intro hnil
    rw [Version.nextNumber?, if_pos hnil] at hn
    cases hn
  have hbefore : ∀ c ∈ (before ++ text.takeWhile isSeparator).getLast?, c.isDigit = false := by
    rw [List.getLast?_append_of_ne_nil _ hne]
    intro c hc
    rw [← Bool.not_eq_true]
    intro hdigit
    have hcsep := hsep c (List.mem_of_mem_getLast? hc)
    rw [not_isSeparator_of_isDigit hdigit] at hcsep
    cases hcsep
  obtain ⟨heq, hrun⟩ := maximalRun_of_number? (nextNumber?_eq_some hn) hdrop hbefore
  constructor
  · rw [← heq, List.takeWhile_append_dropWhile]
  · refine ⟨hsep, fun _ _ => hne, ?_, ?_⟩
    · intro other hother
      cases hother
      exact hrun
    · simp only [Option.isSome_some, true_and, true_iff]
      exact ⟨_, _, rfl, hne, hsep, hrun.starts⟩

/-- Behind a number or none a joint is read off. -/
theorem exists_joint (before : List Char) (prior : Option (List Char)) (h : OneLineAscii text) :
    ∃ separators part after, text = separators ++ (part.getD [] ++ after) ∧
      (part = none → separators = []) ∧ Joint before prior separators part after := by
  by_cases habsent : prior.isSome → ¬ LeadsToDigit text
  · exact ⟨[], none, text, rfl, fun _ => rfl, joint_absent habsent⟩
  · rw [Classical.not_imp, Classical.not_not] at habsent
    obtain ⟨number, rfl⟩ := Option.isSome_iff_exists.1 habsent.1
    obtain ⟨row, hrow⟩ := Option.isSome_iff_exists.1 ((isSome_nextNumber?_iff h).2 habsent.2)
    obtain ⟨htext, hjoint⟩ := joint_of_nextNumber? before number hrow h
    exact ⟨_, some row.1, row.2, htext, by simp, hjoint⟩

end Joint

namespace Decomposes

variable {text : List Char} {d d' : Decomposition}

theorem number? (h : Decomposes text d) (hascii : OneLineAscii text) :
    Version.number? text = d.major.map fun digits => (digits, d.afterMajor) := by
  cases hmajor : d.major with
  | none =>
    rw [Option.map_none, ← Option.not_isSome_iff_eq_none, isSome_number?_iff hascii, ← h.present,
      hmajor]
    nofun
  | some digits =>
    have hwhole : digits ++ d.afterMajor = text := by
      rw [← h.whole, Decomposition.text, hmajor]
      rfl
    rw [← hwhole] at hascii ⊢
    exact (h.run digits hmajor).number? hascii

theorem afterMajor_suffix (h : Decomposes text d) : d.afterMajor <:+ text := by
  rw [← h.whole]
  exact List.suffix_append ..

theorem afterMinor_suffix (h : Decomposes text d) : d.afterMinor <:+ text :=
  (List.suffix_append_of_suffix (List.suffix_append ..)).trans h.afterMajor_suffix

/-- Behind the last number there are separators and the qualifier only. -/
theorem dropWhile_afterMicro (h : Decomposes text d) :
    d.afterMicro.dropWhile isSeparator = d.qualifier :=
  dropWhile_append_of_head h.beforeQualifier h.qualifier

theorem dropWhile_afterMinor (h : Decomposes text d) (hmicro : d.micro = none) :
    d.afterMinor.dropWhile isSeparator = d.qualifier := by
  rw [Decomposition.afterMinor, hmicro, List.dropWhile_append_of_pos h.micro.all_separators]
  exact h.dropWhile_afterMicro

theorem dropWhile_afterMajor (h : Decomposes text d) (hminor : d.minor = none) :
    d.afterMajor.dropWhile isSeparator = d.qualifier := by
  rw [Decomposition.afterMajor, hminor, List.dropWhile_append_of_pos h.minor.all_separators]
  exact h.dropWhile_afterMinor (h.micro.absent hminor)

theorem scanMicro (h : Decomposes text d) (hascii : OneLineAscii text) (hminor : d.minor ≠ none) :
    ∃ rest, Version.scanMicro d.afterMinor = { micro := d.micro, rest } ∧
      rest.dropWhile isSeparator = d.qualifier := by
  have hnext := h.micro.nextNumber? hminor (hascii.subset h.afterMinor_suffix.subset)
  rw [← Decomposition.afterMinor] at hnext
  rw [Version.scanMicro, scanNext, hnext]
  cases hmicro : d.micro with
  | none => exact ⟨d.afterMinor, rfl, h.dropWhile_afterMinor hmicro⟩
  | some digits => exact ⟨d.afterMicro, rfl, h.dropWhile_afterMicro⟩

theorem scanMinor (h : Decomposes text d) (hascii : OneLineAscii text) (hmajor : d.major ≠ none) :
    ∃ rest, Version.scanMinor d.afterMajor = { minor := d.minor, micro := d.micro, rest } ∧
      rest.dropWhile isSeparator = d.qualifier := by
  have hnext := h.minor.nextNumber? hmajor (hascii.subset h.afterMajor_suffix.subset)
  rw [← Decomposition.afterMajor] at hnext
  rw [Version.scanMinor, scanNext, hnext]
  cases hminor : d.minor with
  | none =>
    rw [h.micro.absent hminor]
    exact ⟨d.afterMajor, rfl, h.dropWhile_afterMajor hminor⟩
  | some digits =>
    obtain ⟨rest, hscan, hrest⟩ := h.scanMicro hascii (by simp [hminor])
    exact ⟨rest, by simp [hscan, putMinor], hrest⟩

/-- The scan reads off the parts of any decomposition. -/
theorem scan (h : Decomposes text d) (hascii : OneLineAscii text) :
    ∃ rest, Version.scan text = ⟨d.major, d.minor, d.micro, rest⟩ ∧
      rest.dropWhile isSeparator = d.qualifier := by
  rw [Version.scan, h.number? hascii]
  cases hmajor : d.major with
  | none =>
    have hwhole : d.afterMajor = text := by
      rw [← h.whole, Decomposition.text, hmajor]
      rfl
    have hminor := h.minor.absent hmajor
    rw [hminor, h.micro.absent hminor]
    exact ⟨text, rfl, hwhole ▸ h.dropWhile_afterMajor hminor⟩
  | some digits =>
    obtain ⟨rest, hscan, hrest⟩ := h.scanMinor hascii (by simp [hmajor])
    exact ⟨rest, by simp [hscan, putMajor], hrest⟩

/-- Two tight decompositions agree on the major part, then joint by joint to the end. -/
theorem eq_of_tight (h : Decomposes text d) (h' : Decomposes text d') (hascii : OneLineAscii text)
    (ht : d.Tight) (ht' : d'.Tight) : d = d' := by
  have hmajor : d.major = d'.major ∧ d.afterMajor = d'.afterMajor := by
    have hwhole : d.text = d'.text := h.whole.trans h'.whole.symm
    obtain ⟨_, hscan, -⟩ := h.scan hascii
    obtain ⟨_, hscan', -⟩ := h'.scan hascii
    have heq : d.major = d'.major := congrArg Split.major (hscan.symm.trans hscan')
    rw [Decomposition.text, Decomposition.text, heq] at hwhole
    exact ⟨heq, List.append_cancel_left hwhole⟩
  have hjoint := h'.minor
  rw [← hmajor.1] at hjoint
  obtain ⟨hbefore, hminor, hafter⟩ := h.minor.unique hjoint
    (hascii.subset h.afterMajor_suffix.subset) hmajor.2 ht.1 ht'.1
  have hjoint' := h'.micro
  rw [← hmajor.1, ← hbefore, ← hminor] at hjoint'
  obtain ⟨hbefore', hmicro, hafter'⟩ := h.micro.unique hjoint'
    (hascii.subset h.afterMinor_suffix.subset) hafter ht.2 ht'.2
  have hqualifier : d.qualifier = d'.qualifier := by
    rw [← h.dropWhile_afterMicro, ← h'.dropWhile_afterMicro, hafter']
  have hseparators : d.beforeQualifier = d'.beforeQualifier := by
    rw [Decomposition.afterMicro, Decomposition.afterMicro, hqualifier] at hafter'
    exact List.append_cancel_right hafter'
  exact Decomposition.ext hmajor.1 hbefore hminor hbefore' hmicro hseparators hqualifier

end Decomposes

section Existence

variable {text : List Char}

theorem exists_major (hascii : OneLineAscii text) :
    ∃ (major : Option (List Char)) (after : List Char), text = major.getD [] ++ after ∧
      (∀ digits ∈ major, MaximalRun [] digits after) ∧ (major.isSome ↔ StartsWithDigit text) := by
  rw [← isSome_number?_iff hascii]
  cases hn : number? text with
  | none => exact ⟨none, text, rfl, nofun, Iff.rfl⟩
  | some row =>
    obtain ⟨digits, after⟩ := row
    have hfront : ∀ c ∈ ([] : List Char).getLast?, c.isDigit = false := nofun
    obtain ⟨heq, hrun⟩ := maximalRun_of_number? hn hascii hfront
    refine ⟨some digits, after, heq, ?_, Iff.rfl⟩
    rintro _ ⟨⟩
    exact hrun

theorem exists_decomposition (hascii : OneLineAscii text) :
    ∃ d, Decomposes text d ∧ d.Tight := by
  obtain ⟨major, afterMajor, heq, hrun, hpresent⟩ := exists_major hascii
  have hasciiMajor : OneLineAscii afterMajor :=
    hascii.subset (heq ▸ List.subset_append_right _ _)
  obtain ⟨beforeMinor, minor, afterMinor, heq', ht, hminor⟩ :=
    exists_joint (major.getD []) major hasciiMajor
  have hasciiMinor : OneLineAscii afterMinor := by
    apply hasciiMajor.subset
    rw [heq']
    exact (List.suffix_append_of_suffix (List.suffix_append ..)).subset
  obtain ⟨beforeMicro, micro, afterMicro, heq'', ht', hmicro⟩ :=
    exists_joint (major.getD [] ++ beforeMinor ++ minor.getD []) minor hasciiMinor
  let d : Decomposition := ⟨major, beforeMinor, minor, beforeMicro, micro,
    afterMicro.takeWhile isSeparator, afterMicro.dropWhile isSeparator⟩
  have hafterMicro : d.afterMicro = afterMicro := List.takeWhile_append_dropWhile
  have hafterMinor : d.afterMinor = afterMinor := by
    rw [Decomposition.afterMinor, hafterMicro, heq'']
  have hafterMajor : d.afterMajor = afterMajor := by
    rw [Decomposition.afterMajor, hafterMinor, heq']
  refine ⟨d, ⟨?_, hafterMajor ▸ hrun, hpresent, hafterMinor ▸ hminor, hafterMicro ▸ hmicro, ?_, ?_⟩,
    ht, ht'⟩
  · rw [Decomposition.text, hafterMajor, heq]
  · exact List.all_eq_true.1 List.all_takeWhile
  · intro c hc
    have hstop := List.head?_dropWhile_not isSeparator afterMicro
    rw [show (afterMicro.dropWhile isSeparator).head? = some c from hc] at hstop
    simpa using hstop

end Existence

/-- A version in ASCII on one line has one decomposition that is tight, and in every decomposition
the numbers and the qualifier are those of the version. -/
theorem existsUnique_decomposition (v : Version) (h : OneLineAscii v.chars) :
    (∃! d, Decomposes v.chars d ∧ d.Tight) ∧
      ∀ d, Decomposes v.chars d → d.major = v.split.major ∧ d.minor = v.split.minor ∧
        d.micro = v.split.micro ∧ d.qualifier = v.qualifier := by
  constructor
  · obtain ⟨d, hd, ht⟩ := exists_decomposition h
    exact ⟨d, ⟨hd, ht⟩, fun d' hd' => hd'.1.eq_of_tight hd h hd'.2 ht⟩
  · intro d hd
    obtain ⟨rest, hscan, hrest⟩ := hd.scan h
    have hsplit : v.split = ⟨d.major, d.minor, d.micro, rest⟩ :=
      (split_of_plain h.plain).trans hscan
    rw [qualifier, hsplit]
    exact ⟨rfl, rfl, rfl, hrest.symm⟩

def mixedVersion : Version := ofString "1.02-_3..Final-4"

theorem mixedVersion_decomposition : OneLineAscii mixedVersion.chars ∧
    (∃! d, Decomposes mixedVersion.chars d ∧ d.Tight) ∧
      ∀ d, Decomposes mixedVersion.chars d → d.major = some ['1'] ∧ d.minor = some ['0', '2'] ∧
        d.micro = some ['3'] ∧ d.qualifier = "Final-4".toList := by
  have hascii : OneLineAscii mixedVersion.chars := by decide
  have hparts : mixedVersion.split.major = some ['1'] ∧ mixedVersion.split.minor = some ['0', '2'] ∧
      mixedVersion.split.micro = some ['3'] ∧ mixedVersion.qualifier = "Final-4".toList := by
    decide
  obtain ⟨hunique, hall⟩ := existsUnique_decomposition mixedVersion hascii
  refine ⟨hascii, hunique, fun d hd => ?_⟩
  obtain ⟨hmajor, hminor, hmicro, hqualifier⟩ := hall d hd
  exact ⟨hmajor.trans hparts.1, hminor.trans hparts.2.1, hmicro.trans hparts.2.2.1,
    hqualifier.trans hparts.2.2.2⟩

end Realign.Version
