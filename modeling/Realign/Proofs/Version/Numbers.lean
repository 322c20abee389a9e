import Mathlib.Data.List.TakeWhile
import Realign.Proofs.Version.Scan
import Realign.Version.Osgi
import Realign.Version.Suffix

/-!
What keeps the numbers of a version. They are read in front of the first letter, so they stay the
same when the text is cut off before a letter, with or without the separators in front of
it; and they are what the OSGi form writes out, where a missing number is a zero.
-/
namespace Realign.Version

open Text

/-- A text on one line in which no decimal digit is a separator. -/
def Plain (text : List Char) : Prop :=
  ∀ c ∈ text, c ≠ '\n' ∧ (isDecimal c = true → isSeparator c = false)

instance (text : List Char) : Decidable (Plain text) := List.decidableBAll _ text

def numbers (v : Version) : List Char × List Char × List Char := (v.major, v.minor, v.micro)

/-- A text on one line from which the numbers of the other one are read. -/
def SameNumbers (text other : List Char) : Prop :=
  Plain text ∧ numbers ⟨text⟩ = numbers ⟨other⟩

theorem SameNumbers.refl {text : List Char} (h : Plain text) : SameNumbers text text := ⟨h, rfl⟩

theorem SameNumbers.trans {text other third : List Char} (h : SameNumbers text other)
    (h' : SameNumbers other third) : SameNumbers text third := ⟨h.1, h.2.trans h'.2⟩

/-- No number is read at the start of the text, nor behind separators there. -/
def Numberless (text : List Char) : Prop := number? (text.dropWhile isSeparator) = none

/-- A text without what stands at its end, which has no number to add. -/
def Trims (head text : List Char) : Prop := ∃ tail, text = head ++ tail ∧ Numberless tail

section Plain

variable {text other : List Char}

theorem Plain.subset (h : Plain text) (hs : other ⊆ text) : Plain other := fun c hc => h c (hs hc)

theorem Plain.append (h : Plain text) (h' : Plain other) : Plain (text ++ other) :=
  List.forall_mem_append.2 ⟨h, h'⟩

theorem Plain.digits (h : Plain text) : PlainDigits text := fun c hc => (h c hc).2

theorem scan_suffix (text : List Char) : (scan text).rest <:+ text := by
  unfold scan
  cases hn : number? text with
  | none => exact List.suffix_refl text
  | some row => exact (greedy_scanMinor.suffix row.2).trans (number?_suffix hn)

theorem split_of_plain (h : Plain text) : Split.of text = scan text := by
  have hline : '\n' ∉ (scan text).rest := fun hmem =>
    (h '\n' ((scan_suffix text).subset hmem)).1 rfl
  rw [split_eq_scan h.digits, oneLine, if_neg hline, Option.getD_some]

/-- A text falls apart in the greedy way or is all rest. -/
theorem split_cases (h : PlainDigits text) :
    Split.of text = scan text ∨ Split.of text = scanRest text := by
  rw [split_eq_scan h, oneLine]
  split
  · exact Or.inr rfl
  · exact Or.inl rfl

end Plain

section Cut

variable {head tail text : List Char}

theorem number?_eq_none : number? text = none ↔ text.takeWhile isDecimal = [] := by
  unfold number?
  split
  · rename_i h
    simp [h]
  · rename_i h
    simp [h]

theorem number?_append (h : number? tail = none) :
    number? (head ++ tail) = (number? head).map fun row => (row.1, row.2 ++ tail) := by
  rw [number?_eq_none] at h
  have hdrop : tail.dropWhile isDecimal = tail := by
    have happend := List.takeWhile_append_dropWhile (p := isDecimal) (l := tail)
    rwa [h, List.nil_append] at happend
  have hcut : (head ++ tail).takeWhile isDecimal = head.takeWhile isDecimal ∧
      (head ++ tail).dropWhile isDecimal = head.dropWhile isDecimal ++ tail := by
    induction head with
    | nil => exact ⟨h, hdrop⟩
    | cons c head ih =>
      by_cases hc : isDecimal c = true
      · simp [hc, ih]
      · simp [hc]
  rw [number?, number?, hcut.1, hcut.2]
  split <;> rfl

theorem Numberless.number? (h : Numberless tail) (hp : PlainDigits tail) :
    Version.number? tail = none := by
  cases tail with
  | nil => rfl
  | cons c tail =>
    by_cases hc : isDecimal c = true
    · have hsep := hp c (List.mem_cons_self ..) hc
      rwa [Numberless, List.dropWhile_cons, hsep] at h
    · simp [Version.number?, hc]

/-- What has no number to add adds none behind other text. -/
theorem nextNumber?_append (hp : PlainDigits tail) (h : Numberless tail) :
    nextNumber? (head ++ tail) = (nextNumber? head).map fun row => (row.1, row.2 ++ tail) := by
  unfold nextNumber?
  cases hd : head.dropWhile isSeparator with
  | nil =>
    have hdrop : (head ++ tail).dropWhile isSeparator = tail.dropWhile isSeparator := by
      rw [List.dropWhile_append, hd]
      rfl
    rw [hdrop, h]
    have hnil : Version.number? [] = none := rfl
    simp [hnil]
  | cons c rest =>
    have hdrop : (head ++ tail).dropWhile isSeparator = c :: rest ++ tail := by
      rw [List.dropWhile_append, hd]
      rfl
    have htake : (head ++ tail).takeWhile isSeparator = head.takeWhile isSeparator := by
      have hlt : (head.takeWhile isSeparator).length ≠ head.length := by
        intro heq
        have hlen := congrArg List.length
          (List.takeWhile_append_dropWhile (p := isSeparator) (l := head))
        rw [List.length_append, hd, List.length_cons] at hlen
        omega
      rw [List.takeWhile_append, if_neg hlt]
    rw [htake, hdrop]
    split
    · rfl
    · exact number?_append (h.number? hp)

/-- The rest goes on with more text. -/
def more (tail : List Char) (s : Split) : Split := { s with rest := s.rest ++ tail }

theorem scanNext_append (put : List Char → Split → Split) (inner : List Char → Split)
    (hp : PlainDigits tail) (h : Numberless tail)
    (hput : ∀ digits s, put digits (more tail s) = more tail (put digits s))
    (hinner : ∀ text, inner (text ++ tail) = more tail (inner text)) (head : List Char) :
    scanNext put inner (head ++ tail) = more tail (scanNext put inner head) := by
  rw [scanNext, scanNext, nextNumber?_append hp h]
  cases nextNumber? head with
  | none => rfl
  | some row =>
    simp only [Option.map_some]
    rw [hinner, hput]

/-- Cutting off what has no number to add only shortens the rest. -/
theorem scan_append (hp : PlainDigits tail) (h : Numberless tail) (head : List Char) :
    scan (head ++ tail) = more tail (scan head) := by
  have hmicro (text : List Char) : scanMicro (text ++ tail) = more tail (scanMicro text) :=
    scanNext_append putMicro scanRest hp h (fun _ _ => rfl) (fun _ => rfl) text
  have hminor (text : List Char) : scanMinor (text ++ tail) = more tail (scanMinor text) :=
    scanNext_append putMinor scanMicro hp h (fun _ _ => rfl) hmicro text
  rw [scan, scan, number?_append (h.number? hp)]
  cases number? head with
  | none => rfl
  | some row =>
    simp only [Option.map_some]
    rw [hminor]
    rfl

theorem split_append_of_numberless (hp : Plain (head ++ tail)) (h : Numberless tail) :
    Split.of (head ++ tail) = more tail (Split.of head) := by
  have hhead := hp.subset (List.subset_append_left head tail)
  have htail := hp.subset (List.subset_append_right head tail)
  rw [split_of_plain hp, split_of_plain hhead, scan_append htail.digits h]

theorem numbers_of_trims (hp : Plain text) (h : Trims head text) :
    numbers ⟨text⟩ = numbers ⟨head⟩ := by
  obtain ⟨tail, rfl, hnone⟩ := h
  simp only [numbers, major, minor, micro, split, split_append_of_numberless hp hnone]
  rfl

theorem sameNumbers_of_trims (hp : Plain text) (h : Trims head text) : SameNumbers head text := by
  refine ⟨?_, (numbers_of_trims hp h).symm⟩
  obtain ⟨tail, rfl, -⟩ := h
  exact hp.subset (List.subset_append_left head tail)

theorem numberless_nil : Numberless [] := rfl

theorem numberless_cons {c : Char} (hs : isSeparator c = false) (hd : isDecimal c = false)
    (text : List Char) : Numberless (c :: text) := by
  simp [Numberless, number?, hs, hd]

/-- Separators before a text have no number to add. -/
theorem Numberless.separated {separators : List Char} (h : Numberless text)
    (hs : ∀ c ∈ separators, isSeparator c = true) : Numberless (separators ++ text) := by
  rwa [Numberless, List.dropWhile_append_of_pos hs]

theorem trims_refl (text : List Char) : Trims text text :=
  ⟨[], (List.append_nil text).symm, numberless_nil⟩

end Cut

section Parts

variable {text digits rest tail : List Char} {s : Split} {v : Version}

theorem isNumber_iff : isNumber digits = true ↔ digits ≠ [] ∧ ∀ c ∈ digits, isDecimal c = true := by
  simp [isNumber]

theorem not_mem_of_isNumber {c : Char} (h : isNumber digits = true) (hc : isDecimal c = false) :
    c ∉ digits := by
  intro hmem
  rw [(isNumber_iff.1 h).2 c hmem] at hc
  cases hc

/-- A number of digits that the text has. -/
def NumberIn (text digits : List Char) : Prop := isNumber digits = true ∧ digits ⊆ text

structure Numeric (text : List Char) (s : Split) : Prop where
  major : ∀ digits, s.major = some digits → NumberIn text digits
  minor : ∀ digits, s.minor = some digits → NumberIn text digits
  micro : ∀ digits, s.micro = some digits → NumberIn text digits

theorem NumberIn.mono {other : List Char} (h : NumberIn text digits) (hs : text ⊆ other) :
    NumberIn other digits := ⟨h.1, fun _ hc => hs (h.2 hc)⟩

theorem Numeric.mono {other : List Char} (h : Numeric text s) (hs : text ⊆ other) :
    Numeric other s :=
  ⟨fun d hd => (h.major d hd).mono hs, fun d hd => (h.minor d hd).mono hs,
    fun d hd => (h.micro d hd).mono hs⟩

theorem numberIn_of_number? (h : number? text = some (digits, rest)) : NumberIn text digits := by
  obtain ⟨rfl, -, hne⟩ := number?_eq_some h
  have hall : (text.takeWhile isDecimal).all isDecimal = true := List.all_takeWhile
  exact ⟨isNumber_iff.2 ⟨hne, List.all_eq_true.1 hall⟩, (List.takeWhile_prefix _).subset⟩

theorem numeric_scanNext (put : List Char → Split → Split) (inner : List Char → Split)
    (hput : ∀ text digits s, NumberIn text digits → Numeric text s → Numeric text (put digits s))
    (hinner : ∀ text, Numeric text (inner text)) (text : List Char) :
    Numeric text (scanNext put inner text) := by
  unfold scanNext
  split
  · rename_i digits rest hn
    apply hput
    · have hnumber := numberIn_of_number? (nextNumber?_eq_some hn)
      exact hnumber.mono (List.dropWhile_suffix _).subset
    · exact (hinner rest).mono (nextNumber?_suffix hn).subset
  · exact ⟨nofun, nofun, nofun⟩

theorem numeric_scanMicro : ∀ text, Numeric text (scanMicro text) := by
  apply numeric_scanNext
  · intro text digits s hd hs
    exact { hs with micro := fun _ ho => Option.some.inj ho ▸ hd }
  · intro text
    exact ⟨nofun, nofun, nofun⟩

theorem numeric_scanMinor : ∀ text, Numeric text (scanMinor text) := by
  apply numeric_scanNext
  · intro text digits s hd hs
    exact { hs with minor := fun _ ho => Option.some.inj ho ▸ hd }
  · exact numeric_scanMicro

theorem numeric_scan (text : List Char) : Numeric text (scan text) := by
  unfold scan
  split
  · rename_i digits rest hn
    have hrest := (numeric_scanMinor rest).mono (number?_suffix hn).subset
    exact { hrest with major := fun _ ho => Option.some.inj ho ▸ numberIn_of_number? hn }
  · exact ⟨nofun, nofun, nofun⟩

/-- The third number is read behind the second only. -/
theorem scan_micro_eq_none (h : (scan text).minor = none) : (scan text).micro = none := by
  unfold scan at h ⊢
  cases hn : number? text with
  | none => rfl
  | some row =>
    rw [hn] at h
    simp only [putMajor, scanMinor, scanNext] at h ⊢
    cases hm : nextNumber? row.2 with
    | none => rfl
    | some row' =>
      rw [hm] at h
      cases h

/-- The numbers behind the first one, as far as they are written, are read off in order. -/
theorem parts_scan (text : List Char) :
    (∀ part ∈ [(scan text).minor, (scan text).micro].filterMap id, NumberIn text part) ∧
      ([(scan text).minor, (scan text).micro].filterMap id)[0]? = (scan text).minor ∧
      ([(scan text).minor, (scan text).micro].filterMap id)[1]? = (scan text).micro := by
  have hscan := numeric_scan text
  constructor
  · intro part hpart
    simp only [List.mem_filterMap, List.mem_cons, List.not_mem_nil, or_false, id,
      exists_eq_right] at hpart
    rcases hpart with hminor | hmicro
    · exact hscan.minor part hminor.symm
    · exact hscan.micro part hmicro.symm
  · cases hminor : (scan text).minor with
    | none =>
      rw [scan_micro_eq_none hminor]
      exact ⟨rfl, rfl⟩
    | some b => cases (scan text).micro <;> exact ⟨rfl, rfl⟩

theorem numeric_scanRest (text : List Char) : Numeric text (scanRest text) := ⟨nofun, nofun, nofun⟩

theorem numeric_split (h : PlainDigits text) : Numeric text (Split.of text) := by
  rcases split_cases h with heq | heq
  · rw [heq]
    exact numeric_scan text
  · rw [heq]
    exact numeric_scanRest text

theorem parts_split (h : PlainDigits text) :
    (∀ part ∈ [(Split.of text).minor, (Split.of text).micro].filterMap id, NumberIn text part) ∧
      ([(Split.of text).minor, (Split.of text).micro].filterMap id)[0]? = (Split.of text).minor ∧
        ([(Split.of text).minor, (Split.of text).micro].filterMap id)[1]? =
          (Split.of text).micro := by
  rcases split_cases h with heq | heq
  · rw [heq]
    exact parts_scan text
  · rw [heq]
    exact ⟨nofun, rfl, rfl⟩

theorem not_isDecimal_newline : isDecimal '\n' = false := by decide

/-- A number is one line, and its digits are no separators in a text with plain digits. -/
theorem NumberIn.plain (h : NumberIn text digits) (hp : PlainDigits text) : Plain digits := by
  intro c hc
  refine ⟨?_, hp c (h.2 hc)⟩
  rintro rfl
  exact not_mem_of_isNumber h.1 not_isDecimal_newline hc

theorem plain_zero : Plain ['0'] := by decide

/-- A number of a version is a number in digits that the version has, or a zero. -/
theorem numberIn_getD {part : Option (List Char)}
    (h : ∀ digits, part = some digits → NumberIn text digits) (hp : PlainDigits text) :
    isNumber (part.getD ['0']) = true ∧ Plain (part.getD ['0']) := by
  cases part with
  | none => exact ⟨by decide, plain_zero⟩
  | some digits => exact ⟨(h digits rfl).1, (h digits rfl).plain hp⟩

end Parts

section Osgi

variable {a b c digits tail text : List Char} {v : Version}

theorem number?_digits (hd : isNumber digits = true) (ht : number? tail = none) :
    number? (digits ++ tail) = some (digits, tail) := by
  obtain ⟨hne, hall⟩ := isNumber_iff.1 hd
  have htake : digits.takeWhile isDecimal = digits := List.takeWhile_eq_self_iff.2 hall
  have hdrop : digits.dropWhile isDecimal = [] := List.dropWhile_eq_nil_iff.2 hall
  rw [number?_append ht, number?, htake, hdrop, if_neg hne]
  rfl

theorem nextNumber?_point (hd : isNumber digits = true) (hp : Plain digits)
    (ht : number? tail = none) :
    nextNumber? ('.' :: (digits ++ tail)) = some (digits, tail) := by
  have hpoint : isSeparator '.' = true := by decide
  have hdrop : (digits ++ tail).dropWhile isSeparator = digits ++ tail := by
    cases digits with
    | nil => cases hd
    | cons d digits =>
      have hdecimal : isDecimal d = true := (isNumber_iff.1 hd).2 d (List.mem_cons_self ..)
      have hsep := (hp d (List.mem_cons_self ..)).2 hdecimal
      rw [List.cons_append, List.dropWhile_cons, hsep]
      rfl
  rw [nextNumber?, List.takeWhile_cons, List.dropWhile_cons, hpoint]
  simp only [if_true, reduceCtorEq, if_false]
  rw [hdrop, number?_digits hd ht]

theorem dotted_cons_cons (first second : List Char) (rest : List (List Char)) :
    dotted (first :: second :: rest) = first ++ '.' :: dotted (second :: rest) := by
  rw [dotted, List.intercalate_cons_cons, List.append_assoc]
  rfl

theorem plain_dotted {parts : List (List Char)} (h : ∀ part ∈ parts, Plain part) :
    Plain (dotted parts) := by
  induction parts with
  | nil => exact nofun
  | cons part parts ih =>
    rw [List.forall_mem_cons] at h
    cases parts with
    | nil => simpa [dotted] using h.1
    | cons next parts =>
      have hpoint : Plain ['.'] := by decide
      rw [dotted_cons_cons]
      exact h.1.append (hpoint.append (ih h.2))

theorem scanNext_point (put : List Char → Split → Split) (inner : List Char → Split)
    (hd : isNumber digits = true) (hp : Plain digits) (ht : number? tail = none) :
    scanNext put inner ('.' :: (digits ++ tail)) = put digits (inner tail) := by
  rw [scanNext, nextNumber?_point hd hp ht]

theorem number?_point : number? ('.' :: text) = none := by
  rw [number?_eq_none, List.takeWhile_cons]
  rfl

/-- Numbers with points between them are read off one by one. -/
theorem scan_dotted (ha : isNumber a = true) (hb : isNumber b = true) (hc : isNumber c = true)
    (hpb : Plain b) (hpc : Plain c) (ht : number? tail = none) :
    scan (dotted [a, b, c] ++ tail) = putMajor a (putMinor b (putMicro c (scanRest tail))) := by
  have htext : dotted [a, b, c] ++ tail = a ++ '.' :: (b ++ '.' :: (c ++ tail)) := by
    simp [dotted]
  rw [htext, scan, number?_digits ha number?_point]
  simp only [scanMinor]
  rw [scanNext_point _ _ hb hpb number?_point, scanMicro, scanNext_point _ _ hc hpc ht]

theorem scan_dotted_parts {parts : List (List Char)} (ha : isNumber a = true)
    (hparts : ∀ part ∈ parts, isNumber part = true ∧ Plain part) (hlength : parts.length ≤ 2) :
    scan (dotted (a :: parts)) = ⟨some a, parts[0]?, parts[1]?, []⟩ := by
  match parts with
  | [] =>
    have htext : dotted [a] = a ++ [] := by simp [dotted]
    rw [htext, scan, number?_digits ha rfl]
    rfl
  | [b] =>
    have hb := hparts b (List.mem_singleton_self b)
    have htext : dotted [a, b] = a ++ '.' :: (b ++ []) := by simp [dotted]
    rw [htext, scan, number?_digits ha number?_point]
    simp only [scanMinor]
    rw [scanNext_point _ _ hb.1 hb.2 rfl]
    rfl
  | [b, c] =>
    simp only [List.forall_mem_cons] at hparts
    have hdots := scan_dotted ha hparts.1.1 hparts.2.1.1 hparts.1.2 hparts.2.1.2
      (rfl : number? [] = none)
    rwa [List.append_nil] at hdots
  | _ :: _ :: _ :: _ => simp at hlength

theorem isQualifierChar_of_mem_osgiQualifier :
    ∀ c ∈ osgiQualifier text, isQualifierChar c = true := by
  have hhyphen : isQualifierChar '-' = true := by decide
  intro c hc
  obtain ⟨d, -, rfl⟩ := List.mem_map.1 hc
  split
  · assumption
  · exact hhyphen

theorem osgiQualifier_of_valid (h : ∀ c ∈ text, isQualifierChar c = true) :
    osgiQualifier text = text :=
  (List.map_congr_left fun c hc => if_pos (h c hc)).trans (List.map_id' text)

/-- An OSGi qualifier is one line in ASCII, whatever it was made of. -/
theorem plain_osgiQualifier (text : List Char) : Plain (osgiQualifier text) := by
  have hmarks : Plain ['_', '-'] := by decide
  intro c hc
  have hvalid := isQualifierChar_of_mem_osgiQualifier c hc
  simp only [isQualifierChar, Bool.or_eq_true, decide_eq_true_eq] at hvalid
  rcases hvalid with (halphanum | rfl) | rfl
  · refine ⟨?_, fun _ => by simp [isSeparator, halphanum]⟩
    rintro rfl
    cases halphanum
  · exact hmarks '_' (by simp)
  · exact hmarks '-' (by simp)

theorem isNumber_parts (hp : PlainDigits v.chars) :
    (isNumber v.major = true ∧ Plain v.major) ∧ (isNumber v.minor = true ∧ Plain v.minor) ∧
      (isNumber v.micro = true ∧ Plain v.micro) := by
  have hsplit := numeric_split hp
  exact ⟨numberIn_getD hsplit.major hp, numberIn_getD hsplit.minor hp,
    numberIn_getD hsplit.micro hp⟩

/-- The numbers with a point behind each are read off again, and any text behind them that goes on
one line is the rest. -/
theorem split_numbersDot (hp : PlainDigits v.chars) (ht : Plain tail) :
    Plain (v.numbersDot ++ tail) ∧ Split.of (v.numbersDot ++ tail) =
      ⟨some v.major, some v.minor, some v.micro, '.' :: tail⟩ := by
  obtain ⟨hmajor, hminor, hmicro⟩ := isNumber_parts hp
  have hpoint : Plain ['.'] := by decide
  have htext : v.numbersDot ++ tail = dotted [v.major, v.minor, v.micro] ++ '.' :: tail := by
    simp [numbersDot, dotted]
  have hplain : Plain (dotted [v.major, v.minor, v.micro] ++ '.' :: tail) := by
    apply (plain_dotted _).append (hpoint.append ht)
    simp only [List.forall_mem_cons]
    exact ⟨hmajor.2, hminor.2, hmicro.2, nofun⟩
  rw [htext, split_of_plain hplain,
    scan_dotted hmajor.1 hminor.1 hmicro.1 hminor.2 hmicro.2 number?_point]
  exact ⟨hplain, rfl⟩

theorem sameNumbers_numbersDot (hp : PlainDigits v.chars) (ht : Plain tail) :
    SameNumbers (v.numbersDot ++ tail) v.chars := by
  obtain ⟨hplain, hsplit⟩ := split_numbersDot hp ht
  refine ⟨hplain, ?_⟩
  simp only [numbers, major, minor, micro, split, hsplit]
  rfl

theorem toOsgi_of_qualified (hq : v.qualifier ≠ []) :
    v.toOsgi = v.numbersDot ++ osgiQualifier v.qualifier := by
  rw [toOsgi, if_neg hq]
  simp [numbersDot, dotted]

/-- Where a number is written and no qualifier, the OSGi form is the numbers that are written. -/
theorem split_toOsgi_of_unqualified (hp : PlainDigits v.chars) (hq : v.qualifier = [])
    (hw : v.split.major ≠ none) :
    Plain v.toOsgi ∧ Split.of v.toOsgi = ⟨v.split.major, v.split.minor, v.split.micro, []⟩ := by
  obtain ⟨a, ha⟩ := Option.ne_none_iff_exists'.1 hw
  have hmajor := (numeric_split hp).major a ha
  obtain ⟨hparts, hminor, hmicro⟩ := parts_split hp
  have hlength := List.length_filterMap_le id [v.split.minor, v.split.micro]
  have hosgi : v.toOsgi = dotted (a :: [v.split.minor, v.split.micro].filterMap id) := by
    rw [toOsgi, if_pos hq, ha]
  rw [hosgi, ha]
  simp only [split] at *
  generalize [(Split.of v.chars).minor, (Split.of v.chars).micro].filterMap id = parts at *
  have hnumbers : ∀ part ∈ parts, isNumber part = true ∧ Plain part := fun part hpart =>
    ⟨(hparts part hpart).1, (hparts part hpart).plain hp⟩
  have hplain : Plain (dotted (a :: parts)) := by
    apply plain_dotted
    rw [List.forall_mem_cons]
    exact ⟨hmajor.plain hp, fun part hpart => (hnumbers part hpart).2⟩
  rw [split_of_plain hplain, scan_dotted_parts hmajor.1 hnumbers hlength, hminor, hmicro]
  exact ⟨hplain, rfl⟩

/-- The OSGi form is a version with the same numbers, if there is a number or a qualifier. -/
theorem sameNumbers_toOsgi_of_written (hp : PlainDigits v.chars)
    (hw : v.split.major = none → v.qualifier ≠ []) : SameNumbers v.toOsgi v.chars := by
  by_cases hq : v.qualifier = []
  · obtain ⟨hplain, hsplit⟩ := split_toOsgi_of_unqualified hp hq fun hnone => hw hnone hq
    refine ⟨hplain, ?_⟩
    simp only [numbers, major, minor, micro, split, hsplit]
  · rw [toOsgi_of_qualified hq]
    exact sameNumbers_numbersDot hp (plain_osgiQualifier _)

theorem sameNumbers_toOsgi (hp : Plain v.chars) : SameNumbers v.toOsgi v.chars := by
  by_cases hw : v.split.major = none ∧ v.qualifier = []
  · have hosgi : v.toOsgi = v.chars := by rw [toOsgi, if_pos hw.2, hw.1]
    rw [hosgi]
    exact .refl hp
  · exact sameNumbers_toOsgi_of_written hp.digits fun hnone hq => hw ⟨hnone, hq⟩

end Osgi

end Realign.Version
