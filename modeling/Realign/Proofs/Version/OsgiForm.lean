import Realign.Proofs.Version.Suffix

/-!
The OSGi form of a version is a normal form. A text with a letter or a digit is either read for a
number or has a qualifier, so its form is numbers with points between them, or three numbers and a
qualifier that starts with a letter or a digit. Both are read off as they are written, and the
form of what is read is the same text. This holds of texts that span lines as well: where a line
ends in the qualifier no number is read, and the end of the line becomes a hyphen.
-/
namespace Realign.Version

open Text

variable {a b c text : List Char} {parts : List (List Char)} {v : Version}

section Valid

theorem point_not_mem_of_isNumber (h : isNumber text = true) : '.' ∉ text := by
  have hpoint : isDecimal '.' = false := by decide
  exact not_mem_of_isNumber h hpoint

theorem point_not_mem_osgiQualifier (text : List Char) : '.' ∉ osgiQualifier text := by
  have hpoint : isQualifierChar '.' = false := by decide
  intro hmem
  rw [isQualifierChar_of_mem_osgiQualifier _ hmem] at hpoint
  cases hpoint

/-- One, two or three numbers are a valid form. -/
theorem isOsgi_numbers (hne : parts ≠ []) (hlength : parts.length ≤ 3)
    (h : ∀ part ∈ parts, isNumber part = true) : isOsgi ⟨dotted parts⟩ = true := by
  have hpieces : piecesAt '.' (dotted parts) = parts :=
    piecesAt_intercalate hne fun part hpart => point_not_mem_of_isNumber (h part hpart)
  rw [isOsgi, hpieces]
  match parts with
  | [] => exact absurd rfl hne
  | [a] => simpa using h
  | [a, b] => simpa using h
  | [a, b, c] => simpa [and_assoc] using h
  | _ :: _ :: _ :: _ :: _ =>
    simp only [List.length_cons] at hlength
    omega

/-- Three numbers and a qualifier are a valid form. -/
theorem isOsgi_qualified (ha : isNumber a = true) (hb : isNumber b = true) (hc : isNumber c = true)
    (hne : text ≠ []) : isOsgi ⟨dotted [a, b, c, osgiQualifier text]⟩ = true := by
  have hpieces : piecesAt '.' (dotted [a, b, c, osgiQualifier text]) =
      [a, b, c, osgiQualifier text] := by
    apply piecesAt_intercalate (by simp)
    simp only [List.forall_mem_cons]
    exact ⟨point_not_mem_of_isNumber ha, point_not_mem_of_isNumber hb,
      point_not_mem_of_isNumber hc, point_not_mem_osgiQualifier text, nofun⟩
  have hqualifier : (osgiQualifier text).all isQualifierChar = true :=
    List.all_eq_true.2 isQualifierChar_of_mem_osgiQualifier
  have hnonempty : (osgiQualifier text).isEmpty = false := by
    simpa [osgiQualifier, List.isEmpty_eq_false_iff] using hne
  rw [isOsgi, hpieces]
  simp [ha, hb, hc, hqualifier, hnonempty]

theorem isOsgi_toOsgi (hp : PlainDigits v.chars) (hw : v.split.major = none → v.qualifier ≠ []) :
    isOsgi ⟨v.toOsgi⟩ = true := by
  by_cases hq : v.qualifier = []
  · obtain ⟨a, ha⟩ := Option.ne_none_iff_exists'.1 fun hnone => hw hnone hq
    have hosgi : v.toOsgi = dotted (a :: [v.split.minor, v.split.micro].filterMap id) := by
      rw [toOsgi, if_pos hq, ha]
    rw [hosgi]
    apply isOsgi_numbers (by simp)
    · exact Nat.succ_le_succ (List.length_filterMap_le id [v.split.minor, v.split.micro])
    · rw [List.forall_mem_cons]
      exact ⟨((numeric_split hp).major a ha).1, fun part hpart => ((parts_split hp).1 part hpart).1⟩
  · obtain ⟨hmajor, hminor, hmicro⟩ := isNumber_parts hp
    rw [toOsgi, if_neg hq]
    exact isOsgi_qualified hmajor.1 hminor.1 hmicro.1 hq

end Valid

section Stable

theorem osgiQualifier_osgiQualifier (text : List Char) :
    osgiQualifier (osgiQualifier text) = osgiQualifier text :=
  osgiQualifier_of_valid isQualifierChar_of_mem_osgiQualifier

/-- A qualifier starts with a letter or a digit, which OSGi keeps. -/
theorem dropWhile_osgiQualifier (v : Version) :
    (osgiQualifier v.qualifier).dropWhile isSeparator = osgiQualifier v.qualifier := by
  cases hq : v.qualifier with
  | nil => rfl
  | cons c rest =>
    have hc : isSeparator c = false := by
      have hhead := List.head?_dropWhile_not isSeparator v.split.rest
      have hdrop : v.split.rest.dropWhile isSeparator = c :: rest := hq
      rw [hdrop] at hhead
      simpa using hhead
    have hkept : isQualifierChar c = true := by
      simp only [isSeparator, Bool.not_eq_false'] at hc
      simp [isQualifierChar, hc]
    rw [osgiQualifier, List.map_cons, if_pos hkept, List.dropWhile_cons, hc]
    rfl

theorem toOsgi_toOsgi (hp : PlainDigits v.chars) (hw : v.split.major = none → v.qualifier ≠ []) :
    toOsgi ⟨v.toOsgi⟩ = v.toOsgi := by
  -- Only a version without a qualifier leaves out the numbers that are not written.
  by_cases hq : v.qualifier = []
  · obtain ⟨-, hsplit⟩ := split_toOsgi_of_unqualified hp hq fun hnone => hw hnone hq
    have hempty : qualifier ⟨v.toOsgi⟩ = [] := by rw [qualifier, split, hsplit]; rfl
    obtain ⟨a, ha⟩ := Option.ne_none_iff_exists'.1 fun hnone => hw hnone hq
    conv_lhs => rw [toOsgi, if_pos hempty, split, hsplit, ha]
    conv_rhs => rw [toOsgi, if_pos hq, ha]
  · obtain ⟨-, hsplit⟩ := split_numbersDot hp (plain_osgiQualifier v.qualifier)
    rw [← toOsgi_of_qualified hq] at hsplit
    have hpoint : isSeparator '.' = true := by decide
    have hqualifier : qualifier ⟨v.toOsgi⟩ = osgiQualifier v.qualifier := by
      rw [qualifier, split, hsplit, List.dropWhile_cons, if_pos hpoint, dropWhile_osgiQualifier]
    have hne : osgiQualifier v.qualifier ≠ [] := by simpa [osgiQualifier] using hq
    conv_lhs =>
      rw [toOsgi, hqualifier, if_neg hne, osgiQualifier_osgiQualifier, major, minor, micro, split,
        hsplit]
    conv_rhs => rw [toOsgi, if_neg hq]
    rfl

end Stable

/-- A letter or a digit is in a number that is read or in the qualifier. -/
theorem qualifier_ne_nil_of_unread (h : ∃ c ∈ v.chars, c.isAlphanum = true)
    (hnone : v.split.major = none) : v.qualifier ≠ [] := by
  obtain ⟨c, hc, halphanum⟩ := h
  rw [qualifier, split, split_of_major hnone]
  intro hempty
  have hsep := List.dropWhile_eq_nil_iff.1 hempty c hc
  simp [isSeparator, halphanum] at hsep

/-- The OSGi form of a version text. -/
def osgi (raw : String) : String := String.ofList (ofString raw).toOsgi

/-- The OSGi form of a text with a letter or a digit, all of whose decimal digits are ASCII, is a
valid one, is its own OSGi form and has the same numbers. -/
theorem osgi_normal (raw : String) (hw : ∃ c ∈ raw.toList, c.isAlphanum = true)
    (hd : ∀ c ∈ raw.toList, isDecimal c = true → c.isDigit = true) :
    (ofString (osgi raw)).isOsgi = true ∧ osgi (osgi raw) = osgi raw ∧
      (ofString (osgi raw)).major = (ofString raw).major ∧
      (ofString (osgi raw)).minor = (ofString raw).minor ∧
      (ofString (osgi raw)).micro = (ofString raw).micro := by
  have hp : PlainDigits (ofString raw).chars := fun c hc hdecimal =>
    not_isSeparator_of_isDigit (hd c hc hdecimal)
  have hwritten := qualifier_ne_nil_of_unread (v := ofString raw) hw
  have hform : ofString (osgi raw) = ⟨(ofString raw).toOsgi⟩ := by
    rw [osgi, ofString, String.toList_ofList]
  have hnumbers := (sameNumbers_toOsgi_of_written hp hwritten).2
  simp only [numbers, Prod.mk.injEq] at hnumbers
  have hagain : osgi (osgi raw) = osgi raw := calc
    osgi (osgi raw) = String.ofList (toOsgi ⟨(ofString raw).toOsgi⟩) := by rw [← hform]; rfl
    _ = osgi raw := by rw [toOsgi_toOsgi hp hwritten]; rfl
  rw [hagain, hform]
  exact ⟨isOsgi_toOsgi hp hwritten, rfl, hnumbers⟩

/-- The end of the line keeps the numbers from being read, and becomes a hyphen. -/
theorem osgi_normal_two_lines :
    osgi "1.2.GA\nb" = "0.0.0.1-2-GA-b" ∧ (ofString "0.0.0.1-2-GA-b").isOsgi = true ∧
      osgi "0.0.0.1-2-GA-b" = "0.0.0.1-2-GA-b" := by
  have hform : osgi "1.2.GA\nb" = "0.0.0.1-2-GA-b" := by decide +kernel
  have hdigits : ("1.2.GA\nb".toList.all fun c => !isDecimal c || c.isDigit) = true := by
    decide +kernel
  have hnormal := osgi_normal "1.2.GA\nb" ⟨'1', by decide +kernel⟩ fun c hc hdecimal => by
    simpa [hdecimal] using List.all_eq_true.1 hdigits c hc
  rw [hform] at hnormal
  exact ⟨hform, hnormal.1, hnormal.2.1⟩

end Realign.Version
