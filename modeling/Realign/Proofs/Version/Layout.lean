import Mathlib.Data.Option.Basic
import Realign.Proofs.Version.Suffix

/-!
How a version text falls apart, whatever digits it is written in. A decimal digit outside ASCII is
a separator too, so runs of digits and of separators may overlap, and what is read is not always
the greedy way. Still, no letter stands before the rest, text without digits at the end only
lengthens the rest, and one more digit at the end goes to what was read last.
-/
namespace Realign.Version

open Text

section Relating

/-- Splits in the place of each other, where the first relation is for the rest alone and the others
are for what starts with the third, the second or the first number. -/
structure Alike (R : Nat → Split → Split → Prop) (w w' : Ways) : Prop where
  rest : Option.Rel (R 0) w.rest w'.rest
  micro : Option.Rel (R 1) w.micro w'.micro
  beforeMicro : Option.Rel (R 1) w.beforeMicro w'.beforeMicro
  minor : Option.Rel (R 2) w.minor w'.minor
  beforeMinor : Option.Rel (R 2) w.beforeMinor w'.beforeMinor
  major : Option.Rel (R 3) w.major w'.major

/-- Relations that are kept when a character is put before what was read. -/
structure Keeps (R : Nat → Split → Split → Prop) : Prop where
  mono : ∀ {k l s s'}, k ≤ l → R k s s' → R l s s'
  micro : ∀ c s s', R 1 s s' → R 1 (s.toMicro c) (s'.toMicro c)
  minor : ∀ c s s', R 2 s s' → R 2 (s.toMinor c) (s'.toMinor c)
  major : ∀ c s s', R 3 s s' → R 3 (s.toMajor c) (s'.toMajor c)

variable {R : Nat → Split → Split → Prop} {Q : Split → Split → Prop} {a a' b b' : Option Split}
  {w w' : Ways} {tail tail' : List Char}

theorem rel_mono {Q' : Split → Split → Prop} (hQ : ∀ s s', Q s s' → Q' s s')
    (h : Option.Rel Q a a') : Option.Rel Q' a a' := by
  cases h with
  | some h => exact .some (hQ _ _ h)
  | none => exact .none

theorem rel_orElse (ha : Option.Rel Q a a') (hb : Option.Rel Q b b') :
    Option.Rel Q (a <|> b) (a' <|> b') := by
  cases ha with
  | some h => exact .some h
  | none => exact hb

theorem rel_run (p : Char → Bool) (c : Char) (ha : Option.Rel Q a a') (hb : Option.Rel Q b b') :
    Option.Rel Q (Ways.run p c a b) (Ways.run p c a' b') := by
  unfold Ways.run
  split
  · exact rel_orElse ha hb
  · exact .none

theorem rel_map {g : Split → Split} (hg : ∀ s s', Q s s' → Q (g s) (g s'))
    (h : Option.Rel Q a a') : Option.Rel Q (a.map g) (a'.map g) := by
  cases h with
  | some h => exact .some (hg _ _ h)
  | none => exact .none

theorem Alike.before (hR : Keeps R) (h : Alike R w w') (c : Char)
    (hrest : Option.Rel (R 0) (w.before c).rest (w'.before c).rest) :
    Alike R (w.before c) (w'.before c) where
  rest := hrest
  micro := by
    have hbehind := rel_mono (fun _ _ => hR.mono (by omega : 0 ≤ 1)) h.rest
    exact rel_map (hR.micro c) (rel_run isDecimal c h.micro hbehind)
  beforeMicro := rel_run isSeparator c h.beforeMicro h.micro
  minor := by
    have hnext := rel_mono (fun _ _ => hR.mono (by omega : 1 ≤ 2)) h.beforeMicro
    have hrest := rel_mono (fun _ _ => hR.mono (by omega : 0 ≤ 2)) h.rest
    exact rel_map (hR.minor c) (rel_run isDecimal c h.minor (rel_orElse hnext hrest))
  beforeMinor := rel_run isSeparator c h.beforeMinor h.minor
  major := by
    have hnext := rel_mono (fun _ _ => hR.mono (by omega : 2 ≤ 3)) h.beforeMinor
    have hrest := rel_mono (fun _ _ => hR.mono (by omega : 0 ≤ 3)) h.rest
    exact rel_map (hR.major c) (rel_run isDecimal c h.major (rel_orElse hnext hrest))

/-- What two ends of a text have in common is kept by all the text before them. -/
theorem alike_append (hR : Keeps R) (h : Alike R (Ways.of tail) (Ways.of tail'))
    (hrest : ∀ head, Option.Rel (R 0) (Ways.of (head ++ tail)).rest (Ways.of (head ++ tail')).rest)
    (head : List Char) : Alike R (Ways.of (head ++ tail)) (Ways.of (head ++ tail')) := by
  induction head with
  | nil => exact h
  | cons c head ih => exact ih.before hR c (hrest (c :: head))

/-- Splits in the place of each other, if the texts fall apart at all, and the texts themselves. -/
theorem rel_split (h : Alike R (Ways.of tail) (Ways.of tail'))
    (hwhole : R 3 { rest := tail } { rest := tail' }) : R 3 (Split.of tail) (Split.of tail') := by
  have hmajor := h.major
  unfold Split.of
  cases hw : (Ways.of tail).major with
  | none =>
    rw [hw] at hmajor
    cases hw' : (Ways.of tail').major with
    | none => exact hwhole
    | some s' =>
      rw [hw'] at hmajor
      cases hmajor
  | some s =>
    rw [hw] at hmajor
    cases hw' : (Ways.of tail').major with
    | none =>
      rw [hw'] at hmajor
      cases hmajor
    | some s' =>
      rw [hw'] at hmajor
      cases hmajor with
      | some hs => exact hs

end Relating

section Append

variable {head tail : List Char} {f : Char}

/-- Text without digits is all rest, if it is one line. -/
theorem of_digitless (h : ∀ c ∈ tail, isDecimal c = false) :
    Ways.of tail = { rest := if '\n' ∈ tail then none else some { rest := tail } } := by
  induction tail with
  | nil => rfl
  | cons c tail ih =>
    rw [List.forall_mem_cons] at h
    have hrest := Ways.rest_of (c :: tail)
    rw [Ways.of_cons, ih h.2] at hrest ⊢
    rw [← hrest]
    simp [Ways.before, Ways.run, h.1]

/-- Text without digits at the end only lengthens the rest. -/
theorem split_append (h : ∀ c ∈ tail, isDecimal c = false) (hline : '\n' ∉ tail)
    (head : List Char) : Split.of (head ++ tail) = more tail (Split.of head) := by
  have hR : Keeps fun _ s s' => s' = more tail s :=
    ⟨fun _ h => h, fun _ _ _ h => by rw [h]; rfl, fun _ _ _ h => by rw [h]; rfl,
      fun _ _ _ h => by rw [h]; rfl⟩
  have hstart : Alike (fun _ s s' => s' = more tail s) (Ways.of []) (Ways.of tail) := by
    rw [of_digitless h, if_neg hline]
    exact ⟨.some rfl, .none, .none, .none, .none, .none⟩
  have hrest (head : List Char) : Option.Rel (fun s s' => s' = more tail s)
      (Ways.of (head ++ [])).rest (Ways.of (head ++ tail)).rest := by
    rw [Ways.rest_of, Ways.rest_of, List.append_nil]
    by_cases hhead : '\n' ∈ head
    · rw [if_pos hhead, if_pos (List.mem_append_left _ hhead)]
      exact .none
    · rw [if_neg hhead, if_neg (by simp [hhead, hline])]
      exact .some rfl
  have halike := alike_append hR hstart hrest head
  rw [List.append_nil] at halike
  exact rel_split halike rfl

/-- Before a line without digits nothing is acceptable. -/
theorem split_append_of_line (h : ∀ c ∈ tail, isDecimal c = false) (hline : '\n' ∈ tail)
    (head : List Char) : Split.of (head ++ tail) = { rest := head ++ tail } := by
  have hnone : Ways.of (head ++ tail) = ⟨none, none, none, none, none, none⟩ := by
    induction head with
    | nil =>
      rw [List.nil_append, of_digitless h, if_pos hline]
    | cons c head ih =>
      rw [List.cons_append, Ways.of_cons, ih]
      simp [Ways.before, Ways.run, Ways.afterMinor, Ways.afterMajor]
  rw [Split.of, hnone]
  rfl

/-- One more character at the end of what was read last. -/
def close (f : Char) (s : Split) : Split :=
  if s.rest ≠ [] then { s with rest := s.rest ++ [f] }
  else match s.micro, s.minor, s.major with
  | some micro, _, _ => { s with micro := some (micro ++ [f]) }
  | none, some minor, _ => { s with minor := some (minor ++ [f]) }
  | none, none, some major => { s with major := some (major ++ [f]) }
  | none, none, none => { s with rest := [f] }

section Close

variable {s : Split}

theorem close_micro (f : Char) (h : s.rest = []) :
    (close f s).micro = s.micro.map (· ++ [f]) := by
  rw [close, if_neg (not_not.2 h)]
  split <;> simp_all

theorem close_minor (f : Char) (h : s.rest = []) :
    (close f s).minor = if s.micro = none then s.minor.map (· ++ [f]) else s.minor := by
  rw [close, if_neg (not_not.2 h)]
  split <;> simp_all

theorem close_major (f : Char) (h : s.rest = []) :
    (close f s).major =
      if s.micro = none ∧ s.minor = none then s.major.map (· ++ [f]) else s.major := by
  rw [close, if_neg (not_not.2 h)]
  split <;> simp_all

end Close

/-- A split that something was read for, with no number before the third, the second or the
first one, closed by one more character. -/
structure Closing (f : Char) (k : Nat) (s s' : Split) : Prop where
  major : k < 3 → s.major = none
  minor : k < 2 → s.minor = none
  micro : k < 1 → s.micro = none
  some : s.rest ≠ [] ∨ s.micro ≠ none ∨ s.minor ≠ none ∨ s.major ≠ none
  close : s' = close f s

theorem keeps_closing (f : Char) : Keeps (Closing f) := by
  constructor
  · intro k l s s' hkl h
    exact ⟨fun hl => h.major (by omega), fun hl => h.minor (by omega), fun hl => h.micro (by omega),
      h.some, h.close⟩
  all_goals
    rintro c ⟨major, minor, micro, rest⟩ s' h
    have hmajor := h.major
    have hminor := h.minor
    have hsome := h.some
    refine ⟨by simp_all [Split.toMicro, Split.toMinor, Split.toMajor],
      by simp_all [Split.toMicro, Split.toMinor, Split.toMajor], by simp,
      by simp [Split.toMicro, Split.toMinor, Split.toMajor], ?_⟩
    rw [h.close]
    cases rest <;> cases micro <;> cases minor <;> cases major <;>
      simp_all [Version.close, Split.toMicro, Split.toMinor, Split.toMajor]

/-- A digit at the end of a text goes to what was read last, behind an ASCII digit. -/
theorem split_close {e : Char} (he : isDecimal e = true) (hsep : isSeparator e = false)
    (hf : isDecimal f = true) (hfsep : isSeparator f = true) (hlines : e ≠ '\n' ∧ f ≠ '\n')
    (head : List Char) :
    Split.of (head ++ [e] ++ [f]) = close f (Split.of (head ++ [e])) := by
  have hone : Ways.of [e] =
      ⟨some { rest := [e] }, some { micro := some [e] }, none, some { minor := some [e] }, none,
        some { major := some [e] }⟩ := by
    simp [Ways.before, Ways.run, Ways.afterMinor, Ways.afterMajor, Split.toRest, Split.toMicro,
      Split.toMinor, Split.toMajor, he, hsep, hlines]
  have htwo : Ways.of [e, f] =
      ⟨some { rest := [e, f] }, some { micro := some [e, f] }, none, some { minor := some [e, f] },
        none, some { major := some [e, f] }⟩ := by
    simp [Ways.before, Ways.run, Ways.afterMinor, Ways.afterMajor, Split.toRest, Split.toMicro,
      Split.toMinor, Split.toMajor, he, hsep, hf, hfsep, hlines]
  have hstart : Alike (Closing f) (Ways.of [e]) (Ways.of [e, f]) := by
    rw [hone, htwo]
    refine ⟨.some ?_, .some ?_, .none, .some ?_, .none, .some ?_⟩
    all_goals constructor <;> simp [close]
  have hrest (head : List Char) : Option.Rel (Closing f 0) (Ways.of (head ++ [e])).rest
      (Ways.of (head ++ [e, f])).rest := by
    rw [Ways.rest_of, Ways.rest_of]
    by_cases hhead : '\n' ∈ head
    · rw [if_pos (List.mem_append_left _ hhead), if_pos (List.mem_append_left _ hhead)]
      exact .none
    · rw [if_neg (by simp [hhead, hlines.1.symm]),
        if_neg (by simp [hhead, hlines.1.symm, hlines.2.symm])]
      refine .some ?_
      constructor <;> simp [close]
  have hwhole : Closing f 3 { rest := head ++ [e] } { rest := head ++ [e, f] } := by
    constructor <;> simp [close]
  have hsplit := rel_split (alike_append (keeps_closing f) hstart hrest head) hwhole
  rw [List.append_assoc]
  exact hsplit.close

end Append

section Reading

variable {text digits tail : List Char} {s : Split} {c : Char} {p : Char → Bool}
  {longer behind : Option Split}

theorem orElse_eq_some (h : (longer <|> behind) = some s) : longer = some s ∨ behind = some s := by
  cases longer with
  | none => exact Or.inr h
  | some _ => exact Or.inl h

theorem run_eq_some (h : Ways.run p c longer behind = some s) :
    p c = true ∧ (longer = some s ∨ behind = some s) := by
  unfold Ways.run at h
  split at h
  · rename_i hc
    exact ⟨hc, orElse_eq_some h⟩
  · cases h

/-- What is read of a text: nothing but digits and separators before the rest, and numbers. -/
structure Reads (text : List Char) (s : Split) : Prop where
  front : ∃ front, text = front ++ s.rest ∧ ∀ c ∈ front, c.isAlpha = false
  major : ∀ digits, s.major = some digits → isNumber digits = true
  minor : ∀ digits, s.minor = some digits → isNumber digits = true
  micro : ∀ digits, s.micro = some digits → isNumber digits = true

theorem reads_rest (text : List Char) : Reads text { rest := text } :=
  ⟨⟨[], rfl, nofun⟩, nofun, nofun, nofun⟩

theorem isNumber_cons (hc : isDecimal c = true) {part : Option (List Char)}
    (h : ∀ digits, part = some digits → isNumber digits = true) :
    isNumber (c :: part.getD []) = true := by
  cases part with
  | none => simp [isNumber, hc]
  | some digits =>
    have hdigits := h digits rfl
    simp only [isNumber, Bool.and_eq_true] at hdigits
    simp [isNumber, hc, hdigits.2]

theorem not_isAlpha_of_isDecimal (h : isDecimal c = true) : c.isAlpha = false := by
  by_contra halpha
  rw [Bool.not_eq_false] at halpha
  rw [not_isDecimal_of_isAlpha halpha] at h
  cases h

theorem not_isAlpha_of_isSeparator (h : isSeparator c = true) : c.isAlpha = false := by
  by_contra halpha
  rw [Bool.not_eq_false] at halpha
  rw [not_isSeparator_of_isAlpha halpha] at h
  cases h

theorem Reads.cons (h : Reads text s) (hc : c.isAlpha = false) : Reads (c :: text) s := by
  obtain ⟨front, htext, hfront⟩ := h.front
  refine ⟨⟨c :: front, by rw [htext]; rfl, ?_⟩, h.major, h.minor, h.micro⟩
  rw [List.forall_mem_cons]
  exact ⟨hc, hfront⟩

theorem Reads.toMicro (h : Reads text s) (hc : isDecimal c = true) :
    Reads (c :: text) (s.toMicro c) :=
  { h.cons (not_isAlpha_of_isDecimal hc) with
    micro := fun _ hd => Option.some.inj hd ▸ isNumber_cons hc h.micro }

theorem Reads.toMinor (h : Reads text s) (hc : isDecimal c = true) :
    Reads (c :: text) (s.toMinor c) :=
  { h.cons (not_isAlpha_of_isDecimal hc) with
    minor := fun _ hd => Option.some.inj hd ▸ isNumber_cons hc h.minor }

theorem Reads.toMajor (h : Reads text s) (hc : isDecimal c = true) :
    Reads (c :: text) (s.toMajor c) :=
  { h.cons (not_isAlpha_of_isDecimal hc) with
    major := fun _ hd => Option.some.inj hd ▸ isNumber_cons hc h.major }

/-- A split that is reached from a place. -/
inductive Reached (w : Ways) (s : Split) : Prop
  | rest (h : w.rest = some s)
  | micro (h : w.micro = some s)
  | beforeMicro (h : w.beforeMicro = some s)
  | minor (h : w.minor = some s)
  | beforeMinor (h : w.beforeMinor = some s)
  | major (h : w.major = some s)

theorem reads_of_reached (h : Reached (Ways.of text) s) : Reads text s := by
  induction text generalizing s with
  | nil =>
    cases h with
    | rest h =>
      cases h
      exact reads_rest []
    | micro h | beforeMicro h | minor h | beforeMinor h | major h => cases h
  | cons c text ih =>
    cases h with
    | rest h =>
      rw [Ways.rest_of] at h
      split at h
      · cases h
      · cases h
        exact reads_rest _
    | micro h =>
      obtain ⟨s, hrun, rfl⟩ := Option.map_eq_some_iff.1 h
      obtain ⟨hc, h | h⟩ := run_eq_some hrun
      · exact (ih (.micro h)).toMicro hc
      · exact (ih (.rest h)).toMicro hc
    | beforeMicro h =>
      obtain ⟨hc, h | h⟩ := run_eq_some h
      · exact (ih (.beforeMicro h)).cons (not_isAlpha_of_isSeparator hc)
      · exact (ih (.micro h)).cons (not_isAlpha_of_isSeparator hc)
    | minor h =>
      obtain ⟨s, hrun, rfl⟩ := Option.map_eq_some_iff.1 h
      obtain ⟨hc, h | h⟩ := run_eq_some hrun
      · exact (ih (.minor h)).toMinor hc
      · rcases orElse_eq_some h with h | h
        · exact (ih (.beforeMicro h)).toMinor hc
        · exact (ih (.rest h)).toMinor hc
    | beforeMinor h =>
      obtain ⟨hc, h | h⟩ := run_eq_some h
      · exact (ih (.beforeMinor h)).cons (not_isAlpha_of_isSeparator hc)
      · exact (ih (.minor h)).cons (not_isAlpha_of_isSeparator hc)
    | major h =>
      obtain ⟨s, hrun, rfl⟩ := Option.map_eq_some_iff.1 h
      obtain ⟨hc, h | h⟩ := run_eq_some hrun
      · exact (ih (.major h)).toMajor hc
      · rcases orElse_eq_some h with h | h
        · exact (ih (.beforeMinor h)).toMajor hc
        · exact (ih (.rest h)).toMajor hc

/-- However a text falls apart, no letter stands before the rest, and the numbers are numbers. -/
theorem reads_split (text : List Char) : Reads text (Split.of text) := by
  unfold Split.of
  cases hm : (Ways.of text).major with
  | none => exact reads_rest text
  | some s => exact reads_of_reached (.major hm)

end Reading

end Realign.Version
