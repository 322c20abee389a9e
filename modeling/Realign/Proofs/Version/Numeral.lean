import Realign.Proofs.Version.Layout

/-!
Texts without letters that end in an ASCII digit, as the numbers of a version do when nothing stands
behind them. Separators are read up to an ASCII digit there, so every number behind separators
starts with one. Numbers that do are read off as they are written.
-/
namespace Realign.Version

open Text

section Numeral

/-- A text without letters that does not end in a separator. -/
structure Numeral (text : List Char) : Prop where
  letterless : ∀ c ∈ text, c.isAlpha = false
  closed : ∀ c ∈ text.getLast?, isSeparator c = false

/-- What is read does not start with a separator. -/
def Leads (part : Option (List Char)) : Prop :=
  ∀ digits, part = some digits → ∀ c ∈ digits.head?, isSeparator c = false

theorem leads_none : Leads none := nofun

variable {text rest : List Char} {c : Char} {s : Split}

theorem isDecimal_of_not_isSeparator (h : isSeparator c = false) (hc : c.isAlpha = false) :
    isDecimal c = true := by
  simp only [isSeparator, Char.isAlphanum, hc, Bool.false_or, Bool.not_eq_false'] at h
  exact isDecimal_of_isDigit h

theorem Numeral.tail (h : Numeral (c :: text)) : Numeral text := by
  refine ⟨fun d hd => h.letterless d (List.mem_cons_of_mem c hd), fun d hd => h.closed d ?_⟩
  cases text with
  | nil => cases hd
  | cons e text => rwa [List.getLast?_cons_cons]

theorem Numeral.suffix (h : Numeral text) (hr : rest <:+ text) : Numeral rest := by
  obtain ⟨front, rfl⟩ := hr
  induction front with
  | nil => exact h
  | cons c front ih => exact ih h.tail

theorem Numeral.isDecimal (h : Numeral (c :: text)) (hc : isSeparator c = false) :
    isDecimal c = true :=
  isDecimal_of_not_isSeparator hc (h.letterless c (List.mem_cons_self ..))

theorem isSome_orElse (longer behind : Option Split) :
    (longer <|> behind).isSome = (longer.isSome || behind.isSome) := by
  cases longer <;> rfl

theorem isSome_run (p : Char → Bool) (c : Char) (longer behind : Option Split) :
    (Ways.run p c longer behind).isSome = (p c && (longer.isSome || behind.isSome)) := by
  unfold Ways.run
  cases p c <;> cases longer <;> rfl

/-- Where a third number can be read a second one can. -/
theorem isSome_minor_of_micro (text : List Char) :
    ((Ways.of text).micro.isSome = true → (Ways.of text).minor.isSome = true) ∧
      ((Ways.of text).beforeMicro.isSome = true → (Ways.of text).beforeMinor.isSome = true) := by
  induction text with
  | nil => exact ⟨nofun, nofun⟩
  | cons c text ih =>
    simp only [Ways.of_cons, Ways.before, Ways.afterMinor, Option.isSome_map, isSome_run,
      isSome_orElse, Bool.and_eq_true, Bool.or_eq_true]
    exact ⟨fun h => ⟨h.1, h.2.imp ih.1 Or.inr⟩, fun h => ⟨h.1, h.2.imp ih.2 ih.1⟩⟩

/-- A numeral that is one line has a number to read, at its start or behind separators. -/
theorem Numeral.isSome_micro (h : Numeral text) (hne : text ≠ [])
    (hrest : (Ways.of text).rest.isSome = true) :
    (Ways.of text).micro.isSome = true ∨ (Ways.of text).beforeMicro.isSome = true := by
  induction text with
  | nil => exact absurd rfl hne
  | cons c text ih =>
    have htail : (Ways.of text).rest.isSome = true := by
      rw [Ways.of_cons, Ways.before] at hrest
      dsimp only at hrest
      split at hrest
      · cases hrest
      · rwa [Option.isSome_map] at hrest
    simp only [Ways.of_cons, Ways.before, Option.isSome_map, isSome_run, Bool.and_eq_true,
      Bool.or_eq_true]
    by_cases hc : isSeparator c = true
    · right
      have hnext : text ≠ [] := by
        rintro rfl
        rw [h.closed c rfl] at hc
        cases hc
      exact ⟨hc, (ih h.tail hnext htail).symm⟩
    · left
      rw [Bool.not_eq_true] at hc
      exact ⟨h.isDecimal hc, Or.inr htail⟩

/-- Separators are read up to an ASCII digit, if a number can be read wherever one can go on. -/
theorem Numeral.number_of_next (number next behind : List Char → Option Split)
    (add : Char → Split → Split) (hnumber : number [] = none) (hnext : next [] = none)
    (hnumber' : ∀ c text, number (c :: text) =
      (Ways.run Text.isDecimal c (number text) (behind text)).map (add c))
    (hnext' : ∀ c text, next (c :: text) = Ways.run isSeparator c (next text) (number text))
    (hbehind : ∀ text, Numeral text → text ≠ [] → (behind text).isSome = true →
      (number text).isSome = true ∨ (next text).isSome = true)
    (h : Numeral text) (hs : next text = some s) :
    ∃ d rest, d :: rest <:+ text ∧ isSeparator d = false ∧ number (d :: rest) = some s := by
  induction text with
  | nil =>
    rw [hnext] at hs
    cases hs
  | cons c text ih =>
    rw [hnext'] at hs
    cases hlonger : next text with
    | some s' =>
      rw [hlonger] at hs
      rw [Ways.run, if_pos (run_eq_some hs).1] at hs
      cases hs
      obtain ⟨d, rest, hsuffix, hd⟩ := ih h.tail hlonger
      exact ⟨d, rest, hsuffix.trans (List.suffix_cons c text), hd⟩
    | none =>
      rw [hlonger] at hs
      have hshort : number text = some s := (run_eq_some hs).2.resolve_left (by simp)
      cases text with
      | nil =>
        rw [hnumber] at hshort
        cases hshort
      | cons d rest =>
        refine ⟨d, rest, List.suffix_cons c _, ?_, hshort⟩
        by_contra hd
        rw [Bool.not_eq_false] at hd
        -- what is a separator and a digit could have been passed over as well
        have hpast : (number rest).isSome = false ∧ (next rest).isSome = false := by
          have hnone := congrArg Option.isSome hlonger
          rw [hnext', isSome_run, hd, Bool.true_and, Option.isSome_none,
            Bool.or_eq_false_iff] at hnone
          exact hnone.symm
        have hgo : (behind rest).isSome = true := by
          have hsome := congrArg Option.isSome hshort
          rw [hnumber', Option.isSome_map, isSome_run, hpast.1] at hsome
          simpa using (Bool.and_eq_true_iff.1 hsome).2
        have hne : rest ≠ [] := by
          rintro rfl
          rw [h.tail.closed d rfl] at hd
          cases hd
        rcases hbehind rest h.tail.tail hne hgo with hfound | hfound
        · rw [hpast.1] at hfound
          cases hfound
        · rw [hpast.2] at hfound
          cases hfound

/-- What holds of all that can be read behind a number holds of what is read with the number. -/
theorem number_keeps {P : Split → Prop} (number behind : List Char → Option Split)
    (add : Char → Split → Split) (hadd : ∀ c s, P s → P (add c s)) (hnumber : number [] = none)
    (hnumber' : ∀ c text, number (c :: text) =
      (Ways.run Text.isDecimal c (number text) (behind text)).map (add c))
    (hbehind : ∀ rest, rest <:+ text → ∀ s, behind rest = some s → P s)
    (hs : number text = some s) : P s := by
  induction text generalizing s with
  | nil =>
    rw [hnumber] at hs
    cases hs
  | cons c text ih =>
    rw [hnumber'] at hs
    obtain ⟨s, hrun, rfl⟩ := Option.map_eq_some_iff.1 hs
    apply hadd
    rcases (run_eq_some hrun).2 with hlonger | hshort
    · exact ih (fun rest hr => hbehind rest (hr.trans (List.suffix_cons c text))) hlonger
    · exact hbehind text (List.suffix_cons c text) s hshort

theorem eq_of_rest (h : (Ways.of text).rest = some s) : s = { rest := text } := by
  rw [Ways.rest_of] at h
  split at h
  · cases h
  · exact (Option.some.inj h).symm

namespace Numeral

theorem leads_beforeMicro (h : Numeral text) (hs : (Ways.of text).beforeMicro = some s) :
    Leads s.micro := by
  obtain ⟨d, rest, -, hd, hmicro⟩ := h.number_of_next (fun text => (Ways.of text).micro)
    (fun text => (Ways.of text).beforeMicro) (fun text => (Ways.of text).rest) Split.toMicro
    rfl rfl (fun _ _ => rfl) (fun _ _ => rfl) (fun _ => Numeral.isSome_micro) hs
  obtain ⟨s, -, rfl⟩ := Option.map_eq_some_iff.1 hmicro
  intro digits hdigits
  cases hdigits
  simpa using hd

theorem leads_afterMinor (h : Numeral text) (hs : (Ways.of text).afterMinor = some s) :
    Leads s.micro := by
  rcases orElse_eq_some hs with hs | hs
  · exact h.leads_beforeMicro hs
  · rw [eq_of_rest hs]
    exact leads_none

theorem leads_minor (h : Numeral text) (hs : (Ways.of text).minor = some s) : Leads s.micro :=
  number_keeps (P := fun s => Leads s.micro) (fun text => (Ways.of text).minor)
    (fun text => (Ways.of text).afterMinor) Split.toMinor (fun _ _ hs => hs) rfl (fun _ _ => rfl)
    (fun _ hr _ => (h.suffix hr).leads_afterMinor) hs

/-- A numeral on which one can go on has a second number to read. -/
theorem isSome_minor (h : Numeral text) (hne : text ≠ [])
    (hs : (Ways.of text).afterMinor.isSome = true) :
    (Ways.of text).minor.isSome = true ∨ (Ways.of text).beforeMinor.isSome = true := by
  obtain ⟨hmicro, hnext⟩ := isSome_minor_of_micro text
  rw [Ways.afterMinor, isSome_orElse, Bool.or_eq_true] at hs
  rcases hs with hs | hs
  · exact Or.inr (hnext hs)
  · exact (h.isSome_micro hne hs).imp hmicro hnext

theorem leads_beforeMinor (h : Numeral text) (hs : (Ways.of text).beforeMinor = some s) :
    Leads s.minor ∧ Leads s.micro := by
  obtain ⟨d, rest, hrest, hd, hminor⟩ := h.number_of_next (fun text => (Ways.of text).minor)
    (fun text => (Ways.of text).beforeMinor) (fun text => (Ways.of text).afterMinor) Split.toMinor
    rfl rfl (fun _ _ => rfl) (fun _ _ => rfl) (fun _ => Numeral.isSome_minor) hs
  refine ⟨?_, (h.suffix hrest).leads_minor hminor⟩
  obtain ⟨s, -, rfl⟩ := Option.map_eq_some_iff.1 hminor
  intro digits hdigits
  cases hdigits
  simpa using hd

theorem leads_afterMajor (h : Numeral text) (hs : (Ways.of text).afterMajor = some s) :
    Leads s.minor ∧ Leads s.micro := by
  rcases orElse_eq_some hs with hs | hs
  · exact h.leads_beforeMinor hs
  · rw [eq_of_rest hs]
    exact ⟨leads_none, leads_none⟩

/-- The numbers behind the first one start with ASCII digits. -/
theorem leads_split (h : Numeral text) :
    Leads (Split.of text).minor ∧ Leads (Split.of text).micro := by
  unfold Split.of
  cases hm : (Ways.of text).major with
  | none => exact ⟨leads_none, leads_none⟩
  | some s =>
    exact number_keeps (P := fun s => Leads s.minor ∧ Leads s.micro)
      (fun text => (Ways.of text).major) (fun text => (Ways.of text).afterMajor) Split.toMajor
      (fun _ _ hs => hs) rfl (fun _ _ => rfl) (fun _ hr _ => (h.suffix hr).leads_afterMajor) hm

end Numeral

end Numeral

section Writing

variable {a b c digits tail : List Char}

/-- A number that starts with an ASCII digit. -/
structure Leading (digits : List Char) : Prop where
  number : isNumber digits = true
  leads : Leads (some digits)

/-- A number is read to the end of its digits if one can go on behind them. -/
theorem number_greedy (number behind : List Char → Option Split) {add : Char → Split → Split}
    {put : List Char → Split → Split} {s : Split} (hnumber : number [] = none)
    (hnumber' : ∀ c text, number (c :: text) =
      (Ways.run isDecimal c (number text) (behind text)).map (add c))
    (hone : ∀ c, add c s = put [c] s)
    (hmore : ∀ c digits, add c (put digits s) = put (c :: digits) s)
    (hd : isNumber digits = true) (ht : ∀ d ∈ tail.head?, isDecimal d = false)
    (hs : behind tail = some s) : number (digits ++ tail) = some (put digits s) := by
  obtain ⟨hne, hall⟩ := isNumber_iff.1 hd
  have hend : number tail = none := by
    cases tail with
    | nil => exact hnumber
    | cons d tail => rw [hnumber', Ways.run, ht d rfl, if_neg Bool.false_ne_true, Option.map_none]
  clear hd
  induction digits with
  | nil => exact absurd rfl hne
  | cons c digits ih =>
    rw [List.forall_mem_cons] at hall
    rw [List.cons_append, hnumber', Ways.run, if_pos hall.1]
    cases digits with
    | nil =>
      rw [List.nil_append, hend, hs, ← hone]
      rfl
    | cons d digits =>
      rw [ih (by simp) hall.2]
      exact congrArg some (hmore c (d :: digits))

/-- A number stands right behind a point if it starts with an ASCII digit. -/
theorem next_point (number next : List Char → Option Split)
    (hnext : ∀ c text, next (c :: text) = Ways.run isSeparator c (next text) (number text))
    (hd : Leading digits) : next ('.' :: (digits ++ tail)) = number (digits ++ tail) := by
  obtain ⟨d, rest, rfl⟩ := List.exists_cons_of_ne_nil (isNumber_iff.1 hd.number).1
  have hsep : isSeparator d = false := hd.leads _ rfl d rfl
  have hpoint : isSeparator '.' = true := by decide
  have hstop : next (d :: rest ++ tail) = none := by
    rw [List.cons_append, hnext, Ways.run, hsep]
    rfl
  rw [hnext, Ways.run, if_pos hpoint, hstop]
  rfl

/-- Numbers with points between them are read off as they are written, if those behind a point
start with ASCII digits. -/
theorem split_dotted (ha : isNumber a = true) (hb : Leading b) (hc : Leading c)
    (ht : ∀ d ∈ tail.head?, isDecimal d = false) (hline : '\n' ∉ tail) :
    Split.of (dotted [a, b, c] ++ tail) = ⟨some a, some b, some c, tail⟩ := by
  have hpoint (text : List Char) : ∀ d ∈ ('.' :: text).head?, isDecimal d = false := by
    intro d hd
    cases hd
    decide
  have htext : dotted [a, b, c] ++ tail = a ++ '.' :: (b ++ '.' :: (c ++ tail)) := by
    simp [dotted]
  have hrest : (Ways.of tail).rest = some { rest := tail } := by rw [Ways.rest_of, if_neg hline]
  have hmicro : (Ways.of (c ++ tail)).micro = some (putMicro c { rest := tail }) :=
    number_greedy (fun text => (Ways.of text).micro) (fun text => (Ways.of text).rest) rfl
      (fun _ _ => rfl) (fun _ => rfl) (fun _ _ => rfl) hc.number ht hrest
  have hafterMinor : (Ways.of ('.' :: (c ++ tail))).afterMinor =
      some (putMicro c { rest := tail }) := by
    rw [Ways.afterMinor, next_point (fun text => (Ways.of text).micro)
      (fun text => (Ways.of text).beforeMicro) (fun _ _ => rfl) hc, hmicro]
    rfl
  have hminor : (Ways.of (b ++ '.' :: (c ++ tail))).minor =
      some (putMinor b (putMicro c { rest := tail })) :=
    number_greedy (fun text => (Ways.of text).minor) (fun text => (Ways.of text).afterMinor) rfl
      (fun _ _ => rfl) (fun _ => rfl) (fun _ _ => rfl) hb.number (hpoint _) hafterMinor
  have hafterMajor : (Ways.of ('.' :: (b ++ '.' :: (c ++ tail)))).afterMajor =
      some (putMinor b (putMicro c { rest := tail })) := by
    rw [Ways.afterMajor, next_point (fun text => (Ways.of text).minor)
      (fun text => (Ways.of text).beforeMinor) (fun _ _ => rfl) hb, hminor]
    rfl
  have hmajor : (Ways.of (a ++ '.' :: (b ++ '.' :: (c ++ tail)))).major =
      some (putMajor a (putMinor b (putMicro c { rest := tail }))) :=
    number_greedy (fun text => (Ways.of text).major) (fun text => (Ways.of text).afterMajor) rfl
      (fun _ _ => rfl) (fun _ => rfl) (fun _ _ => rfl) ha (hpoint _) hafterMajor
  rw [htext, Split.of, hmajor]
  rfl

end Writing

end Realign.Version
