import Mathlib.Data.List.DropRight
import Realign.Text.Cut

/-!
Cuts of a text that goes on, and texts that are trimmed already. A cut at the first separator or
word stays where it is when more text follows, and a piece without the separator is what stands
before the first one. A text is trimmed if it neither begins nor ends with a blank, so
whatever stands between two trimmed texts, all of it together is trimmed.
-/
namespace Realign.Text

section Cut

theorem hasWord_eq_true_iff {word text : List Char} :
    hasWord word text = true ↔ word <:+: text := by
  constructor
  · intro h
    obtain ⟨⟨before, after⟩, hc⟩ := Option.isSome_iff_exists.1 h
    exact ⟨before, after, by rw [cutAtWord_eq_some hc, List.append_assoc]⟩
  · intro hex
    obtain ⟨before, after, rfl⟩ := hex
    induction before with
    | nil =>
      cases hw : word ++ after with
      | nil =>
        obtain ⟨rfl, rfl⟩ := List.append_eq_nil_iff.1 hw
        rfl
      | cons c rest =>
        have hs : strip? word (c :: rest) = some after := strip?_eq_some.2 hw.symm
        simp [hasWord, cutAtWord, hw, hs]
    | cons c before ih =>
      simp only [hasWord, List.cons_append, List.append_assoc] at ih ⊢
      rw [cutAtWord]
      split
      · rfl
      · simpa using ih

theorem cutAt_append {sep : Char} {text before after : List Char}
    (h : cutAt sep text = some (before, after)) (more : List Char) :
    cutAt sep (text ++ more) = some (before, after ++ more) := by
  induction text generalizing before with
  | nil => cases h
  | cons c rest ih =>
    rw [List.cons_append]
    simp only [cutAt] at h ⊢
    split at h
    · rename_i hc
      simp only [Option.some.injEq, Prod.mk.injEq] at h
      obtain ⟨rfl, rfl⟩ := h
      rw [if_pos hc]
    · rename_i hc
      obtain ⟨⟨b, a⟩, hcut, hb⟩ := Option.map_eq_some_iff.1 h
      simp only [Prod.mk.injEq] at hb
      obtain ⟨rfl, rfl⟩ := hb
      rw [if_neg hc, ih hcut]
      rfl

/-- The first occurrence stays the first when more text follows. -/
theorem cutAtWord_append {word text before after : List Char}
    (h : cutAtWord word text = some (before, after)) (more : List Char) :
    cutAtWord word (text ++ more) = some (before, after ++ more) := by
  induction text generalizing before with
  | nil =>
    by_cases hw : word = []
    · simp only [cutAtWord, hw, if_true, Option.some.injEq, Prod.mk.injEq] at h
      obtain ⟨rfl, rfl⟩ := h
      cases more <;> simp [cutAtWord, hw, strip?]
    · simp [cutAtWord, hw] at h
  | cons c rest ih =>
    rw [List.cons_append]
    simp only [cutAtWord] at h ⊢
    cases hs : strip? word (c :: rest) with
    | some found =>
      rw [hs] at h
      simp only [Option.some.injEq, Prod.mk.injEq] at h
      obtain ⟨rfl, rfl⟩ := h
      have hs' : strip? word (c :: (rest ++ more)) = some (found ++ more) := by
        rw [strip?_eq_some] at hs ⊢
        rw [← List.cons_append, hs, List.append_assoc]
      rw [hs']
    | none =>
      rw [hs] at h
      obtain ⟨⟨b, a⟩, hcut, hb⟩ := Option.map_eq_some_iff.1 h
      simp only [Prod.mk.injEq] at hb
      obtain ⟨rfl, rfl⟩ := hb
      have hlen : word.length ≤ (c :: rest).length := by
        rw [cutAtWord_eq_some hcut]
        simp only [List.length_cons, List.length_append]
        omega
      cases hs' : strip? word (c :: (rest ++ more)) with
      | none => rw [ih hcut]; rfl
      | some found =>
        have hword : word <+: c :: rest ++ more := ⟨found, (strip?_eq_some.1 hs').symm⟩
        obtain ⟨tail, ht⟩ := List.prefix_of_prefix_length_le hword (List.prefix_append _ _) hlen
        rw [strip?_eq_some.2 ht.symm] at hs
        cases hs

theorem cutAtWord_self_append {word : List Char} (hw : word ≠ []) (after : List Char) :
    cutAtWord word (word ++ after) = some ([], after) := by
  obtain ⟨c, rest, rfl⟩ := List.exists_cons_of_ne_nil hw
  have hs : strip? (c :: rest) (c :: (rest ++ after)) = some after :=
    strip?_eq_some.2 (List.cons_append ..).symm
  rw [List.cons_append, cutAtWord, hs]

theorem cutAt_append_cons {sep : Char} {before : List Char} (h : sep ∉ before)
    (after : List Char) : cutAt sep (before ++ sep :: after) = some (before, after) := by
  induction before with
  | nil => simp [cutAt]
  | cons c before ih =>
    rw [List.mem_cons, not_or] at h
    rw [List.cons_append, cutAt, if_neg (Ne.symm h.1), ih h.2]
    rfl

theorem hasWord_append_right {word right : List Char} (left : List Char)
    (h : hasWord word right = true) : hasWord word (left ++ right) = true :=
  hasWord_eq_true_iff.2 ((hasWord_eq_true_iff.1 h).trans (List.suffix_append left right).isInfix)

end Cut

section Trim

variable {text left right : List Char} {p : Char → Bool}

theorem isPrefix_dropEndWhile (p : Char → Bool) (text : List Char) : dropEndWhile p text <+: text :=
  List.rdropWhile_prefix p text

theorem isInfix_trim (text : List Char) : trim text <:+: text :=
  (isPrefix_dropEndWhile isBlank _).isInfix.trans (List.dropWhile_suffix isBlank).isInfix

/-- What begins and ends without a blank is trimmed already. -/
theorem trim_trim (text : List Char) : trim (trim text) = trim text := by
  have hhead : (trim text).dropWhile isBlank = trim text := by
    cases ht : trim text with
    | nil => rfl
    | cons c rest =>
      have hprefix := isPrefix_dropEndWhile isBlank (text.dropWhile isBlank)
      rw [← trim, ht] at hprefix
      obtain ⟨more, hmore⟩ := hprefix
      have hc := List.head?_dropWhile_not isBlank text
      rw [← hmore] at hc
      rw [List.dropWhile_cons_of_neg]
      simpa using hc
  rw [trim, hhead, trim, dropEndWhile, dropEndWhile, List.reverse_reverse,
    List.dropWhile_idempotent]

theorem dropWhile_eq_self_iff : text.dropWhile p = text ↔ ∀ c ∈ text.head?, p c = false := by
  cases text with
  | nil => simp
  | cons c rest =>
    by_cases hc : p c = true
    · have hne : rest.dropWhile p ≠ c :: rest := by
        intro heq
        have hle := (List.dropWhile_suffix (l := rest) p).length_le
        rw [heq, List.length_cons] at hle
        omega
      simp [hc, hne]
    · simp [hc]

/-- A run is read to its end, where something else follows. -/
theorem takeWhile_append_of_head {run rest : List Char} (hrun : ∀ c ∈ run, p c = true)
    (hrest : ∀ c ∈ rest.head?, p c = false) : (run ++ rest).takeWhile p = run := by
  have hstop : rest.takeWhile p = [] := by
    cases rest with
    | nil => rfl
    | cons c rest => simp [hrest c rfl]
  rw [List.takeWhile_append_of_pos hrun, hstop, List.append_nil]

theorem dropWhile_append_of_head {run rest : List Char} (hrun : ∀ c ∈ run, p c = true)
    (hrest : ∀ c ∈ rest.head?, p c = false) : (run ++ rest).dropWhile p = rest := by
  rw [List.dropWhile_append_of_pos hrun, dropWhile_eq_self_iff.2 hrest]

theorem dropEndWhile_eq_self_iff :
    dropEndWhile p text = text ↔ ∀ c ∈ text.getLast?, p c = false := by
  rw [dropEndWhile, List.reverse_eq_iff, dropWhile_eq_self_iff, List.head?_reverse]

theorem trim_eq_self_iff :
    trim text = text ↔
      (∀ c ∈ text.head?, isBlank c = false) ∧ ∀ c ∈ text.getLast?, isBlank c = false := by
  rw [← dropWhile_eq_self_iff, ← dropEndWhile_eq_self_iff]
  constructor
  · intro h
    have hfront : text.dropWhile isBlank = text := by
      apply (List.dropWhile_suffix isBlank).eq_of_length_le
      have hle := (isPrefix_dropEndWhile isBlank (text.dropWhile isBlank)).length_le
      rwa [← trim, h] at hle
    rw [trim, hfront] at h
    exact ⟨hfront, h⟩
  · rintro ⟨hfront, hback⟩
    rw [trim, hfront, hback]

theorem not_isBlankText_of_trim (h : trim text = text) (hne : text ≠ []) :
    isBlankText text = false := by
  cases text with
  | nil => exact absurd rfl hne
  | cons c rest =>
    have hc := (trim_eq_self_iff.1 h).1 c rfl
    simp [isBlankText, hc]

/-- Whatever stands between two trimmed texts, the whole is trimmed. -/
theorem trim_append (hl : trim left = left) (hr : trim right = right) (hleft : left ≠ [])
    (hright : right ≠ []) (between : List Char) :
    trim (left ++ (between ++ right)) = left ++ (between ++ right) := by
  rw [trim_eq_self_iff] at *
  rw [List.head?_append_of_ne_nil _ hleft, List.getLast?_append_of_ne_nil _ (by simp [hright]),
    List.getLast?_append_of_ne_nil _ hright]
  exact ⟨hl.1, hr.2⟩

end Trim

end Realign.Text
