import Realign.Text.Class

/-!
Cutting texts apart. A text is a list of characters here; each operation says
where the cut falls and loses nothing but the separator.
-/
namespace Realign.Text

/-- The text before the first `sep` and the text after it. -/
def cutAt (sep : Char) : List Char → Option (List Char × List Char)
  | [] => none
  | c :: rest =>
    if c = sep then some ([], rest)
    else (cutAt sep rest).map fun (before, after) => (c :: before, after)

/-- All pieces between the occurrences of `sep`; a text without one is a single piece. -/
def piecesAt (sep : Char) : List Char → List (List Char)
  | [] => [[]]
  | c :: rest =>
    if c = sep then [] :: piecesAt sep rest
    else match piecesAt sep rest with
      | [] => [[c]]
      | piece :: more => (c :: piece) :: more

/-- What follows `word` in a text that starts with it. -/
def strip? : List Char → List Char → Option (List Char)
  | [], text => some text
  | _ :: _, [] => none
  | w :: word, c :: text => if w = c then strip? word text else none

/-- What stands before `word` in a text that ends with it. -/
def stripEnd? (word text : List Char) : Option (List Char) :=
  (strip? word.reverse text.reverse).map List.reverse

/-- The text before the first occurrence of `word` and the text after it. -/
def cutAtWord (word : List Char) : List Char → Option (List Char × List Char)
  | [] => if word = [] then some ([], []) else none
  | c :: rest =>
    match strip? word (c :: rest) with
    | some after => some ([], after)
    | none => (cutAtWord word rest).map fun (before, after) => (c :: before, after)

def hasWord (word text : List Char) : Bool := (cutAtWord word text).isSome

def dropEndWhile (p : Char → Bool) (text : List Char) : List Char :=
  (text.reverse.dropWhile p).reverse

def trim (text : List Char) : List Char := dropEndWhile isBlank (text.dropWhile isBlank)

def isBlankText (text : List Char) : Bool := text.all isBlank

/-- ASCII letters in lower case, all other characters as they are. -/
def lower (text : List Char) : List Char := text.map Char.toLower

/-- How many bytes the text takes in UTF-8. -/
def byteLength (text : List Char) : Nat := text.foldl (fun n c => n + c.utf8Size) 0

theorem cutAt_eq_some {sep : Char} {text before after : List Char}
    (h : cutAt sep text = some (before, after)) :
    text = before ++ sep :: after ∧ sep ∉ before := by
  induction text generalizing before with
  | nil => simp [cutAt] at h
  | cons c rest ih =>
    by_cases hc : c = sep
    · simp [cutAt, hc] at h
      simp [h.1, h.2, hc]
    · simp only [cutAt, hc, if_false, Option.map_eq_some_iff, Prod.mk.injEq, Prod.exists] at h
      obtain ⟨b, a, hcut, rfl, rfl⟩ := h
      obtain ⟨hrest, hmem⟩ := ih hcut
      exact ⟨by simp [hrest], by simp [hmem, Ne.symm hc]⟩

theorem cutAt_eq_none {sep : Char} {text : List Char} :
    cutAt sep text = none ↔ sep ∉ text := by
  induction text with
  | nil => simp [cutAt]
  | cons c rest ih =>
    by_cases hc : c = sep
    · simp [cutAt, hc]
    · simp [cutAt, hc, ih, Ne.symm hc]

theorem strip?_eq_some {word text rest : List Char} :
    strip? word text = some rest ↔ text = word ++ rest := by
  induction word generalizing text with
  | nil => simp [strip?]
  | cons w word ih =>
    cases text with
    | nil => simp [strip?]
    | cons c text =>
      by_cases h : w = c
      · simp [strip?, h, ih]
      · simp [strip?, h, Ne.symm h]

theorem stripEnd?_eq_some {word text head : List Char} :
    stripEnd? word text = some head ↔ text = head ++ word := by
  simp only [stripEnd?, Option.map_eq_some_iff, strip?_eq_some]
  constructor
  · rintro ⟨rest, h, rfl⟩
    simpa using congrArg List.reverse h
  · rintro rfl
    exact ⟨head.reverse, by simp, by simp⟩

theorem cutAtWord_eq_some {word text before after : List Char}
    (h : cutAtWord word text = some (before, after)) : text = before ++ (word ++ after) := by
  induction text generalizing before with
  | nil =>
    by_cases hw : word = []
    · simp [cutAtWord, hw] at h
      simp [h.1, h.2, hw]
    · simp [cutAtWord, hw] at h
  | cons c rest ih =>
    simp only [cutAtWord] at h
    split at h
    · rename_i found hs
      simp only [Option.some.injEq, Prod.mk.injEq] at h
      obtain ⟨rfl, rfl⟩ := h
      simpa using strip?_eq_some.1 hs
    · simp only [Option.map_eq_some_iff, Prod.mk.injEq, Prod.exists] at h
      obtain ⟨b, a, hcut, rfl, rfl⟩ := h
      simp [ih hcut]

theorem piecesAt_ne_nil (sep : Char) (text : List Char) : piecesAt sep text ≠ [] := by
  induction text with
  | nil => simp [piecesAt]
  | cons c rest ih =>
    simp only [piecesAt]
    split
    · simp
    · split <;> simp

/-- Nothing is lost between the pieces but the separators. -/
theorem intercalate_piecesAt (sep : Char) (text : List Char) :
    [sep].intercalate (piecesAt sep text) = text := by
  induction text with
  | nil => rfl
  | cons c rest ih =>
    obtain ⟨piece, more, hp⟩ := List.exists_cons_of_ne_nil (piecesAt_ne_nil sep rest)
    rw [hp] at ih
    by_cases hc : c = sep
    · simp [piecesAt, hc, hp, List.intercalate_cons_cons, ih]
    · cases more <;> simp_all [piecesAt, List.intercalate_cons_cons]

theorem piecesAt_of_not_mem {sep : Char} {text : List Char} (h : sep ∉ text) :
    piecesAt sep text = [text] := by
  induction text with
  | nil => rfl
  | cons c rest ih =>
    rw [List.mem_cons, not_or] at h
    rw [piecesAt, if_neg (Ne.symm h.1), ih h.2]

theorem piecesAt_append {sep : Char} {piece : List Char} (h : sep ∉ piece) (rest : List Char) :
    piecesAt sep (piece ++ sep :: rest) = piece :: piecesAt sep rest := by
  induction piece with
  | nil => rw [List.nil_append, piecesAt, if_pos rfl]
  | cons c piece ih =>
    rw [List.mem_cons, not_or] at h
    rw [List.cons_append, piecesAt, if_neg (Ne.symm h.1), ih h.2]

/-- Pieces without a separator in them are found again. -/
theorem piecesAt_intercalate {sep : Char} {pieces : List (List Char)} (hne : pieces ≠ [])
    (h : ∀ piece ∈ pieces, sep ∉ piece) : piecesAt sep ([sep].intercalate pieces) = pieces := by
  induction pieces with
  | nil => exact absurd rfl hne
  | cons piece pieces ih =>
    rw [List.forall_mem_cons] at h
    cases pieces with
    | nil => rw [List.intercalate_singleton, piecesAt_of_not_mem h.1]
    | cons next pieces =>
      rw [List.intercalate_cons_cons, List.append_assoc, List.singleton_append,
        piecesAt_append h.1, ih (by simp) h.2]

theorem not_mem_of_mem_piecesAt {sep : Char} {text piece : List Char}
    (h : piece ∈ piecesAt sep text) : sep ∉ piece := by
  induction text generalizing piece with
  | nil => simp_all [piecesAt]
  | cons c rest ih =>
    obtain ⟨first, more, hp⟩ := List.exists_cons_of_ne_nil (piecesAt_ne_nil sep rest)
    rw [hp] at ih
    by_cases hc : c = sep
    · simp only [piecesAt, hc, if_true, hp, List.mem_cons] at h
      rcases h with rfl | h
      · simp
      · exact ih (List.mem_cons.2 h)
    · simp only [piecesAt, hc, if_false, hp, List.mem_cons] at h
      rcases h with rfl | h
      · have hf := ih (List.mem_cons_self ..)
        simp [hf, Ne.symm hc]
      · exact ih (List.mem_cons_of_mem first h)

end Realign.Text
