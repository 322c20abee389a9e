import Mathlib.Order.Basic
import Mathlib.Data.Nat.Find
import Realign.Proofs.Text
import Realign.Property.Resolution

/-!
What a value resolves to, said without names that may or may not be entered. The pieces
of a value unfold one by one: a literal to itself, an unknown reference to its own
spelling, a known one to what its value unfolds to, and an open end to nothing.
Resolution finds exactly the unfoldings that there are. A name whose value is being
unfolded can be left out of the available ones, because a least deep unfolding of its
value does not go through the name again.
-/
namespace Realign

open Text

/-- A chain of two computations comes through if both do. -/
theorem exceptBind_eq_ok {x : Except ε α} {f : α → Except ε β} {b : β} :
    x >>= f = .ok b ↔ ∃ a, x = .ok a ∧ f a = .ok b := by
  cases x <;> simp [Bind.bind, Except.bind]

/-- What pieces unfold to when a reference stands for what its name is looked up to. -/
inductive Unfolds (look : String → Option String) : List Piece → List Char → Prop
  | nil : Unfolds look [] []
  | literal {text rest out} (h : Unfolds look rest out) :
      Unfolds look (.literal text :: rest) (text ++ out)
  | unknown {name rest out} (hn : look (String.ofList name) = none) (h : Unfolds look rest out) :
      Unfolds look (.reference name :: rest) (Placeholder.spellChars name ++ out)
  | known {name raw inner rest out} (hn : look (String.ofList name) = some raw)
      (hi : Unfolds look (Piece.ofText raw.toList) inner) (h : Unfolds look rest out) :
      Unfolds look (.reference name :: rest) (inner ++ out)

/-- Unfolding with a bound on how deep the references are nested. -/
inductive UnfoldsWithin (look : String → Option String) : Nat → List Piece → List Char → Prop
  | nil {n} : UnfoldsWithin look n [] []
  | literal {n text rest out} (h : UnfoldsWithin look n rest out) :
      UnfoldsWithin look n (.literal text :: rest) (text ++ out)
  | unknown {n name rest out} (hn : look (String.ofList name) = none)
      (h : UnfoldsWithin look n rest out) :
      UnfoldsWithin look n (.reference name :: rest) (Placeholder.spellChars name ++ out)
  | known {n name raw inner rest out} (hn : look (String.ofList name) = some raw)
      (hi : UnfoldsWithin look n (Piece.ofText raw.toList) inner)
      (h : UnfoldsWithin look (n + 1) rest out) :
      UnfoldsWithin look (n + 1) (.reference name :: rest) (inner ++ out)

namespace Unfolds

variable {look : String → Option String} {pieces : List Piece} {out out' : List Char}

theorem deterministic (h : Unfolds look pieces out) (h' : Unfolds look pieces out') :
    out = out' := by
  induction h generalizing out' with
  | nil =>
    cases h'
    rfl
  | literal _ ih =>
    cases h' with
    | literal h => rw [ih h]
  | unknown hn _ ih =>
    cases h' with
    | unknown _ h => rw [ih h]
    | known hk _ _ =>
      rw [hn] at hk
      cases hk
  | known hn _ _ ihi ih =>
    cases h' with
    | unknown hk _ =>
      rw [hn] at hk
      cases hk
    | known hk hi h =>
      rw [hn] at hk
      obtain rfl := Option.some.inj hk
      rw [ihi hi, ih h]

end Unfolds

namespace UnfoldsWithin

variable {look : String → Option String} {n m : Nat} {pieces : List Piece} {out : List Char}

theorem mono (h : UnfoldsWithin look n pieces out) (hnm : n ≤ m) :
    UnfoldsWithin look m pieces out := by
  induction h generalizing m with
  | nil => exact nil
  | literal _ ih => exact literal (ih hnm)
  | unknown hn _ ih => exact unknown hn (ih hnm)
  | known hn _ _ ihi ih =>
    obtain ⟨k, rfl⟩ := Nat.exists_eq_add_of_le hnm
    rw [Nat.add_right_comm] at hnm ⊢
    exact known hn (ihi (by omega)) (ih hnm)

theorem unfolds (h : UnfoldsWithin look n pieces out) : Unfolds look pieces out := by
  induction h with
  | nil => exact .nil
  | literal _ ih => exact .literal ih
  | unknown hn _ ih => exact .unknown hn ih
  | known hn _ _ ihi ih => exact .known hn ihi ih

end UnfoldsWithin

theorem Unfolds.exists_within {look : String → Option String} {pieces : List Piece}
    {out : List Char} (h : Unfolds look pieces out) : ∃ n, UnfoldsWithin look n pieces out := by
  induction h with
  | nil => exact ⟨0, .nil⟩
  | literal _ ih =>
    obtain ⟨n, hn⟩ := ih
    exact ⟨n, .literal hn⟩
  | unknown hk _ ih =>
    obtain ⟨n, hn⟩ := ih
    exact ⟨n, .unknown hk hn⟩
  | known hk _ _ ihi ih =>
    obtain ⟨n, hn⟩ := ihi
    obtain ⟨m, hm⟩ := ih
    exact ⟨max n m + 1, .known hk (hn.mono (by omega)) (hm.mono (by omega))⟩

namespace Resolver

variable {look : String → Option String} {available : List String} {whole value : List Char}
  {pieces : List Piece} {out : List Char}
  {enter : String → String → Except ResolveError (List Char)}

theorem unfolds_of_assemble
    (henter : ∀ name raw inner, look name = some raw → enter name raw = .ok inner →
      Unfolds look (Piece.ofText raw.toList) inner)
    (h : assemble look enter whole pieces = .ok out) : Unfolds look pieces out := by
  induction pieces generalizing out with
  | nil =>
    cases h
    exact .nil
  | cons piece rest ih =>
    cases piece with
    | literal text =>
      obtain ⟨tail, ht, hp⟩ := exceptBind_eq_ok.1 h
      cases hp
      exact .literal (ih ht)
    | unclosed => cases h
    | reference name =>
      rw [assemble] at h
      cases hn : look (String.ofList name) with
      | none =>
        rw [hn] at h
        obtain ⟨tail, ht, hp⟩ := exceptBind_eq_ok.1 h
        cases hp
        exact .unknown hn (ih ht)
      | some raw =>
        rw [hn] at h
        obtain ⟨inner, hi, h⟩ := exceptBind_eq_ok.1 h
        obtain ⟨tail, ht, hp⟩ := exceptBind_eq_ok.1 h
        cases hp
        exact .known hn (henter _ raw inner hn hi) (ih ht)

theorem unfolds_of_evaluate (h : evaluate look available value = .ok out) :
    Unfolds look (Piece.ofText value) out := by
  induction hlen : available.length using Nat.strong_induction_on generalizing available value out
  rename_i n ih
  rw [evaluate] at h
  apply unfolds_of_assemble _ h
  intro name raw inner _ hi
  split at hi
  · rename_i hav
    exact ih _ (hlen ▸ length_without_lt hav) hi rfl
  · cases hi

/-- Pieces are put together as they unfold when the values that unfold at a lesser depth are. -/
theorem assemble_of_unfoldsWithin {n : Nat} (h : UnfoldsWithin look n pieces out)
    (henter : ∀ name raw, look name = some raw → ∀ k < n, ∀ inner,
      UnfoldsWithin look k (Piece.ofText raw.toList) inner → enter name raw = .ok inner) :
    assemble look enter whole pieces = .ok out := by
  induction pieces generalizing out with
  | nil =>
    cases h
    rfl
  | cons piece rest ih =>
    cases h with
    | literal h =>
      rw [assemble, ih h]
      rfl
    | unknown hn h =>
      rw [assemble, hn]
      simp only [ih h]
      rfl
    | @known k name raw inner _ out hn hi h =>
      rw [assemble, hn]
      simp only [henter _ raw hn k (Nat.lt_succ_self k) inner hi, ih h]
      rfl

/-- Evaluation comes through when no name that is barred unfolds at a lesser depth. -/
theorem evaluate_of_unfoldsWithin {n : Nat} (h : UnfoldsWithin look n (Piece.ofText value) out)
    (barred : ∀ name raw, look name = some raw → name ∉ available →
      ∀ m < n, ∀ text, ¬ UnfoldsWithin look m (Piece.ofText raw.toList) text) :
    evaluate look available value = .ok out := by
  induction n using Nat.strong_induction_on generalizing available value out with
  | h n ih =>
    rw [evaluate]
    apply assemble_of_unfoldsWithin h
    intro name raw hn k hk inner hi
    have hav : name ∈ available := by
      by_contra hnot
      exact barred name raw hn hnot k hk inner hi
    simp only [hav, dite_true]
    -- the least depth at which the value unfolds bars the name itself
    classical
    have hex : ∃ m text, UnfoldsWithin look m (Piece.ofText raw.toList) text := ⟨k, inner, hi⟩
    obtain ⟨text, hleast⟩ := Nat.find_spec hex
    have hle : Nat.find hex ≤ k := Nat.find_le ⟨inner, hi⟩
    rw [hi.unfolds.deterministic hleast.unfolds]
    apply ih (Nat.find hex) (by omega) hleast
    intro other raw' hother hbar m hm text' htext
    by_cases hsame : other = name
    · subst hsame
      rw [hn] at hother
      obtain rfl := Option.some.inj hother
      exact Nat.find_min hex hm ⟨text', htext⟩
    · have hbar' : other ∉ available := by
        intro hmem
        exact hbar (List.mem_filter.2 ⟨hmem, by simpa using hsame⟩)
      exact barred other raw' hother hbar' m (by omega) text' htext

/-- Resolution finds what a value unfolds to, and nothing else. -/
theorem resolve_eq_ok_iff (r : Resolver) (value text : String) :
    r.resolve value = .ok text ↔
      Unfolds r.lookup (Piece.ofText value.toList) text.toList := by
  rw [resolve, exceptBind_eq_ok]
  constructor
  · intro hex
    obtain ⟨out, hout, hp⟩ := hex
    cases hp
    rw [String.toList_ofList]
    exact unfolds_of_evaluate hout
  · intro h
    obtain ⟨n, hn⟩ := h.exists_within
    refine ⟨text.toList, ?_, ?_⟩
    · apply evaluate_of_unfoldsWithin hn
      intro name raw hname hbar
      exact absurd (mem_knownNames_of_lookup hname) hbar
    · rw [String.ofList_toList]
      rfl

end Resolver

section Text

variable {look : String → Option String} {text out : List Char}

theorem ofText_of_not_hasWord (h : hasWord Placeholder.opening text = false) :
    Piece.ofText text = [.literal text] := by
  have hc : cutAtWord Placeholder.opening text = none := by
    simpa [hasWord] using h
  rw [Piece.ofText]
  split
  · rfl
  · rename_i hc'
    rw [hc] at hc'
    cases hc'

theorem unfolds_literal_iff (h : hasWord Placeholder.opening text = false) :
    Unfolds look (Piece.ofText text) out ↔ out = text := by
  rw [ofText_of_not_hasWord h]
  constructor
  · intro hu
    cases hu with
    | literal hn =>
      cases hn
      simp
  · intro ho
    subst ho
    have hu : Unfolds look [.literal out] (out ++ []) := .literal .nil
    rwa [List.append_nil] at hu

theorem ofText_of_cut {before body name rest : List Char}
    (hw : cutAtWord Placeholder.opening text = some (before, body))
    (hc : cutAt Placeholder.closing body = some (name, rest)) :
    Piece.ofText text = .literal before :: .reference name :: Piece.ofText rest := by
  rw [Piece.ofText]
  split
  · rename_i hn
    rw [hw] at hn
    cases hn
  · rename_i hs
    rw [hw] at hs
    cases hs
    split
    · rename_i hn
      rw [hc] at hn
      cases hn
    · rename_i hs
      rw [hc] at hs
      cases hs
      rfl

theorem ofText_of_open {before body : List Char}
    (hw : cutAtWord Placeholder.opening text = some (before, body))
    (hc : cutAt Placeholder.closing body = none) :
    Piece.ofText text = [.literal before, .unclosed] := by
  rw [Piece.ofText]
  split
  · rename_i hn
    rw [hw] at hn
    cases hn
  · rename_i hs
    rw [hw] at hs
    cases hs
    split
    · rfl
    · rename_i hs
      rw [hc] at hs
      cases hs

theorem ofText_spellChars_append {name : List Char} (h : Placeholder.closing ∉ name)
    (rest : List Char) :
    Piece.ofText (Placeholder.spellChars name ++ rest) =
      .literal [] :: .reference name :: Piece.ofText rest := by
  have ht : Placeholder.spellChars name ++ rest =
      Placeholder.opening ++ (name ++ Placeholder.closing :: rest) := by
    simp [Placeholder.spellChars]
  have hopen : Placeholder.opening ≠ [] := by decide
  rw [ht]
  exact ofText_of_cut (cutAtWord_self_append hopen _) (cutAt_append_cons h rest)

theorem ofText_spellChars {name : List Char} (h : Placeholder.closing ∉ name) :
    Piece.ofText (Placeholder.spellChars name) = [.literal [], .reference name, .literal []] := by
  have ht := ofText_spellChars_append h []
  have hnil : Piece.ofText [] = [.literal []] := ofText_of_not_hasWord rfl
  rwa [List.append_nil, hnil] at ht

/-- A placeholder that stands alone unfolds as the value of its name does. -/
theorem unfolds_spellChars_iff {name : List Char} {raw : String}
    (h : Placeholder.closing ∉ name) (hn : look (String.ofList name) = some raw) :
    Unfolds look (Piece.ofText (Placeholder.spellChars name)) out ↔
      Unfolds look (Piece.ofText raw.toList) out := by
  rw [ofText_spellChars h]
  constructor
  · intro hu
    cases hu with
    | literal hu =>
      cases hu with
      | unknown hk _ =>
        rw [hn] at hk
        cases hk
      | known hk hi hu =>
        rw [hn] at hk
        obtain rfl := Option.some.inj hk
        cases hu with
        | literal hu =>
          cases hu
          simpa using hi
  · intro hi
    have hu : Unfolds look [.literal [], .reference name, .literal []]
        ([] ++ (out ++ ([] ++ []))) := .literal (.known hn hi (.literal .nil))
    simpa using hu

/-- The value of a known name is unfolded less deep than a placeholder of it. -/
theorem UnfoldsWithin.exists_lt_of_spellChars {n : Nat} {name : List Char} {raw : String}
    (hname : Placeholder.closing ∉ name) (hn : look (String.ofList name) = some raw)
    (h : UnfoldsWithin look n (Piece.ofText (Placeholder.spellChars name)) out) :
    ∃ m < n, ∃ inner, UnfoldsWithin look m (Piece.ofText raw.toList) inner := by
  rw [ofText_spellChars hname] at h
  cases h with
  | literal h =>
    cases h with
    | unknown hk _ =>
      rw [hn] at hk
      cases hk
    | @known m _ _ inner _ _ hk hi _ =>
      rw [hn] at hk
      obtain rfl := Option.some.inj hk
      exact ⟨m, Nat.lt_succ_self m, inner, hi⟩

/-- What comes at the end of the later pieces comes at the end of all of them. -/
theorem unfolds_cons_append_iff {piece : Piece} {rest rest' : List Piece} {tail : List Char}
    (h : ∀ out, Unfolds look rest' out ↔ ∃ base, Unfolds look rest base ∧ out = base ++ tail)
    (out : List Char) :
    Unfolds look (piece :: rest') out ↔
      ∃ base, Unfolds look (piece :: rest) base ∧ out = base ++ tail := by
  constructor
  · intro hu
    cases hu with
    | literal hu =>
      obtain ⟨base, hb, rfl⟩ := (h _).1 hu
      exact ⟨_, .literal hb, (List.append_assoc ..).symm⟩
    | unknown hn hu =>
      obtain ⟨base, hb, rfl⟩ := (h _).1 hu
      exact ⟨_, .unknown hn hb, (List.append_assoc ..).symm⟩
    | known hn hi hu =>
      obtain ⟨base, hb, rfl⟩ := (h _).1 hu
      exact ⟨_, .known hn hi hb, (List.append_assoc ..).symm⟩
  · intro hex
    obtain ⟨base, hu, rfl⟩ := hex
    cases hu with
    | literal hu =>
      rw [List.append_assoc]
      exact .literal ((h _).2 ⟨_, hu, rfl⟩)
    | unknown hn hu =>
      rw [List.append_assoc]
      exact .unknown hn ((h _).2 ⟨_, hu, rfl⟩)
    | known hn hi hu =>
      rw [List.append_assoc]
      exact .known hn hi ((h _).2 ⟨_, hu, rfl⟩)

/-- Text after a value that brings no placeholder about comes after what the value unfolds to. -/
theorem unfolds_append_iff {look' : String → Option String} {tail : List Char}
    (hu : Unfolds look (Piece.ofText text) out)
    (hfree : hasWord Placeholder.opening (out ++ tail) = false) (out' : List Char) :
    Unfolds look' (Piece.ofText (text ++ tail)) out' ↔
      ∃ base, Unfolds look' (Piece.ofText text) base ∧ out' = base ++ tail := by
  induction text using Piece.ofText.induct generalizing out out' with
  | case1 text hw =>
    have hlit : hasWord Placeholder.opening text = false := by simp [hasWord, hw]
    obtain rfl := (unfolds_literal_iff hlit).1 hu
    rw [unfolds_literal_iff hfree]
    simp only [unfolds_literal_iff hlit, exists_eq_left]
  | case2 text before body hw hc =>
    rw [ofText_of_open hw hc] at hu
    cases hu with
    | literal hu => cases hu
  | case3 text before body hw name rest hc ih =>
    rw [ofText_of_cut hw hc] at hu ⊢
    rw [ofText_of_cut (cutAtWord_append hw tail) (cutAt_append hc tail)]
    have hrest : ∃ front tailOut, out = front ++ tailOut ∧
        Unfolds look (Piece.ofText rest) tailOut := by
      cases hu with
      | literal hu =>
        cases hu with
        | unknown _ hu => exact ⟨_, _, (List.append_assoc ..).symm, hu⟩
        | known _ _ hu => exact ⟨_, _, (List.append_assoc ..).symm, hu⟩
    obtain ⟨front, tailOut, rfl, hr⟩ := hrest
    have hfree' : hasWord Placeholder.opening (tailOut ++ tail) = false := by
      by_contra hne
      rw [Bool.not_eq_false] at hne
      rw [List.append_assoc, hasWord_append_right front hne] at hfree
      cases hfree
    exact unfolds_cons_append_iff (unfolds_cons_append_iff fun out' => ih hr hfree' out') out'

end Text
end Realign
