import Realign.Proofs.Property.Nesting

/-!
What an unfolding depends on. A text unfolds alike wherever the names that it reaches stand for
the same and those that are unknown stay unknown. The value of a name that unfolds never reaches
the name again, so what it unfolds to does not depend on what the name stands for.
-/
namespace Realign

variable {look look' : String → Option String} {pieces : List Piece} {text out : List Char}
  {name raw : String} {n : Nat}

/-- The value behind one of the references unfolds at a lesser depth. -/
theorem UnfoldsWithin.exists_lt_of_mem {ref : List Char} (h : UnfoldsWithin look n pieces out)
    (hr : .reference ref ∈ pieces) (hn : look (String.ofList ref) = some raw) :
    ∃ m < n, ∃ inner, UnfoldsWithin look m (Piece.ofText raw.toList) inner := by
  induction h with
  | nil => cases hr
  | literal _ ih => exact ih (by simpa using hr)
  | unknown hk _ ih =>
    rcases List.mem_cons.1 hr with he | hr
    · cases he
      rw [hk] at hn
      cases hn
    · exact ih hr
  | @known m _ _ inner _ _ hk hi _ _ ih =>
    rcases List.mem_cons.1 hr with he | hr
    · cases he
      rw [hk] at hn
      obtain rfl := Option.some.inj hn
      exact ⟨m, Nat.lt_succ_self m, inner, hi⟩
    · exact ih hr

/-- So does the value of every name that a text reaches. -/
theorem UnfoldsWithin.exists_lt_of_reaches (h : UnfoldsWithin look n (Piece.ofText text) out)
    (hr : Reaches look text name) :
    ∃ raw, look name = some raw ∧
      ∃ m < n, ∃ inner, UnfoldsWithin look m (Piece.ofText raw.toList) inner := by
  induction hr generalizing n out with
  | direct hr hn => exact ⟨_, hn, h.exists_lt_of_mem hr hn⟩
  | through hr hn _ ih =>
    obtain ⟨m, hm, inner, hi⟩ := h.exists_lt_of_mem hr hn
    obtain ⟨raw, hraw, k, hk, hrest⟩ := ih hi
    exact ⟨raw, hraw, k, by omega, hrest⟩

theorem UnfoldsWithin.not_reaches_self (h : UnfoldsWithin look n (Piece.ofText raw.toList) out)
    (hn : look name = some raw) : ¬ Reaches look raw.toList name := by
  induction n using Nat.strong_induction_on generalizing out with
  | h n ih =>
    intro hr
    obtain ⟨raw', hraw', m, hm, inner, hi⟩ := h.exists_lt_of_reaches hr
    rw [hn] at hraw'
    obtain rfl := Option.some.inj hraw'
    exact ih m hm hi hr

namespace Unfolds

/-- The value of a name that unfolds does not lead back to the name. -/
theorem not_reaches_self (h : Unfolds look (Piece.ofText raw.toList) out)
    (hn : look name = some raw) : ¬ Reaches look raw.toList name := by
  obtain ⟨n, hwithin⟩ := h.exists_within
  exact hwithin.not_reaches_self hn

theorem pieces_of_agree (hnone : ∀ name, look name = none → look' name = none)
    (hsame : ∀ ref raw, .reference ref ∈ pieces → look (String.ofList ref) = some raw →
      look' (String.ofList ref) = some raw ∧
        ∀ name, Reaches look raw.toList name → look' name = look name)
    (h : Unfolds look pieces out) : Unfolds look' pieces out := by
  induction h with
  | nil => exact .nil
  | literal _ ih => exact .literal (ih fun ref raw hr => hsame ref raw (List.mem_cons_of_mem _ hr))
  | unknown hn _ ih =>
    exact .unknown (hnone _ hn) (ih fun ref raw hr => hsame ref raw (List.mem_cons_of_mem _ hr))
  | @known ref raw _ _ _ hn _ _ ihi ih =>
    obtain ⟨hn', hinner⟩ := hsame ref raw (List.mem_cons_self ..) hn
    refine .known hn' (ihi fun ref' raw' hr' hk => ?_)
      (ih fun ref' raw' hr' => hsame ref' raw' (List.mem_cons_of_mem _ hr'))
    refine ⟨?_, fun name hr => hinner name (.through hr' hk hr)⟩
    rw [hinner _ (.direct hr' hk), hk]

/-- A text unfolds alike if every name that it reaches stands for the same. -/
theorem of_agree (hnone : ∀ name, look name = none → look' name = none)
    (hsame : ∀ name, Reaches look text name → look' name = look name)
    (h : Unfolds look (Piece.ofText text) out) : Unfolds look' (Piece.ofText text) out := by
  apply h.pieces_of_agree hnone
  intro ref raw hr hn
  refine ⟨?_, fun name hreach => hsame name (.through hr hn hreach)⟩
  rw [hsame _ (.direct hr hn), hn]

/-- What the value of a name unfolds to does not depend on what the name stands for. -/
theorem of_agree_elsewhere (hother : ∀ other, other ≠ name → look' other = look other)
    (hn : look name = some raw) (h : Unfolds look (Piece.ofText raw.toList) out) :
    Unfolds look' (Piece.ofText raw.toList) out := by
  apply h.of_agree
  · intro other ho
    rw [hother other, ho]
    rintro rfl
    rw [hn] at ho
    cases ho
  · intro other hr
    apply hother
    rintro rfl
    exact h.not_reaches_self hn hr

end Unfolds

end Realign
