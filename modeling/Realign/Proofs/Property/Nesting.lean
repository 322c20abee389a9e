import Mathlib.Data.List.Dedup
import Realign.Proofs.Property.Unfolding

/-!
What resolution finds, how deep it goes and what makes it fail, said of texts. It finds what a
text unfolds to placeholder by placeholder. It is never inside of a name twice, and every name
that it goes into is known, so values are nested no deeper than there are known names. It
reports a cycle only for a name that is reached from its own value, and an open end only in a
text that it comes to.
-/
namespace Realign

open Text

/-- What a text unfolds to: text without a placeholder to itself, a placeholder with an unknown name
to its own spelling, and one with a known name to what the value of the name unfolds to. -/
inductive UnfoldsTo (look : String → Option String) : List Char → List Char → Prop
  | literal {text} (h : hasWord Placeholder.opening text = false) : UnfoldsTo look text text
  | unknown {before name rest out} (hb : hasWord Placeholder.opening before = false)
      (hc : Placeholder.closing ∉ name) (hn : look (String.ofList name) = none)
      (h : UnfoldsTo look rest out) :
      UnfoldsTo look (before ++ (Placeholder.spellChars name ++ rest))
        (before ++ (Placeholder.spellChars name ++ out))
  | known {before name raw inner rest out} (hb : hasWord Placeholder.opening before = false)
      (hc : Placeholder.closing ∉ name) (hn : look (String.ofList name) = some raw)
      (hi : UnfoldsTo look raw.toList inner) (h : UnfoldsTo look rest out) :
      UnfoldsTo look (before ++ (Placeholder.spellChars name ++ rest)) (before ++ (inner ++ out))

/-- A placeholder is opened and nothing after that closes it. -/
def OpenEnded (text : List Char) : Prop :=
  ∃ before body, text = before ++ (Placeholder.opening ++ body) ∧ Placeholder.closing ∉ body

/-- A name that a text comes to by references to known names. -/
inductive Reaches (look : String → Option String) : List Char → String → Prop
  | direct {text name raw} (hr : .reference name ∈ Piece.ofText text)
      (hn : look (String.ofList name) = some raw) : Reaches look text (String.ofList name)
  | through {text name raw other} (hr : .reference name ∈ Piece.ofText text)
      (hn : look (String.ofList name) = some raw) (h : Reaches look raw.toList other) :
      Reaches look text other

section Pieces

variable {look : String → Option String} {text before body name rest out : List Char}

theorem hasWord_of_cutAtWord {word before after : List Char}
    (h : cutAtWord word text = some (before, after)) (hw : word ≠ []) :
    hasWord word before = false := by
  induction text generalizing before with
  | nil => simp [cutAtWord, hw] at h
  | cons c rest ih =>
    rw [cutAtWord] at h
    cases hs : strip? word (c :: rest) with
    | some found =>
      rw [hs] at h
      cases h
      simp [hasWord, cutAtWord, hw]
    | none =>
      rw [hs] at h
      obtain ⟨⟨b, a⟩, hcut, hp⟩ := Option.map_eq_some_iff.1 h
      cases hp
      have hnone : strip? word (c :: b) = none := by
        rw [Option.eq_none_iff_forall_ne_some]
        intro found hf
        have hlonger : strip? word (c :: rest) = some (found ++ (word ++ after)) := by
          rw [strip?_eq_some, cutAtWord_eq_some hcut, ← List.cons_append, strip?_eq_some.1 hf,
            List.append_assoc]
        rw [hlonger] at hs
        cases hs
      have hrest := ih hcut
      simp only [hasWord] at hrest ⊢
      rw [cutAtWord, hnone]
      simpa using hrest

/-- The first opening stands behind a text that has none. -/
theorem cutAtWord_opening (hb : hasWord Placeholder.opening before = false) (body : List Char) :
    cutAtWord Placeholder.opening (before ++ (Placeholder.opening ++ body)) =
      some (before, body) := by
  induction before with
  | nil => exact cutAtWord_self_append (by decide) body
  | cons c before ih =>
    simp only [hasWord] at hb ih
    rw [cutAtWord] at hb
    cases hs : strip? Placeholder.opening (c :: before) with
    | some found => simp [hs] at hb
    | none =>
      -- an opening cannot begin in the text before it: its second character is not its first
      have hnone : strip? Placeholder.opening
          (c :: (before ++ (Placeholder.opening ++ body))) = none := by
        cases before with
        | nil => simp [Placeholder.opening, strip?]
        | cons d before => simpa [Placeholder.opening, strip?] using hs
      rw [hs] at hb
      rw [List.cons_append, cutAtWord, hnone]
      simp only [ih (by simpa using hb), Option.map_some]

theorem ofText_placeholder (hb : hasWord Placeholder.opening before = false)
    (hc : Placeholder.closing ∉ name) (rest : List Char) :
    Piece.ofText (before ++ (Placeholder.spellChars name ++ rest)) =
      .literal before :: .reference name :: Piece.ofText rest := by
  have hs : Placeholder.spellChars name ++ rest =
      Placeholder.opening ++ (name ++ Placeholder.closing :: rest) := by
    simp [Placeholder.spellChars]
  rw [hs]
  exact ofText_of_cut (cutAtWord_opening hb _) (cutAt_append_cons hc rest)

theorem UnfoldsTo.unfolds (h : UnfoldsTo look text out) :
    Unfolds look (Piece.ofText text) out := by
  induction h with
  | literal h => exact (unfolds_literal_iff h).2 rfl
  | unknown hb hc hn _ ih =>
    rw [ofText_placeholder hb hc]
    exact .literal (.unknown hn ih)
  | known hb hc hn _ _ ihi ih =>
    rw [ofText_placeholder hb hc]
    exact .literal (.known hn ihi ih)

/-- By induction on how deep the references are nested, and in the text from one placeholder to
the next. -/
theorem unfoldsTo_of_within {n : Nat} (h : UnfoldsWithin look n (Piece.ofText text) out) :
    UnfoldsTo look text out := by
  induction n using Nat.strong_induction_on generalizing text out with
  | h n ihn =>
    induction text using Piece.ofText.induct generalizing out with
    | case1 text hw =>
      have hlit : hasWord Placeholder.opening text = false := by simp [hasWord, hw]
      obtain rfl := (unfolds_literal_iff hlit).1 h.unfolds
      exact .literal hlit
    | case2 text before body hw hc =>
      rw [ofText_of_open hw hc] at h
      cases h with
      | literal h => cases h
    | case3 text before body hw name rest hc ih =>
      have hbefore := hasWord_of_cutAtWord hw (by decide)
      obtain ⟨hbody, hname⟩ := cutAt_eq_some hc
      have htext : text = before ++ (Placeholder.spellChars name ++ rest) := by
        rw [cutAtWord_eq_some hw, hbody]
        simp [Placeholder.spellChars]
      rw [ofText_of_cut hw hc] at h
      rw [htext]
      cases h with
      | literal h =>
        cases h with
        | unknown hn h => exact .unknown hbefore hname hn (ih h)
        | known hn hi h => exact .known hbefore hname hn (ihn _ (Nat.lt_succ_self _) hi) (ih h)

theorem unfoldsTo_iff : UnfoldsTo look text out ↔ Unfolds look (Piece.ofText text) out := by
  constructor
  · exact UnfoldsTo.unfolds
  · intro h
    obtain ⟨n, hn⟩ := h.exists_within
    exact unfoldsTo_of_within hn

end Pieces

/-- A computation whose last step cannot fail fails if the others do. -/
theorem exceptBind_pure_eq_error {x : Except ε α} (f : α → β) {e : ε} :
    (do return f (← x)) = Except.error e ↔ x = .error e := by
  cases x <;> simp [Bind.bind, Except.bind, pure, Except.pure]

theorem openEnded_of_unclosed {text : List Char} (h : .unclosed ∈ Piece.ofText text) :
    OpenEnded text := by
  induction text using Piece.ofText.induct with
  | case1 text hw =>
    have hlit : hasWord Placeholder.opening text = false := by simp [hasWord, hw]
    rw [ofText_of_not_hasWord hlit] at h
    simp at h
  | case2 text before body hw hc =>
    exact ⟨before, body, cutAtWord_eq_some hw, cutAt_eq_none.1 hc⟩
  | case3 text before body hw name rest hc ih =>
    rw [ofText_of_cut hw hc] at h
    have hrest : .unclosed ∈ Piece.ofText rest := by simpa using h
    obtain ⟨left, open_, hopen, hnot⟩ := ih hrest
    have hbody := (cutAt_eq_some hc).1
    refine ⟨before ++ (Placeholder.opening ++ (name ++ Placeholder.closing :: left)), open_, ?_,
      hnot⟩
    rw [cutAtWord_eq_some hw, hbody, hopen]
    simp

namespace Resolver

variable {look : String → Option String} {available : List String} {whole value : List Char}
  {pieces : List Piece} {enter enter' : String → String → Except ResolveError (List Char)}

/-- Putting pieces together fails at an open end or inside of a reference. -/
theorem error_of_assemble {e : ResolveError} (h : assemble look enter whole pieces = .error e) :
    (.unclosed ∈ pieces ∧ e = .unterminated (String.ofList whole)) ∨
      ∃ name raw, .reference name ∈ pieces ∧ look (String.ofList name) = some raw ∧
        enter (String.ofList name) raw = .error e := by
  induction pieces with
  | nil => cases h
  | cons piece rest ih =>
    -- a fault behind the first piece is one of the rest
    have hrest (h : assemble look enter whole rest = .error e) :
        (.unclosed ∈ piece :: rest ∧ e = .unterminated (String.ofList whole)) ∨
          ∃ name raw, .reference name ∈ piece :: rest ∧ look (String.ofList name) = some raw ∧
            enter (String.ofList name) raw = .error e := by
      rcases ih h with ⟨hopen, he⟩ | ⟨name, raw, hr, hn, he⟩
      · exact Or.inl ⟨List.mem_cons_of_mem _ hopen, he⟩
      · exact Or.inr ⟨name, raw, List.mem_cons_of_mem _ hr, hn, he⟩
    cases piece with
    | literal text => exact hrest ((exceptBind_pure_eq_error _).1 h)
    | unclosed =>
      cases h
      exact Or.inl ⟨List.mem_cons_self .., rfl⟩
    | reference name =>
      rw [assemble] at h
      cases hn : look (String.ofList name) with
      | none =>
        rw [hn] at h
        exact hrest ((exceptBind_pure_eq_error _).1 h)
      | some raw =>
        rw [hn] at h
        cases he : enter (String.ofList name) raw with
        | error fault =>
          simp only [he] at h
          cases h
          exact Or.inr ⟨name, raw, List.mem_cons_self .., hn, he⟩
        | ok inner =>
          simp only [he] at h
          exact hrest ((exceptBind_pure_eq_error _).1 h)

theorem assemble_congr
    (h : ∀ name raw, look name = some raw → enter name raw = enter' name raw) :
    assemble look enter whole pieces = assemble look enter' whole pieces := by
  induction pieces with
  | nil => rfl
  | cons piece rest ih =>
    cases piece with
    | literal text => rw [assemble, assemble, ih]
    | unclosed => rfl
    | reference name =>
      rw [assemble, assemble]
      cases hn : look (String.ofList name) with
      | none => simp only [ih]
      | some raw => simp only [ih, h _ _ hn]

/-- A cycle is reported for a name that the value comes to and that its own value comes to, if
whatever the value comes to is also come to from the names that may not be entered. -/
theorem reaches_of_cycle {name : String}
    (barred : ∀ known raw, look known = some raw → known ∉ available →
      ∀ other, Reaches look value other → Reaches look raw.toList other)
    (h : evaluate look available value = .error (.cycle name)) :
    Reaches look value name ∧ ∃ raw, look name = some raw ∧ Reaches look raw.toList name := by
  induction hlen : available.length using Nat.strong_induction_on generalizing available value
  rename_i n ih
  rw [evaluate] at h
  rcases error_of_assemble h with ⟨-, he⟩ | ⟨inner, raw, hr, hn, he⟩
  · cases he
  · split at he
    · rename_i hav
      have hinner := ih _ (hlen ▸ length_without_lt hav) (fun known raw' hk hnot other ho => ?_)
        he rfl
      · exact ⟨.through hr hn hinner.1, hinner.2⟩
      · by_cases hsame : known = String.ofList inner
        · rw [hsame, hn] at hk
          rwa [← Option.some.inj hk]
        · have hbarred : known ∉ available := by
            intro hmem
            exact hnot (List.mem_filter.2 ⟨hmem, by simpa using hsame⟩)
          exact barred known raw' hk hbarred other (.through hr hn ho)
    · rename_i hnot
      cases he
      have hdirect : Reaches look value (String.ofList inner) := .direct hr hn
      exact ⟨hdirect, raw, hn, barred _ raw hn hnot _ hdirect⟩

/-- The text that is reported to end inside of a placeholder is the value or that of a name which
the value comes to. -/
theorem openEnded_of_unterminated {text : String}
    (h : evaluate look available value = .error (.unterminated text)) :
    OpenEnded text.toList ∧
      (text.toList = value ∨ ∃ name, Reaches look value name ∧ look name = some text) := by
  induction hlen : available.length using Nat.strong_induction_on generalizing available value
  rename_i n ih
  rw [evaluate] at h
  rcases error_of_assemble h with ⟨hopen, he⟩ | ⟨name, raw, hr, hn, he⟩
  · cases he
    rw [String.toList_ofList]
    exact ⟨openEnded_of_unclosed hopen, Or.inl rfl⟩
  · split at he
    · rename_i hav
      obtain ⟨hopen, hsame | ⟨other, ho, htext⟩⟩ := ih _ (hlen ▸ length_without_lt hav) he rfl
      · exact ⟨hopen, Or.inr ⟨_, .direct hr hn, by rw [hn, String.toList_inj.1 hsame]⟩⟩
      · exact ⟨hopen, Or.inr ⟨other, .through hr hn ho, htext⟩⟩
    · cases he

/-- Evaluation that keeps the names that it is inside of, and that has a given outcome where it
would be inside of more than so many. -/
def evaluateInside (look : String → Option String)
    (deeper : Except ResolveError (List Char)) :
    Nat → List String → List Char → Except ResolveError (List Char)
  | depth, inside, value =>
    assemble look (fun name raw =>
      if name ∈ inside then .error (.cycle name)
      else match depth with
        | 0 => deeper
        | depth + 1 => evaluateInside look deeper depth (name :: inside) raw.toList)
      value (Piece.ofText value)

/-- Evaluation does not go deeper than there are known names that it is not inside of. -/
theorem evaluateInside_eq {deeper : Except ResolveError (List Char)} {depth : Nat}
    {inside : List String} (left : List String)
    (hav : ∀ name raw, look name = some raw → (name ∈ available ↔ name ∉ inside))
    (hleft : ∀ name raw, look name = some raw → name ∉ inside → name ∈ left)
    (hdepth : left.length ≤ depth) :
    evaluateInside look deeper depth inside value = evaluate look available value := by
  induction depth generalizing inside left available value with
  | zero =>
    obtain rfl := List.eq_nil_of_length_eq_zero (Nat.le_zero.1 hdepth)
    rw [evaluateInside, evaluate]
    apply assemble_congr
    intro name raw hn
    have hin : name ∈ inside := by
      by_contra hnot
      cases hleft name raw hn hnot
    have hbar : name ∉ available := fun hmem => (hav name raw hn).1 hmem hin
    rw [if_pos hin, dif_neg hbar]
  | succ depth ih =>
    rw [evaluateInside, evaluate]
    apply assemble_congr
    intro name raw hn
    by_cases hin : name ∈ inside
    · have hbar : name ∉ available := fun hmem => (hav name raw hn).1 hmem hin
      rw [if_pos hin, dif_neg hbar]
    · have hmem : name ∈ available := (hav name raw hn).2 hin
      rw [if_neg hin, dif_pos hmem]
      have hlt := length_without_lt (hleft name raw hn hin)
      apply ih (without name left) _ _ (by omega)
      · intro other raw' ho
        rw [without, List.mem_filter, hav other raw' ho, List.mem_cons, not_or]
        simp [and_comm]
      · intro other raw' ho hnot
        rw [List.mem_cons, not_or] at hnot
        exact List.mem_filter.2 ⟨hleft other raw' ho hnot.2, by simpa using hnot.1⟩

/-- The names that are looked up with success, each once. -/
def found (r : Resolver) : List String :=
  (r.knownNames.filter fun name => (r.lookup name).isSome).dedup

theorem mem_found {r : Resolver} {name : String} :
    name ∈ r.found ↔ ∃ raw, r.lookup name = some raw := by
  rw [found, List.mem_dedup, List.mem_filter, Option.isSome_iff_exists]
  constructor
  · intro h
    exact h.2
  · intro hex
    obtain ⟨raw, h⟩ := hex
    exact ⟨mem_knownNames_of_lookup h, raw, h⟩

/-- Resolution finds what a value unfolds to and nothing else. It fails for a cycle only when the
name comes back to itself, and for an open end only in a text that the value comes to. However
it would answer inside of more names than there are, it comes to the same, so its values are
never nested deeper than that. -/
theorem resolve_iff_unfolds_or_fails (r : Resolver) (value : String) :
    (∀ text, r.resolve value = .ok text ↔
      UnfoldsTo r.lookup value.toList text.toList) ∧
    (∀ name, r.resolve value = .error (.cycle name) →
      Reaches r.lookup value.toList name ∧
        ∃ raw, r.lookup name = some raw ∧ Reaches r.lookup raw.toList name) ∧
    (∀ text, r.resolve value = .error (.unterminated text) →
      OpenEnded text.toList ∧
        (text = value ∨ ∃ name, Reaches r.lookup value.toList name ∧ r.lookup name = some text)) ∧
    (r.found.Nodup ∧ (∀ name, name ∈ r.found ↔ ∃ raw, r.lookup name = some raw) ∧
      ∀ deeper, r.resolve value =
        (evaluateInside r.lookup deeper r.found.length [] value.toList).map String.ofList) := by
  refine ⟨fun text => ?_, fun name h => ?_, fun text h => ?_,
    List.nodup_dedup _, fun _ => mem_found, fun deeper => ?_⟩
  · rw [r.resolve_eq_ok_iff, unfoldsTo_iff]
  · refine reaches_of_cycle ?_ ((exceptBind_pure_eq_error _).1 h)
    intro known raw hk hnot
    exact absurd (mem_knownNames_of_lookup hk) hnot
  · have hopen := openEnded_of_unterminated ((exceptBind_pure_eq_error _).1 h)
    rwa [String.toList_inj] at hopen
  · have heq : evaluateInside r.lookup deeper r.found.length [] value.toList =
        evaluate r.lookup r.knownNames value.toList := by
      apply evaluateInside_eq r.found _ _ (Nat.le_refl _)
      · intro name raw hn
        simp [mem_knownNames_of_lookup hn]
      · intro name raw hn _
        exact mem_found.2 ⟨raw, hn⟩
    rw [heq, resolve]
    cases evaluate r.lookup r.knownNames value.toList <;> rfl

/-- A module with two properties that refer to each other and one that is open at its end. -/
def tangled : Resolver := .ofChain [
  { ident := ⟨"org.foo", "app"⟩, version := "1.0",
    main.properties := .ofRows [("a", "$\x7bb\x7d"), ("b", "x-$\x7ba\x7d"), ("c", "$\x7bd")] }]

theorem tangled_fails :
    (Reaches tangled.lookup "$\x7ba\x7d".toList "a" ∧
      ∃ raw, tangled.lookup "a" = some raw ∧ Reaches tangled.lookup raw.toList "a") ∧
    OpenEnded "$\x7bd".toList ∧
      ("$\x7bd" = "$\x7bc\x7d" ∨ ∃ name, Reaches tangled.lookup "$\x7bc\x7d".toList name ∧
        tangled.lookup name = some "$\x7bd") :=
  ⟨(resolve_iff_unfolds_or_fails tangled "$\x7ba\x7d").2.1 "a" (by decide +kernel),
    (resolve_iff_unfolds_or_fails tangled "$\x7bc\x7d").2.2.1 "$\x7bd" (by decide +kernel)⟩

end Resolver
end Realign
