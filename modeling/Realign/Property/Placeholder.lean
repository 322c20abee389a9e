import Realign.Text.Cut

/-!
Placeholders: a dollar sign, an opening brace, a name and a closing brace. A value
that is one placeholder and nothing else is bare; one that mixes placeholders with
other text, or holds several of them, is compound; one without any is literal.
-/
namespace Realign.Placeholder

open Text

def opening : List Char := ['$', '\x7b']

def closing : Char := '\x7d'

def spellChars (name : List Char) : List Char := opening ++ name ++ [closing]

def spell (name : String) : String := String.ofList (spellChars name.toList)

/-- A name that a placeholder can hold as a whole. -/
def isName (name : List Char) : Bool :=
  !name.isEmpty && !hasWord opening name && !name.contains closing

def occursIn (value : String) : Bool := hasWord opening value.toList

def bareChars? (value : List Char) : Option (List Char) :=
  match strip? opening value with
  | some body =>
    if body.getLast? = some closing ∧ isName body.dropLast then some body.dropLast else none
  | none => none

theorem bareChars?_eq_some {value name : List Char} :
    bareChars? value = some name ↔ value = spellChars name ∧ isName name = true := by
  unfold bareChars?
  split
  · rename_i body h
    have hv := strip?_eq_some.1 h
    constructor
    · intro hb
      split at hb
      · rename_i hc
        obtain rfl := Option.some.inj hb
        obtain ⟨init, hi⟩ := List.getLast?_eq_some_iff.1 hc.1
        exact ⟨by simp [hv, hi, spellChars], hc.2⟩
      · cases hb
    · rintro ⟨rfl, hn⟩
      have hb : body = name ++ [closing] := by
        simpa [spellChars] using hv.symm
      simp [hb, hn]
  · rename_i h
    constructor
    · intro hb
      cases hb
    · rintro ⟨rfl, _⟩
      have hs : strip? opening (spellChars name) = some (name ++ [closing]) :=
        strip?_eq_some.2 (by simp [spellChars])
      rw [hs] at h
      cases h

/-- The name in a bare placeholder. -/
def bare? (value : String) : Option String := (bareChars? value.toList).map String.ofList

def isCompound (value : String) : Bool := occursIn value && (bare? value).isNone

end Realign.Placeholder
