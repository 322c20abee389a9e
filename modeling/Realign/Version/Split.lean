import Realign.Text.Class

/-!
How a version text falls apart: up to three numbers with separators between
them, then the rest. Of all ways to take a text apart the first acceptable one
counts, where a longer run comes before a shorter one and a further number
before none; the rest must not span a line. A digit outside ASCII is a separator
too, so shorter runs can be forced. A text with no acceptable way is all rest.
The first ways from every place are found in one walk from the end of the text.
-/
namespace Realign.Version

open Text

structure Split where
  major : Option (List Char) := none
  minor : Option (List Char) := none
  micro : Option (List Char) := none
  rest : List Char := []
deriving DecidableEq, Repr

namespace Split

def toRest (c : Char) (s : Split) : Split := { s with rest := c :: s.rest }

def toMicro (c : Char) (s : Split) : Split := { s with micro := some (c :: s.micro.getD []) }

def toMinor (c : Char) (s : Split) : Split := { s with minor := some (c :: s.minor.getD []) }

def toMajor (c : Char) (s : Split) : Split := { s with major := some (c :: s.major.getD []) }

end Split

/-- The first acceptable way to go on from a place in a text, for each thing that may be read
next there: the rest, a number, or the separators before a number. -/
structure Ways where
  rest : Option Split := some {}
  micro : Option Split := none
  beforeMicro : Option Split := none
  minor : Option Split := none
  beforeMinor : Option Split := none
  major : Option Split := none

namespace Ways

/-- A run that starts with `c`: the way on if it is longer, else the way on behind it. -/
def run (p : Char → Bool) (c : Char) (longer behind : Option Split) : Option Split :=
  if p c then longer <|> behind else none

def afterMinor (w : Ways) : Option Split := w.beforeMicro <|> w.rest

def afterMajor (w : Ways) : Option Split := w.beforeMinor <|> w.rest

/-- The ways from the place before `c`, given those from the place behind it. -/
def before (c : Char) (w : Ways) : Ways where
  rest := if c = '\n' then none else w.rest.map (Split.toRest c)
  micro := (run isDecimal c w.micro w.rest).map (Split.toMicro c)
  beforeMicro := run isSeparator c w.beforeMicro w.micro
  minor := (run isDecimal c w.minor w.afterMinor).map (Split.toMinor c)
  beforeMinor := run isSeparator c w.beforeMinor w.minor
  major := (run isDecimal c w.major w.afterMajor).map (Split.toMajor c)

def of (text : List Char) : Ways := text.foldr before {}

@[simp] theorem of_nil : of [] = {} := rfl

@[simp] theorem of_cons (c : Char) (text : List Char) : of (c :: text) = (of text).before c := rfl

/-- What is read as the rest is the text itself, if it spans no line. -/
theorem rest_of (text : List Char) :
    (of text).rest = if '\n' ∈ text then none else some { rest := text } := by
  induction text with
  | nil => rfl
  | cons c text ih =>
    by_cases hc : c = '\n'
    · simp [before, hc]
    · by_cases ht : '\n' ∈ text <;> simp [before, hc, Ne.symm hc, ih, ht, Split.toRest]

end Ways

namespace Split

def of (text : List Char) : Split := (Ways.of text).major.getD { rest := text }

end Split

/-- A text with no first number is all rest. -/
theorem split_of_major {text : List Char} (h : (Split.of text).major = none) :
    Split.of text = { rest := text } := by
  unfold Split.of at h ⊢
  cases hm : (Ways.of text).major with
  | none => rfl
  | some s =>
    rw [hm] at h
    cases text with
    | nil => cases hm
    | cons c text =>
      obtain ⟨s, -, rfl⟩ := Option.map_eq_some_iff.1 hm
      cases h

end Realign.Version
