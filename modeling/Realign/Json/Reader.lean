import Realign.Json.Number
import Realign.Json.Value

/-!
Reading JSON text. A text that stops being JSON somewhere still has the value
that was read up to that place, so that a fault of meaning which comes earlier
can be reported in its stead. Whatever is cut short reads as null there, and the
reading says that it is not complete.
-/
namespace Realign.Json

structure Reading where
  value : Json
  complete : Bool

namespace Reader

def isGap (c : Char) : Bool := c = ' ' || c = '\n' || c = '\t' || c = '\r'

def skipGaps (text : List Char) : List Char := text.dropWhile isGap

def hexValue? (c : Char) : Option Nat :=
  if c.isDigit then some (c.toNat - '0'.toNat)
  else if 'a' ≤ c && c ≤ 'f' then some (c.toNat - 'a'.toNat + 10)
  else if 'A' ≤ c && c ≤ 'F' then some (c.toNat - 'A'.toNat + 10)
  else none

/-- A character written as itself, or a UTF-16 unit written by its number. -/
inductive Mark where
  | plain (c : Char)
  | unit (n : Nat)

def isHighHalf (n : Nat) : Bool := 0xD800 ≤ n && n < 0xDC00

def isLowHalf (n : Nat) : Bool := 0xDC00 ≤ n && n < 0xE000

/-- The text that the marks spell; none if half of a surrogate pair stands alone. -/
def spell : List Mark → Option (List Char)
  | [] => some []
  | .plain c :: rest => (spell rest).map (c :: ·)
  | .unit high :: .unit low :: rest =>
    if isHighHalf high && isLowHalf low then
      (spell rest).map (Char.ofNat (0x10000 + (high - 0xD800) * 0x400 + (low - 0xDC00)) :: ·)
    else if isHighHalf high || isLowHalf high then none
    else (spell (.unit low :: rest)).map (Char.ofNat high :: ·)
  | .unit n :: rest =>
    if isHighHalf n || isLowHalf n then none
    else (spell rest).map (Char.ofNat n :: ·)

def escaped? : Char → Option Char
  | '"' => some '"'
  | '\\' => some '\\'
  | '/' => some '/'
  | 'b' => some '\x08'
  | 'f' => some '\x0c'
  | 'n' => some '\n'
  | 'r' => some '\r'
  | 't' => some '\t'
  | _ => none

/-- The marks up to the closing quote, and the text behind it. -/
def marks : List Char → Option (List Mark × List Char)
  | [] => none
  | '"' :: rest => some ([], rest)
  | '\\' :: 'u' :: a :: b :: c :: d :: rest => do
    let n := (← hexValue? a) * 0x1000 + (← hexValue? b) * 0x100 + (← hexValue? c) * 0x10
      + (← hexValue? d)
    let (more, after) ← marks rest
    some (.unit n :: more, after)
  | '\\' :: c :: rest => do
    let plain ← escaped? c
    let (more, after) ← marks rest
    some (.plain plain :: more, after)
  | c :: rest =>
    if c.toNat < 0x20 || c = '\\' then none
    else do
      let (more, after) ← marks rest
      some (.plain c :: more, after)

def number (text : List Char) : Json × Option (List Char) :=
  let (literal, rest) := text.span Numeral.isNumeralChar
  match Numeral.parse? literal with
  | none => (.null, none)
  | some n => (if n.isFinite then .number (String.ofList literal) else .unfit, some rest)

def word (name : List Char) (value : Json) (text : List Char) : Json × Option (List Char) :=
  match name.isPrefixOf? text with
  | some rest => (value, some rest)
  | none => (.null, none)

def asString : Option (List Char) → Json
  | some text => .string (String.ofList text)
  | none => .unfit

/-- The object of these members, up to the first key that is no text. -/
def asObject (members : List (Option String × Json)) : Json :=
  let before := members.takeWhile fun (key, _) => key.isSome
  let found := before.filterMap fun (key, value) => key.map (·, value)
  if before.length = members.length then .object found else .broken found

mutual

/-- The value at the start of the text and the text behind it, if the value is not cut short.
Every call is made on a shorter text, or on the same text in the reading of another part, so
twice the length of the text is fuel enough. -/
def readValue (fuel : Nat) (text : List Char) : Json × Option (List Char) :=
  match fuel with
  | 0 => (.null, none)
  | fuel + 1 =>
    match skipGaps text with
    | [] => (.null, none)
    | '"' :: rest =>
      match marks rest with
      | some (found, after) => (asString (spell found), some after)
      | none => (.null, none)
    | '[' :: rest =>
      match skipGaps rest with
      | ']' :: after => (.array [], some after)
      | more =>
        let (found, after) := readItems fuel more
        (.array found, after)
    | '\x7b' :: rest =>
      match skipGaps rest with
      | '\x7d' :: after => (.object [], some after)
      | more =>
        let (found, after) := readMembers fuel more
        (asObject found, after)
    | 'n' :: rest => word "ull".toList .null rest
    | 't' :: rest => word "rue".toList (.bool true) rest
    | 'f' :: rest => word "alse".toList (.bool false) rest
    | c :: rest => number (c :: rest)

def readItems (fuel : Nat) (text : List Char) : List Json × Option (List Char) :=
  match fuel with
  | 0 => ([], none)
  | fuel + 1 =>
    match readValue fuel text with
    | (first, none) => ([first], none)
    | (first, some after) =>
      match skipGaps after with
      | ',' :: rest =>
        let (more, final) := readItems fuel rest
        (first :: more, final)
      | ']' :: rest => ([first], some rest)
      | _ => ([first], none)

def readMembers (fuel : Nat) (text : List Char) :
    List (Option String × Json) × Option (List Char) :=
  match fuel with
  | 0 => ([], none)
  | fuel + 1 =>
    match skipGaps text with
    | '"' :: rest =>
      match marks rest with
      | none => ([], none)
      | some (found, after) =>
        let key := (spell found).map String.ofList
        match skipGaps after with
        | ':' :: rest =>
          match readValue fuel rest with
          | (first, none) => ([(key, first)], none)
          | (first, some after) =>
            match skipGaps after with
            | ',' :: rest =>
              let (more, final) := readMembers fuel rest
              ((key, first) :: more, final)
            | '\x7d' :: rest => ([(key, first)], some rest)
            | _ => ([(key, first)], none)
        | _ => ([(key, .null)], none)
    | _ => ([], none)

end

end Reader

def read (text : String) : Reading :=
  let chars := text.toList
  match Reader.readValue (2 * chars.length + 2) chars with
  | (value, some rest) => ⟨value, (Reader.skipGaps rest).isEmpty⟩
  | (value, none) => ⟨value, false⟩

end Realign.Json
