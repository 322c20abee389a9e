/-!
The numerals of JSON and which of them a double can hold. The digits of a numeral
are read into a significand as long as it stays below 2^64; whole digits that no
longer fit count as zeros and such fractional digits do not count. The significand
and the power of ten are rounded to doubles each and so is their product, and a
numeral whose product is too large has no value.
-/
namespace Realign.Json

structure Numeral where
  whole : List Char
  fraction : List Char
  exponentNegative : Bool
  exponent : List Char
deriving DecidableEq, Repr

namespace Numeral

def isNumeralChar (c : Char) : Bool :=
  c.isDigit || c = '-' || c = '+' || c = '.' || c = 'e' || c = 'E'

/-- A run of at least one digit. -/
def digits? (text : List Char) : Option (List Char × List Char) :=
  let (run, rest) := text.span Char.isDigit
  if run.isEmpty then none else some (run, rest)

def fraction? : List Char → Option (List Char × List Char)
  | '.' :: rest => digits? rest
  | rest => some ([], rest)

def exponent? : List Char → Option (Bool × List Char × List Char)
  | c :: rest =>
    if c = 'e' || c = 'E' then
      match rest with
      | '+' :: more => (digits? more).map (false, ·)
      | '-' :: more => (digits? more).map (true, ·)
      | more => (digits? more).map (false, ·)
    else some (false, [], c :: rest)
  | [] => some (false, [], [])

/-- A numeral, which has no needless zero in front; its sign is not kept. -/
def parse? (text : List Char) : Option Numeral := do
  let body := match text with
    | '-' :: rest => rest
    | rest => rest
  let (whole, rest) ← digits? body
  if whole.length > 1 && whole.head? = some '0' then none
  else do
    let (fraction, rest) ← fraction? rest
    let (exponentNegative, exponent, rest) ← exponent? rest
    if rest.isEmpty then some ⟨whole, fraction, exponentNegative, exponent⟩ else none

def digitValue (c : Char) : Nat := c.toNat - '0'.toNat

def decimalValue (digits : List Char) : Nat := digits.foldl (fun n c => n * 10 + digitValue c) 0

def significandBound : Nat := 0x10000000000000000

/-- The significand with the digits that fit appended, and how many do not. -/
def appendDigits (significand : Nat) : List Char → Nat × Nat
  | [] => (significand, 0)
  | c :: rest =>
    let longer := significand * 10 + digitValue c
    if longer < significandBound then appendDigits longer rest
    else (significand, rest.length + 1)

/-- The significand and the power of ten that it is multiplied by. -/
def scaled (n : Numeral) : Nat × Int :=
  let (whole, dropped) := appendDigits 0 n.whole
  let (significand, ignored) := appendDigits whole n.fraction
  let exponent : Int := decimalValue n.exponent
  (significand,
    dropped - (n.fraction.length - ignored : Nat)
      + if n.exponentNegative then -exponent else exponent)

/-- The nearest number of 53 binary digits and then zeros, a half going to the even one. -/
def nearestDouble (n : Nat) : Nat :=
  let unit := Nat.pow 2 (n.log2 - 52)
  let steps := n / unit
  let rest := n % unit
  if unit < 2 * rest || (unit = 2 * rest && steps % 2 = 1) then (steps + 1) * unit
  else steps * unit

def doubleBound : Nat := Nat.pow 2 1024

/-- The largest power of ten that is a double. -/
def largestPower : Nat := 308

def isFinite (n : Numeral) : Bool :=
  match n.scaled with
  | (0, _) => true
  | (_, .negSucc _) => true
  | (significand, .ofNat power) =>
    power ≤ largestPower &&
      nearestDouble (nearestDouble significand * nearestDouble (Nat.pow 10 power)) < doubleBound

end Numeral
end Realign.Json
