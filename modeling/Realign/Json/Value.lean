/-!
JSON values. Objects keep the order and the repetitions of their members, and a
number keeps its spelling, because nothing in this library computes with one.
A value may be well-formed text and still have no meaning: a number beyond every
double, a string holding half of a surrogate pair, or a value nested too deeply is
unfit, and an object with a key that is no text is broken from there on. Such
values can be passed over but not used.
-/
namespace Realign

inductive Json where
  | null
  | bool (value : Bool)
  | number (literal : String)
  | string (text : String)
  | array (items : List Json)
  | object (members : List (String × Json))
  /-- An object by its members before the first key that is no text. -/
  | broken (members : List (String × Json))
  | unfit
deriving Inhabited, Repr, BEq

namespace Json

def ofOption (f : α → Json) : Option α → Json
  | none => .null
  | some a => f a

def strings (texts : List String) : Json := .array (texts.map .string)

/-- The value of the last member of that name; every other value has no members. -/
def member? (name : String) : Json → Option Json
  | .object members => (members.findRev? fun entry => entry.1 == name).map Prod.snd
  | _ => none

mutual

/-- Whether nothing in the value is unfit or broken. -/
def isFit : Json → Bool
  | .unfit | .broken _ => false
  | .array items => allFit items
  | .object members => membersFit members
  | _ => true

def allFit : List Json → Bool
  | [] => true
  | item :: rest => isFit item && allFit rest

def membersFit : List (String × Json) → Bool
  | [] => true
  | (_, value) :: rest => isFit value && membersFit rest

end

mutual

/-- The value with every container unfit that lies deeper than so many levels. -/
def limited (levels : Nat) : Json → Json
  | .array items => match levels with
    | 0 => .unfit
    | levels + 1 => .array (limitedItems levels items)
  | .object members => match levels with
    | 0 => .unfit
    | levels + 1 => .object (limitedMembers levels members)
  | .broken members => match levels with
    | 0 => .unfit
    | levels + 1 => .broken (limitedMembers levels members)
  | other => other

def limitedItems (levels : Nat) : List Json → List Json
  | [] => []
  | item :: rest => limited levels item :: limitedItems levels rest

def limitedMembers (levels : Nat) : List (String × Json) → List (String × Json)
  | [] => []
  | (key, value) :: rest => (key, limited levels value) :: limitedMembers levels rest

end

end Json
end Realign
