import Realign.Json.Value

/-!
The two written forms of a JSON value: on one line, and spread over lines with
two blanks for each level. Quotes, backslashes and control characters are
escaped and every other character stands for itself; an empty array or object
stays on its line. Values without a meaning have no written form of their own and become null.
-/
namespace Realign.Json

def hexDigit (n : Nat) : Char := (Nat.toDigits 16 n).headD '0'

def escapeChar (c : Char) : List Char :=
  if c = '"' then ['\\', '"']
  else if c = '\\' then ['\\', '\\']
  else if c = '\n' then ['\\', 'n']
  else if c = '\t' then ['\\', 't']
  else if c = '\r' then ['\\', 'r']
  else if c = '\x08' then ['\\', 'b']
  else if c = '\x0c' then ['\\', 'f']
  else if c.toNat < 0x20 then
    ['\\', 'u', '0', '0', hexDigit (c.toNat / 16), hexDigit (c.toNat % 16)]
  else [c]

def quote (text : String) : String :=
  "\"" ++ String.ofList (text.toList.flatMap escapeChar) ++ "\""

mutual

def compact : Json → String
  | .null | .broken _ | .unfit => "null"
  | .bool value => if value then "true" else "false"
  | .number literal => literal
  | .string text => quote text
  | .array items => "[" ++ ",".intercalate (compactItems items) ++ "]"
  | .object members => "\x7b" ++ ",".intercalate (compactMembers members) ++ "\x7d"

def compactItems : List Json → List String
  | [] => []
  | item :: rest => compact item :: compactItems rest

def compactMembers : List (String × Json) → List String
  | [] => []
  | (key, value) :: rest => (quote key ++ ":" ++ compact value) :: compactMembers rest

end

/-- The lines between two brackets, each at its own level. -/
def bracketed (start stop : String) (level : Nat) (parts : List String) : String :=
  if parts.isEmpty then start ++ stop
  else
    let margin := String.ofList (List.replicate (2 * level) ' ')
    start ++ "\n" ++ ",\n".intercalate (parts.map (margin ++ "  " ++ ·)) ++ "\n" ++ margin ++ stop

mutual

def spread (level : Nat) : Json → String
  | .null | .broken _ | .unfit => "null"
  | .bool value => if value then "true" else "false"
  | .number literal => literal
  | .string text => quote text
  | .array items => bracketed "[" "]" level (spreadItems level items)
  | .object members => bracketed "\x7b" "\x7d" level (spreadMembers level members)

def spreadItems (level : Nat) : List Json → List String
  | [] => []
  | item :: rest => spread (level + 1) item :: spreadItems level rest

def spreadMembers (level : Nat) : List (String × Json) → List String
  | [] => []
  | (key, value) :: rest =>
    (quote key ++ ": " ++ spread (level + 1) value) :: spreadMembers level rest

end

def pretty (value : Json) : String := spread 0 value

end Realign.Json
