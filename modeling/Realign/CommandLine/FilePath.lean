import Realign.Text.Cut

/-!
File paths as they are written on the command line. Repeated and final slashes and
single points inside a path do not count; a leading point does.
-/
namespace Realign.CommandLine.FilePath

open Text

def isIdle (piece : List Char) : Bool := piece = [] || piece = ['.']

/-- The pieces of a path up to the last one that counts, whether it starts at the root or not. -/
def pieces (path : List Char) : Bool × List (List Char) :=
  match piecesAt '/' path with
  | [] :: rest => (true, (rest.reverse.dropWhile isIdle).reverse)
  | first :: rest => (false, first :: (rest.reverse.dropWhile isIdle).reverse)
  | [] => (false, [])

def dropIdleEnd : List (List Char) → List (List Char)
  | [] => []
  | first :: rest => first :: (rest.reverse.dropWhile isIdle).reverse

def join (pieces : List (List Char)) : String := String.ofList (['/'].intercalate pieces)

/-- The directory of the file that a path names; the root has none. -/
def parent? (path : String) : Option String :=
  match pieces path.toList with
  | (true, []) => none
  | (true, parts) => some ("/" ++ join (parts.dropLast.reverse.dropWhile isIdle).reverse)
  | (false, parts) => some (join (dropIdleEnd parts.dropLast))

/-- The last piece of a path, unless that leads to a directory itself. -/
def fileName? (path : String) : Option String :=
  match (pieces path.toList).2.getLast? with
  | some name => if name = ['.'] ∨ name = ['.', '.'] ∨ name = [] then none
    else some (String.ofList name)
  | none => none

/-- A path and the directories above it, as far as the path names them; every step is shorter. -/
def ancestorsWithin : Nat → String → List String
  | 0, _ => []
  | steps + 1, path =>
    if path = "" then []
    else path :: match parent? path with
      | some parent => ancestorsWithin steps parent
      | none => []

def ancestors (path : String) : List String := ancestorsWithin (path.length + 1) path

def joined (directory name : String) : String :=
  if directory = "" then name else directory ++ "/" ++ name

end Realign.CommandLine.FilePath
