import Realign.CommandLine.Program
import Realign.Table

/-!
A tree of files in memory with a working directory. It keeps what was printed, so
the program can be run on it and looked at afterwards. Paths lead through the tree
part by part: every part but the last has to name a directory, the root is its own
parent, and no name is longer than 255 bytes and no path than 4095. Besides
directories and files there are devices, which keep nothing.
-/
namespace Realign.CommandLine

inductive Device where
  /-- It takes whatever is written to it. -/
  | sink
  /-- It has no room for anything. -/
  | full
  /-- What is written to it is printed. -/
  | terminal
deriving DecidableEq, Repr

inductive Node where
  | directory
  | file (content : String)
  | device (d : Device)
deriving DecidableEq, Repr

/-- The nodes by their path from the root, which is a directory itself. -/
structure FileTree where
  nodes : Table (List String) Node := .empty
  here : List String := []
  printed : String := ""

namespace FileTree

def longestName : Nat := 255

def longestPath : Nat := 4095

def node? (t : FileTree) (path : List String) : Option Node :=
  if path = [] then some .directory else t.nodes.get? path

def put (t : FileTree) (path : List String) (node : Node) : FileTree :=
  { t with nodes := t.nodes.insert path node }

/-- The node of a name in a directory. -/
def child (t : FileTree) (directory : List String) (name : String) : Except FileError Node :=
  if longestName < name.utf8ByteSize then .error .nameTooLong
  else match t.node? (directory ++ [name]) with
    | some node => .ok node
    | none => .error .missing

/-- Where a path leads before its last part is looked up: to a directory, or to a name in one,
with a slash behind it or not. -/
inductive Place where
  | directory (path : List String)
  | name (directory : List String) (name : String) (slash : Bool)
deriving DecidableEq, Repr

def walk (t : FileTree) (start : List String) : List String → Except FileError Place
  | [] => .ok (.directory start)
  | part :: rest =>
    if part = "" ∨ part = "." then walk t start rest
    else if part = ".." then walk t start.dropLast rest
    else if rest.all (· = "") then .ok (.name start part (!rest.isEmpty))
    else do
      match ← t.child start part with
      | .directory => walk t (start ++ [part]) rest
      | _ => .error .notDirectory

def parts (path : String) : List String := (Text.piecesAt '/' path.toList).map String.ofList

def place (t : FileTree) (path : String) : Except FileError Place :=
  if path = "" then .error .missing
  else if longestPath < path.utf8ByteSize then .error .nameTooLong
  else t.walk (if path.toList.head? = some '/' then [] else t.here) (parts path)

def isDirectory (t : FileTree) (path : String) : Bool :=
  match t.place path with
  | .ok (.directory _) => true
  | .ok (.name directory name _) => match t.child directory name with
    | .ok .directory => true
    | _ => false
  | .error _ => false

def read (path : String) (t : FileTree) : Except FileError String := do
  match ← t.place path with
  | .directory _ => .error .isDirectory
  | .name directory name slash =>
    match ← t.child directory name with
    | .directory => .error .isDirectory
    | node =>
      if slash then .error .notDirectory
      else match node with
        | .file content => .ok content
        | _ => .ok ""

/-- The path of a file or device that is to be written, which need not be there yet. -/
def open? (path : String) (t : FileTree) : Except FileError (List String) := do
  match ← t.place path with
  | .directory _ => .error .isDirectory
  | .name directory name slash =>
    if slash then .error .isDirectory
    else match t.child directory name with
      | .ok .directory => .error .isDirectory
      | .ok _ | .error .missing => .ok (directory ++ [name])
      | .error e => .error e

/-- The tree after writing to what is at a path; `change` makes the new content of a file. -/
def fill (t : FileTree) (path : List String) (change : String → String) :
    Except FileError FileTree :=
  match t.node? path with
  | some (.device .sink) => .ok t
  | some (.device .full) => .error .noSpace
  | some (.device .terminal) => .ok { t with printed := t.printed ++ change "" }
  | some (.file content) => .ok (t.put path (.file (change content)))
  | _ => .ok (t.put path (.file (change "")))

def write (path content : String) (t : FileTree) : Except FileError FileTree := do
  t.fill (← t.open? path) fun _ => content

def createDirectory (path : String) (t : FileTree) : Except FileError FileTree := do
  match ← t.place path with
  | .directory _ => .error .occupied
  | .name directory name _ =>
    match t.child directory name with
    | .ok _ => .error .occupied
    | .error .missing => .ok (t.put (directory ++ [name]) .directory)
    | .error e => .error e

/-- The tree with the first directory of a list whose others lie above it, the nearest first. -/
def createFirst (t : FileTree) : List String → Except FileError FileTree
  | [] => .ok t
  | path :: above =>
    match t.createDirectory path with
    | .ok created => .ok created
    | .error e =>
      if t.isDirectory path then .ok t
      else if e = .missing then do
        let t ← t.createFirst above
        if t.isDirectory path then return t else t.createDirectory path
      else .error e

def createDirectories (path : String) (t : FileTree) : Except FileError FileTree :=
  t.createFirst (FilePath.ancestors path)

/-- A change that may fail and then leaves the tree as it was. -/
def change (f : FileTree → Except FileError FileTree) : StateM FileTree (Except FileError Unit) :=
  fun t => match f t with
    | .ok changed => (.ok (), changed)
    | .error e => (.error e, t)

/-- A log is created empty and then grows line by line. -/
def openLog (path : String) : StateM FileTree (Except FileError (String → StateM FileTree Unit)) :=
  fun t => match t.open? path with
    | .error e => (.error e, t)
    | .ok found =>
      let append (line : String) : StateM FileTree Unit := do
        let _ ← change fun t => t.fill found (· ++ line ++ "\n")
      let opened := match t.node? found with
        | none => t.put found (.file "")
        | some _ => t
      (.ok append, opened)

def files : Files (StateM FileTree) where
  read path := do return read path (← get)
  write path content := change (write path content)
  createDirectories path := change (createDirectories path)
  openLog := openLog
  print text := modify fun t => { t with printed := t.printed ++ text }

end FileTree
end Realign.CommandLine
