import Realign.Text.Cut

/-!
The arguments of the command line. Options may stand among the operands; a long
option takes its value after an equals sign or as the next argument, a short one
also directly behind its letter, and after a double hyphen everything is an operand.
The logging options may stand before or after the command, where the later place
wins. Anything that does not fit is a usage error.
-/
namespace Realign.CommandLine

open Text

/-- Where logs go: to a file that is named or left to the default, or to standard error. -/
structure Logging where
  file : Option (Option String) := none
  json : Bool := false
deriving DecidableEq, Repr

inductive Command where
  | align (session : String) (define : List (String × String)) (output : Option String)
  | compare (before after : String) (relocations : List String) (reportNonAligned : Bool)
deriving DecidableEq, Repr

structure Request where
  logging : Logging
  command : Command
deriving DecidableEq, Repr

/-- Why there is no command to run. -/
inductive Halt where
  | usage
  | help
  | version
deriving DecidableEq, Repr

namespace Arguments

structure Draft where
  logging : Logging := {}
  operands : List String := []
  define : List (String × String) := []
  output : Option String := none
  relocations : List String := []
  reportNonAligned : Bool := false

abbrev Step := Except Halt Draft

/-- What an option does; `optional` takes a value only after an equals sign. -/
inductive Effect where
  | halt (h : Halt)
  | flag (set : Draft → Step)
  | value (set : String → Draft → Step)
  | optional (set : Option String → Draft → Step)

structure Options where
  long : String → Option Effect
  short : Char → Option Effect

/-- An option that may not be repeated. -/
def once (already : Bool) (d : Draft) : Step := if already then .error .usage else .ok d

/-- A path is never empty. -/
def path (text : String) : Except Halt String := if text = "" then .error .usage else .ok text

def definition (text : String) : Except Halt (String × String) :=
  match cutAt '=' text.toList with
  | some (key, value) =>
    let key := trim key
    if key = [] then .error .usage else .ok (String.ofList key, String.ofList value)
  | none => .error .usage

def setLogFile (value : Option String) (d : Draft) : Step := do
  let file ← value.mapM path
  once d.logging.file.isSome { d with logging.file := some file }

def setJson (d : Draft) : Step := once d.logging.json { d with logging.json := true }

def logOption (name : String) : Option Effect :=
  if name = "log-file" then some (.optional setLogFile)
  else if name = "json-logs" then some (.flag setJson)
  else if name = "help" then some (.halt .help)
  else none

def helpLetter (c : Char) : Option Effect := if c = 'h' then some (.halt .help) else none

def topOptions : Options where
  long name := if name = "version" then some (.halt .version) else logOption name
  short c := if c = 'V' then some (.halt .version) else helpLetter c

def setDefine (value : String) (d : Draft) : Step := do
  return { d with define := d.define ++ [← definition value] }

def setOutput (value : String) (d : Draft) : Step := do
  once d.output.isSome { d with output := some (← path value) }

def alignOptions : Options where
  long name := if name = "output" then some (.value setOutput) else logOption name
  short c := if c = 'D' then some (.value setDefine) else helpLetter c

def setRelocation (value : String) (d : Draft) : Step :=
  .ok { d with relocations := d.relocations ++ [value] }

def setReportNonAligned (d : Draft) : Step :=
  once d.reportNonAligned { d with reportNonAligned := true }

def compareOptions : Options where
  long name :=
    if name = "relocation" then some (.value setRelocation)
    else if name = "report-non-aligned" then some (.flag setReportNonAligned)
    else logOption name
  short := helpLetter

inductive Token where
  | operand
  | endOfOptions
  | long (name : String) (value : Option String)
  | short (letters : List Char)

def Token.of (argument : String) : Token :=
  match argument.toList with
  | ['-', '-'] => .endOfOptions
  | '-' :: '-' :: rest =>
    match cutAt '=' rest with
    | some (name, value) => .long (String.ofList name) (some (String.ofList value))
    | none => .long (String.ofList rest) none
  | '-' :: c :: rest => .short (c :: rest)
  | _ => .operand

/-- A draft, or the use of the next argument as the value of an option. -/
inductive Progress where
  | ready (d : Draft)
  | awaits (set : String → Step)

def applyLong (options : Options) (name : String) (value : Option String) (d : Draft) :
    Except Halt Progress :=
  match options.long name, value with
  | none, _ => .error .usage
  | some (.halt h), none => .error h
  | some (.halt _), some _ => .error .usage
  | some (.flag set), none => do return .ready (← set d)
  | some (.flag _), some _ => .error .usage
  | some (.optional set), value => do return .ready (← set value d)
  | some (.value set), some value => do return .ready (← set value d)
  | some (.value set), none => .ok (.awaits fun value => set value d)

/-- The value behind a letter, with or without an equals sign between them. -/
def attached? : List Char → Option String
  | [] => none
  | '=' :: rest => some (String.ofList rest)
  | rest => some (String.ofList rest)

def applyShort (options : Options) : List Char → Draft → Except Halt Progress
  | [], d => .ok (.ready d)
  | c :: rest, d =>
    match options.short c with
    | none => .error .usage
    | some (.halt h) => .error h
    | some (.flag set) => do applyShort options rest (← set d)
    | some (.optional set) => do return .ready (← set (attached? rest) d)
    | some (.value set) =>
      match attached? rest with
      | some value => do return .ready (← set value d)
      | none => .ok (.awaits fun value => set value d)

def addOperand (argument : String) (d : Draft) : Draft :=
  { d with operands := d.operands ++ [argument] }

/-- The draft of a command: `limit` operands at most. -/
def readCommand (options : Options) (limit : Nat) (optionsEnded : Bool) :
    Progress → List String → Step
  | .ready d, [] => .ok d
  | .awaits _, [] => .error .usage
  | .awaits set, argument :: rest =>
    match Token.of argument with
    | .operand => do readCommand options limit optionsEnded (.ready (← set argument)) rest
    | _ => .error .usage
  | .ready d, argument :: rest =>
    let takeOperand :=
      if argument = "" ∨ limit ≤ d.operands.length then .error .usage
      else readCommand options limit optionsEnded (.ready (addOperand argument d)) rest
    if optionsEnded then takeOperand
    else match Token.of argument with
      | .operand => takeOperand
      | .endOfOptions => readCommand options limit true (.ready d) rest
      | .long name value => do
        readCommand options limit false (← applyLong options name value d) rest
      | .short letters => do readCommand options limit false (← applyShort options letters d) rest

def overlay (top own : Logging) : Logging where
  file := own.file <|> top.file
  json := own.json || top.json

def finish (top : Logging) (d : Draft) (command : Command) : Request :=
  ⟨overlay top d.logging, command⟩

def readAlign (top : Logging) (arguments : List String) : Except Halt Request := do
  let d ← readCommand alignOptions 1 false (.ready {}) arguments
  match d.operands with
  | [session] => return finish top d (.align session d.define d.output)
  | _ => .error .usage

def readCompare (top : Logging) (arguments : List String) : Except Halt Request := do
  let d ← readCommand compareOptions 2 false (.ready {}) arguments
  match d.operands with
  | [before, after] => return finish top d (.compare before after d.relocations d.reportNonAligned)
  | _ => .error .usage

/-- The help command names at most one of the commands. -/
def readHelp : List String → Halt
  | [] | ["align"] | ["compare"] | ["help"] => .help
  | _ => .usage

def readTop (d : Draft) : List String → Except Halt Request
  | [] => .error .usage
  | argument :: rest =>
    match Token.of argument with
    | .operand =>
      if argument = "align" then readAlign d.logging rest
      else if argument = "compare" then readCompare d.logging rest
      else if argument = "help" then .error (readHelp rest)
      else .error .usage
    | .endOfOptions => .error .usage
    | .long name value => do
      match ← applyLong topOptions name value d with
      | .ready d => readTop d rest
      | .awaits _ => .error .usage
    | .short letters => do
      match ← applyShort topOptions letters d with
      | .ready d => readTop d rest
      | .awaits _ => .error .usage

end Arguments

def parse (arguments : List String) : Except Halt Request := Arguments.readTop {} arguments

end Realign.CommandLine
