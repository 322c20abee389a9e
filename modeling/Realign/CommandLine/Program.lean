import Realign.Alignment.Journal
import Realign.CommandLine.Arguments
import Realign.CommandLine.FilePath
import Realign.Json.Printer
import Realign.Report
import Realign.Session

/-!
The two commands. To align is to read a session, align its modules, print what
changed and write the aligned modules if an output is named; to compare is to print
the differences of two module documents. Logging is set up first, and the log gets
a line for whatever is done, noticed or reported. The program asks
for files and output through a record of operations in any monad, so it runs on real
files and on a tree of files in memory alike; the first failure ends it.
-/
namespace Realign.CommandLine

/-- Why a file operation failed. -/
inductive FileError where
  | missing
  | denied
  | occupied
  | notDirectory
  | isDirectory
  | noSpace
  | nameTooLong
  | other (description : String) (code : Nat)
deriving DecidableEq, Repr

namespace FileError

/-- What the system calls the error, and its number. -/
def described : FileError → String × Nat
  | .missing => ("No such file or directory", 2)
  | .denied => ("Permission denied", 13)
  | .occupied => ("File exists", 17)
  | .notDirectory => ("Not a directory", 20)
  | .isDirectory => ("Is a directory", 21)
  | .noSpace => ("No space left on device", 28)
  | .nameTooLong => ("File name too long", 36)
  | .other description code => (description, code)

def message (e : FileError) : String :=
  e.described.1 ++ " (os error " ++ toString e.described.2 ++ ")"

end FileError

/-- The operations that the program asks for. An opened log is the operation that adds a line. -/
structure Files (m : Type → Type) where
  read : String → m (Except FileError String)
  write : String → String → m (Except FileError Unit)
  createDirectories : String → m (Except FileError Unit)
  openLog : String → m (Except FileError (String → m Unit))
  print : String → m Unit

/-- The directories that the default log file depends on. -/
structure Environment where
  dataHome : Option String
  home : Option String

inductive Failure where
  | file (path : String) (e : FileError)
  | document (e : DocumentError)
  | policy (e : PolicyError)
  | relocation (e : RelocationError)
  | forest (e : ForestError)
  | alignment (path : String) (e : AlignError)
  | logDirectory (path : String) (e : FileError)
  | logName
  | logFile (e : FileError)
deriving DecidableEq, Repr

namespace Failure

def message : Failure → String
  | .file path e => "Failed to access " ++ path ++ ": " ++ e.message
  | .document e => "Invalid session JSON" ++ match e.message? with
    | some message => ": " ++ message
    | none => ""
  | .policy e => e.message
  | .relocation e => e.message
  | .forest e => e.message
  | .alignment path _ => "alignment of " ++ path ++ " failed"
  | .logDirectory path _ => "cannot create log directory " ++ path
  | .logName => "log file path has no file name"
  | .logFile e => "initializing rolling file appender failed: " ++ e.message

def cause? : Failure → Option String
  | .file _ e => some e.message
  | .document e => e.message?
  | .alignment _ e => some e.message
  | .logDirectory _ e => some e.message
  | _ => none

def indented (text : String) : String :=
  String.ofList (text.toList.flatMap fun c =>
    if c = '\n' then ['\n', ' ', ' ', ' ', ' '] else [c])

/-- The failure as it is shown, with its cause on a paragraph of its own. -/
def text (f : Failure) : String :=
  "Error: " ++ f.message ++ match f.cause? with
    | some cause => "\n\nCaused by:\n    " ++ indented cause
    | none => ""

/-- A log file that cannot be opened is beyond what the program reports. -/
def exitCode : Failure → Nat
  | .logFile _ => 101
  | _ => 1

end Failure

inductive Exit where
  | done
  | usage
  | failed (f : Failure)
deriving DecidableEq, Repr

def Exit.code : Exit → Nat
  | .done => 0
  | .usage => 2
  | .failed f => f.exitCode

def programName : String := "version-align"

def versionText : String := programName ++ " 0.1.0\n"

def helpText : String :=
  "Align dependency and plugin versions across a multi-module build\n\n" ++
  "Usage: " ++ programName ++ " [OPTIONS] <COMMAND>\n\n" ++
  "Commands:\n" ++
  "  align <SESSION> [-D <KEY=VALUE>]... [--output <OUTPUT>]\n" ++
  "  compare <BEFORE> <AFTER> [--relocation <RULE>]... [--report-non-aligned]\n" ++
  "  help [COMMAND]\n\n" ++
  "Options:\n" ++
  "  --log-file[=<LOG_FILE>]  Write logs to a file instead of stderr\n" ++
  "  --json-logs              Emit logs as JSON\n" ++
  "  -h, --help               Print help\n" ++
  "  -V, --version            Print version\n"

/-- The directory for data: the given one, or the usual one at home, or the current one. -/
def Environment.defaultLog (env : Environment) : String :=
  let base := match env.dataHome, env.home with
    | some dataHome, _ => dataHome
    | none, some home => FilePath.joined home ".local/share"
    | none, none => "."
  FilePath.joined (FilePath.joined base programName) (programName ++ ".log")

section

variable {m : Type → Type} [Monad m]

abbrev Run (m : Type → Type) (α : Type) : Type := ExceptT Failure m α

def attempt (failure : ε → Failure) (result : Except ε α) : Run m α :=
  ExceptT.mk (pure (result.mapError failure))

def perform (failure : FileError → Failure) (action : m (Except FileError α)) : Run m α :=
  ExceptT.mk do return (← action).mapError failure

def Files.load (files : Files m) (path : String) : Run m String :=
  perform (.file path) (files.read path)

/-- The operation that adds a line to the log, if one is kept. -/
def startLog (files : Files m) (env : Environment) (logging : Logging) :
    Run m (String → m Unit) := do
  match logging.file with
  | none => return fun _ => pure ()
  | some given =>
    let path := given.getD env.defaultLog
    let directory := (FilePath.parent? path).getD "."
    perform (.logDirectory directory) (files.createDirectories directory)
    match FilePath.fileName? path with
    | none => throw .logName
    | some name => perform .logFile (files.openLog (FilePath.joined directory name))

def addLines (log : String → m Unit) (lines : List String) : Run m Unit :=
  ExceptT.lift (lines.forM log)

def conflictLines (rules : List String) : List String :=
  (RelocationTable.conflictsAmong rules).map fun rule =>
    "Relocation " ++ rule.toString ++ " conflicts with others of its group"

/-- The lines of a report and of the versions that it could not resolve. -/
def reportLines (p : Policy) (table : RelocationTable) (before after : List Module) :
    List String :=
  (Report.unresolved p table before after).map ("Unable to resolve " ++ ·)
    ++ (Report.compare p table before after).modules.map ModuleReport.toString

def runAlign (files : Files m) (log : String → m Unit) (path : String)
    (define : List (String × String)) (output : Option String) : Run m Unit := do
  let session ← attempt .document (Session.parse (← files.load path))
  let policy ← attempt .policy (session.policy.setAll define)
  addLines log (conflictLines session.relocations)
  let relocations ← attempt .relocation session.relocationTable
  let forest ← attempt .forest session.forest
  let (state, fault) := Alignment.run ⟨policy, session.targets, relocations⟩ forest
  addLines log state.lines
  match fault with
  | some e => throw (.alignment path e)
  | none =>
    addLines log [Alignment.finishedLine state]
    let aligned := state.forest.modules
    let report := Report.compare policy relocations session.modules aligned
    addLines log (reportLines policy relocations session.modules aligned)
    ExceptT.lift (files.print report.toString)
    match output with
    | none => return
    | some output =>
      perform (.file output) (files.write output (Module.listToJson aligned).pretty)

def runCompare (files : Files m) (log : String → m Unit) (before after : String)
    (rules : List String) (reportNonAligned : Bool) : Run m Unit := do
  addLines log (conflictLines rules)
  let relocations ← attempt .relocation (RelocationTable.parse rules)
  let old ← attempt .document (Module.parseList (← files.load before))
  let new ← attempt .document (Module.parseList (← files.load after))
  let report := Report.compare { reportNonAligned } relocations old new
  addLines log (reportLines { reportNonAligned } relocations old new)
  ExceptT.lift (files.print report.toString)

def runRequest (files : Files m) (env : Environment) (request : Request) : Run m Unit := do
  let log ← startLog files env request.logging
  match request.command with
  | .align session define output => runAlign files log session define output
  | .compare before after rules reportNonAligned =>
    runCompare files log before after rules reportNonAligned

def run (files : Files m) (env : Environment) (arguments : List String) : m Exit := do
  match parse arguments with
  | .error .usage => return .usage
  | .error .version => files.print versionText; return .done
  | .error .help => files.print helpText; return .done
  | .ok request =>
    match ← (runRequest files env request).run with
    | .ok () => return .done
    | .error failure => return .failed failure

end

end Realign.CommandLine
