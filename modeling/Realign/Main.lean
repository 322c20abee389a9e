import Realign.CommandLine.Program

/-!
The program on real files.
-/
namespace Realign.CommandLine

/-- The system's error by its kind, since its number and wording differ between operations. -/
def fileErrorOf : IO.Error → FileError
  | .noFileOrDirectory .. => .missing
  | .alreadyExists .. => .occupied
  | .inappropriateType _ _ details =>
    if details.toLower = "not a directory" then .notDirectory else .isDirectory
  | .permissionDenied .. => .denied
  | .invalidArgument .. => .nameTooLong
  | other => .other other.toString 5

def guarded (action : IO α) : IO (Except FileError α) := do
  try
    return .ok (← action)
  catch e =>
    return .error (fileErrorOf e)

def realFiles : Files IO where
  read path := guarded (IO.FS.readFile path)
  write path content := guarded (IO.FS.writeFile path content)
  createDirectories path :=
    if path = "" then return .ok () else guarded (IO.FS.createDirAll path)
  openLog path := guarded do
    let handle ← IO.FS.Handle.mk path .append
    return fun line => do
      try handle.putStrLn line catch _ => pure ()
  print := IO.print

end Realign.CommandLine

open Realign.CommandLine in
def main (arguments : List String) : IO UInt32 := do
  let env : Environment := ⟨← IO.getEnv "XDG_DATA_HOME", ← IO.getEnv "HOME"⟩
  let result ← run realFiles env arguments
  match result with
  | .failed failure => IO.eprintln failure.text
  | .usage => IO.eprint helpText
  | .done => pure ()
  return UInt32.ofNat result.code
