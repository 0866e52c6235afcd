import CilPolicy.CommandLine.Run

/-!
The program: the command line over the files of the system.
-/

namespace CilPolicy

/-- The refusal behind an error of the system. -/
def faultOf : IO.Error → FileFault
  | .noFileOrDirectory .. => .missing
  | .alreadyExists .. => .occupied
  | .resourceBusy .. => .busy
  | .inappropriateType _ code _ =>
    if code == 21 || code + 21 == 0 then .isDirectory else .notDirectory
  | other => .system (toString other)

/-- An action of the system with its refusal as a value. -/
def attempt (action : IO α) : IO (Except FileFault α) := do
  try
    return .ok (← action)
  catch e =>
    return .error (faultOf e)

def readBytes (path : String) : IO Bytes := do
  return (← IO.FS.readBinFile path).toList

/-- Writes beside the place of the file and then moves there. -/
def replaceFile (path : String) (bytes : Bytes) : IO Unit := do
  let stage := Path.join ((Path.parent? path).getD "") ".secilc-output"
  IO.FS.writeBinFile stage ⟨bytes.toArray⟩
  try
    IO.FS.rename stage path
  catch e =>
    IO.FS.removeFile stage
    throw e

instance : FileSystem IO where
  kind? path := do
    match ← attempt (readBytes path) with
    | .ok _ => return some .file
    | .error .isDirectory => return some .directory
    | .error _ => return none
  read path := attempt (readBytes path)
  makeDirectory path := attempt (IO.FS.createDir path)
  replace path bytes := attempt (replaceFile path bytes)

/-- A file of the system as text, or nothing. -/
def systemText (path : String) : IO String := do
  match ← attempt (readBytes path) with
  | .ok bytes => return Text.ofUtf8Lossy bytes
  | .error _ => return ""

/-- The variables of the environment. -/
def environmentVariables : IO (List (String × String)) := do
  let text ← systemText "/proc/self/environ"
  return (text.splitOn "\x00").filterMap fun item =>
    match item.splitOn "=" with
    | name :: value :: more => some (name, "=".intercalate (value :: more))
    | _ => none

/-- The architecture of the processor. -/
def machineName : IO String := do
  let text := (← systemText "/proc/sys/kernel/arch").trimAscii.toString
  return if text.isEmpty then "unknown" else text

/-- Runs the command line and shows what it leaves; the answer is the exit code. -/
def runProgram (args : List String) : IO UInt32 := do
  let directory := (← IO.currentDir).toString
  let entries ← environmentVariables
  let machine ← machineName
  let outcome ← CommandLine.run { directory, entries, machine } args
  IO.print outcome.stdout
  IO.eprint outcome.stderr
  return UInt32.ofNat outcome.code

end CilPolicy

def main (args : List String) : IO UInt32 :=
  CilPolicy.runProgram args
