import Bytecode.CommandLine

/-!
The program: `CommandLine.run` on the files of the machine.
-/
namespace Bytecode.Program

/-- Why an access to a file failed. The numbers are those of the system for a directory, and for a
file where a directory is needed. -/
def fileError : IO.Error → FileError
  | .inappropriateType _ code _ =>
    if code == 21 then .isDirectory else .notDirectory
  | _ => .missing

def read (path : String) : IO (Except FileError Utf8Text) := do
  try
    let bytes ← IO.FS.readBinFile path
    return .ok (.ofBytes bytes.toList)
  catch e => return .error (fileError e)

def files (directory : String) : FileSystem IO where
  directory
  read
  write path content := do
    try
      IO.FS.writeBinFile path ⟨content.bytes.toArray⟩
      return .ok ()
    catch e => return .error (fileError e)
  present path := do
    match ← read path with
    | .ok _ | .error .isDirectory => return true
    | .error _ => return false
  makeDirectory path := do
    try
      IO.FS.createDirAll path
      return true
    catch _ => return false

/-- A random identifier of a run: 32 hexadecimal digits in five groups, two of which are marked. -/
def newRunId : IO String := do
  let group (width : Nat) : IO String := do
    return Text.hexDigits width (← IO.rand 0 (Nat.pow 16 width - 1))
  let marked := Text.hexDigits 4 (0x8000 + (← IO.rand 0 0x3fff))
  return (← group 8) ++ "-" ++ (← group 4) ++ "-4" ++ (← group 3) ++ "-" ++ marked ++ "-" ++
    (← group 12)

end Bytecode.Program

def main (arguments : List String) : IO UInt32 := do
  let directory := (← IO.currentDir).toString
  let seconds := (← IO.monoMsNow) / 1000
  let outcome ← Bytecode.CommandLine.run (Bytecode.Program.files directory)
    (← Bytecode.Program.newRunId) seconds arguments
  (← IO.getStdout).write ⟨outcome.output.bytes.toArray⟩
  (← IO.getStderr).write ⟨outcome.errors.bytes.toArray⟩
  return outcome.exit.toUInt32
