import AnfWasm.CommandLine.Basic

/-!
# The program `anfc`

The command line over the files of the machine.
-/

namespace AnfWasm.Main

/-- the cause of a failed operation, by its number where several share one name -/
def causeOf : IO.Error → FileError
  | .noFileOrDirectory _ _ _ => .notFound
  | .alreadyExists _ _ _ => .alreadyExists
  | .inappropriateType _ 20 _ => .notADirectory
  | .inappropriateType _ 21 _ => .isADirectory
  | .invalidArgument _ 36 _ => .nameTooLong
  | e => .other e.toString

def attempt {α : Type} (p : Path) (act : IO α) : IO (Except FileError α) := do
  if p.text.toList.contains '\x00' then return .error .nulInPath
  try
    return .ok (← act)
  catch e =>
    return .error (causeOf e)

instance : FileSystem IO where
  createNew p := attempt p do
    let _ ← IO.FS.Handle.mk p.text .writeNew
  write p content := attempt p (IO.FS.writeBinFile p.text ⟨content.toArray⟩)
  read p := attempt p do
    return (← IO.FS.readBinFile p.text).data.toList
  removeFile p := attempt p (IO.FS.removeFile p.text)
  makeDir p := attempt p (IO.FS.createDir p.text)
  isDir p := do
    match ← attempt p (IO.FS.realPath p.text) with
    | .ok found => found.isDir
    | .error _ => return false

end AnfWasm.Main

open AnfWasm in
def main (args : List String) : IO UInt32 := do
  let outcome ← (CommandLine.run args : IO CommandLine.Outcome)
  IO.print outcome.stdout
  IO.eprint outcome.stderr
  return outcome.exitCode
