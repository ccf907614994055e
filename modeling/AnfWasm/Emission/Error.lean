import AnfWasm.Store.Error
import AnfWasm.Store.Path

/-!
# Why a module is not emitted
-/

namespace AnfWasm

inductive EmitError where
  /-- the output has no file name -/
  | invalidOutput (path : Path)
  | createDir (path : Path) (cause : FileError)
  /-- the lock marker is there already -/
  | collision (lock : Path)
  | lock (path : Path) (cause : FileError)
  | write (path : Path) (cause : FileError)
  /-- the module cannot be listed; the messages of the causes, the outermost first -/
  | render (path : Path) (causes : List String)
  /-- a name of the signature has more quotes in a row than can be counted -/
  | overflow
deriving DecidableEq

namespace EmitError

def message : EmitError → String
  | .invalidOutput p => "`" ++ p.text ++ "` does not name an output file"
  | .createDir p _ => "failed to create directory `" ++ p.text ++ "`"
  | .collision p =>
    "another compilation is writing the same output (lock marker `" ++ p.text ++ "` exists)"
  | .lock p _ => "failed to create lock marker `" ++ p.text ++ "`"
  | .write p _ => "failed to write `" ++ p.text ++ "`"
  | .render p causes => "failed to render `" ++ p.text ++ "`: " ++ ": ".intercalate causes
  | .overflow => "attempt to add with overflow"

/-- the error of the file operation that failed -/
def cause? : EmitError → Option FileError
  | .createDir _ e | .lock _ e | .write _ e => some e
  | .invalidOutput _ | .collision _ | .render _ _ | .overflow => none

/-- the message and the message of its cause, if it has one -/
def chain (e : EmitError) : List String :=
  e.message :: (e.cause?.map FileError.message).toList

end EmitError

end AnfWasm
