import AnfWasm.Bytes
import AnfWasm.Store.Error
import AnfWasm.Store.Path

/-!
# File systems

`FileSystem m` says that actions of `m` can work on files.  What the compiler does with files is
written once for all of them; `AnfWasm.Store.Files` is the one to reason about.
-/

namespace AnfWasm

class FileSystem (m : Type → Type) where
  /-- makes an empty file where nothing was before -/
  createNew : Path → m (Except FileError Unit)
  /-- makes a file or replaces its content -/
  write : Path → Bytes → m (Except FileError Unit)
  read : Path → m (Except FileError Bytes)
  removeFile : Path → m (Except FileError Unit)
  makeDir : Path → m (Except FileError Unit)
  isDir : Path → m Bool

namespace FileSystem

variable {m : Type → Type} [Monad m] [FileSystem m]

/-- keeps an error unless the path is a directory after all -/
def unlessDir (p : Path) (e : FileError) : m (Except FileError Unit) := do
  if ← isDir p then return .ok () else return .error e

/-- Makes the first of a chain of directories, and those after it that it needs. -/
def makeChain : List Path → m (Except FileError Unit)
  | [] => return .error (.other "failed to create whole tree")
  | p :: above => do
    if p.text.isEmpty then return .ok ()
    match ← makeDir p with
    | .ok () => return .ok ()
    | .error .notFound =>
      match ← makeChain above with
      | .error e => return .error e
      | .ok () =>
        match ← makeDir p with
        | .ok () => return .ok ()
        | .error e => unlessDir p e
    | .error e => unlessDir p e

/-- makes a directory and those above it -/
def makeDirs (p : Path) : m (Except FileError Unit) := makeChain p.ancestors

def readText (p : Path) : m (Except FileError String) := do
  match ← read p with
  | .error e => return .error e
  | .ok bs => match utf8? bs with
    | some s => return .ok s
    | none => return .error .notText

end FileSystem

end AnfWasm
