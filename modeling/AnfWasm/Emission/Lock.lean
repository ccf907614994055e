import AnfWasm.Emission.Error
import AnfWasm.Log
import AnfWasm.Store.FileSystem

/-!
# Lock markers

A lock marker is a file that says that someone works on an output.  Only one can be made under a
path at a time, and `holding` removes it again whether the work succeeds or fails.  `Held` keeps
markers for longer, under the names of those who hold them.
-/

namespace AnfWasm

/-- actions that emit files: they speak, and they may fail -/
abbrev Emitting (m : Type → Type) := ExceptT EmitError (Log.Speaking m)

namespace Lock

variable {m : Type → Type} [Monad m] [FileSystem m]

def acquire (p : Path) : Emitting m Unit := do
  match ← (FileSystem.createNew p : m _) with
  | .ok () => Log.say .debug .lock ("acquired lock marker `" ++ p.text ++ "`")
  | .error .alreadyExists => throw (.collision p)
  | .error e => throw (.lock p e)

/-- a marker that cannot be removed is not an error -/
def release (p : Path) : Log.Speaking m Unit := do
  match ← (FileSystem.removeFile p : m _) with
  | .ok () => Log.say .debug .lock ("released lock marker `" ++ p.text ++ "`")
  | .error e =>
    Log.say .warn .lock ("failed to remove lock marker `" ++ p.text ++ "`: " ++ e.message)

/-- work under a marker -/
def holding {α : Type} (p : Path) (work : Emitting m α) : Emitting m α := do
  acquire p
  ExceptT.mk do
    let result ← work.run
    release p
    return result

/-- markers under the names of their holders -/
abbrev Held := List (String × Path)

def Held.erase (held : Held) (holder : String) : Held := held.filter (·.1 != holder)

/-- releases the marker of a holder, if there is one -/
def Held.drop (held : Held) (holder : String) : Log.Speaking m Held := do
  match held.lookup holder with
  | some p =>
    release p
    return held.erase holder
  | none => return held

/-- acquires a marker for a holder, who then gives up the one held before -/
def Held.take (held : Held) (holder : String) (p : Path) : Emitting m Held := do
  acquire p
  let held ← (held.drop holder : Log.Speaking m Held)
  return (holder, p) :: held

end Lock

end AnfWasm
