import AnfWasm.Store.FileSystem

/-!
# Files as a value

`Files` is a tree of directories and files that starts out empty.  Its entries stand under
*places*.  A place is reached from the working directory, from one of the directories above it, or
from the top; these are always there.  The working directory has no name of its own, so no path
leads from above back into it.

A path is looked up name by name, and the first name that is missing or that is no directory ends
the walk.  At the top `..` leads nowhere else.
-/

namespace AnfWasm

/-- Where the names of a place start. -/
inductive Base where
  | top
  /-- that many directories above the working directory -/
  | above (levels : Nat)
deriving DecidableEq

structure Place where
  base : Base
  /-- the names on the way from the base -/
  names : List String
deriving DecidableEq

namespace Place

/-- the working directory -/
def here : Place := ⟨.above 0, []⟩

def top : Place := ⟨.top, []⟩

def child (p : Place) (name : String) : Place := { p with names := p.names ++ [name] }

/-- the directory that `..` leads to -/
def up (p : Place) : Place :=
  match p.names, p.base with
  | [], .top => p
  | [], .above n => ⟨.above (n + 1), []⟩
  | _ :: _, _ => { p with names := p.names.dropLast }

end Place

inductive Entry where
  | dir
  | file (content : Bytes)
deriving DecidableEq

structure Files where
  entries : List (Place × Entry)

namespace Files

def empty : Files := ⟨[]⟩

def get? (fs : Files) (place : Place) : Option Entry :=
  if place.names.isEmpty then some .dir else fs.entries.lookup place

def erase (fs : Files) (place : Place) : Files := ⟨fs.entries.filter (·.1 != place)⟩

def insert (fs : Files) (place : Place) (e : Entry) : Files :=
  ⟨(place, e) :: (fs.erase place).entries⟩

/-! ### walking -/

/-- Where a path leads. -/
inductive Goal where
  /-- a directory that is there, since the path ends in dots or in nothing -/
  | stands (place : Place)
  /-- a name in a directory; `slash` tells that the path goes on after it -/
  | named (dir : Place) (name : String) (slash : Bool)

/-- the longest name of an entry in bytes -/
def maxName : Nat := 255

/-- a path has to be shorter than this, in bytes -/
def maxPath : Nat := 4096

def tooLong (name : String) : Bool := maxName < name.utf8ByteSize

def walk (fs : Files) (slash : Bool) (place : Place) : List String → Except FileError Goal
  | [] => .ok (.stands place)
  | [s] =>
    if s == "." then .ok (.stands place)
    else if s == ".." then .ok (.stands place.up)
    else .ok (.named place s slash)
  | s :: ss =>
    if s == "." then fs.walk slash place ss
    else if s == ".." then fs.walk slash place.up ss
    else if tooLong s then .error .nameTooLong
    else match fs.get? (place.child s) with
      | some .dir => fs.walk slash (place.child s) ss
      | some (.file _) => .error .notADirectory
      | none => .error .notFound

/-- where a path leads -/
def find (fs : Files) (p : Path) : Except FileError Goal :=
  if p.text.toList.contains '\x00' then .error .nulInPath
  else if p.text.isEmpty then .error .notFound
  else if maxPath ≤ p.text.utf8ByteSize then .error .nameTooLong
  else
    let start := if p.isRooted then Place.top else Place.here
    fs.walk p.endsInSlash start (p.segments.filter (!·.isEmpty))

/-- the entry of a name -/
def look (fs : Files) (dir : Place) (name : String) : Except FileError (Option Entry) :=
  if tooLong name then .error .nameTooLong else .ok (fs.get? (dir.child name))

/-! ### operations -/

def createNew (fs : Files) (p : Path) : Except FileError Files := do
  match ← fs.find p with
  | .stands _ => .error .alreadyExists
  | .named dir name slash =>
    if slash then .error .isADirectory
    else match ← fs.look dir name with
      | some _ => .error .alreadyExists
      | none => .ok (fs.insert (dir.child name) (.file []))

def write (fs : Files) (p : Path) (content : Bytes) : Except FileError Files := do
  match ← fs.find p with
  | .stands _ => .error .isADirectory
  | .named dir name slash =>
    if slash then .error .isADirectory
    else match ← fs.look dir name with
      | some .dir => .error .isADirectory
      | _ => .ok (fs.insert (dir.child name) (.file content))

def read (fs : Files) (p : Path) : Except FileError Bytes := do
  match ← fs.find p with
  | .stands _ => .error .isADirectory
  | .named dir name slash =>
    match ← fs.look dir name with
    | some .dir => .error .isADirectory
    | some (.file content) => if slash then .error .notADirectory else .ok content
    | none => .error .notFound

def removeFile (fs : Files) (p : Path) : Except FileError Files := do
  match ← fs.find p with
  | .stands _ => .error .isADirectory
  | .named dir name slash =>
    match ← fs.look dir name with
    | some .dir => .error .isADirectory
    | some (.file _) =>
      if slash then .error .notADirectory else .ok (fs.erase (dir.child name))
    | none => .error .notFound

def makeDir (fs : Files) (p : Path) : Except FileError Files := do
  match ← fs.find p with
  | .stands _ => .error .alreadyExists
  | .named dir name _ =>
    match ← fs.look dir name with
    | some _ => .error .alreadyExists
    | none => .ok (fs.insert (dir.child name) .dir)

def isDir (fs : Files) (p : Path) : Bool :=
  match fs.find p with
  | .ok (.stands _) => true
  | .ok (.named dir name _) =>
    match fs.look dir name with
    | .ok (some .dir) => true
    | _ => false
  | .error _ => false

/-! ### listing -/

/-- the path of an entry, with a slash at the end of a directory's -/
def shown (names : List String) : Entry → String
  | .dir => "/".intercalate names ++ "/"
  | .file _ => "/".intercalate names

/-- all entries below the working directory with their paths, sorted by these -/
def listing (fs : Files) : List (String × Entry) :=
  let below := fs.entries.filter fun (place, _) => place.base = .above 0
  (below.map fun (place, e) => (shown place.names e, e)).mergeSort fun a b => !(b.1 < a.1)

end Files

/-- runs an operation that changes the files or fails -/
def Files.change (op : Files → Except FileError Files) : StateM Files (Except FileError Unit) :=
  fun fs => match op fs with
    | .ok fs' => (.ok (), fs')
    | .error e => (.error e, fs)

instance : FileSystem (StateM Files) where
  createNew p := Files.change (·.createNew p)
  write p content := Files.change (·.write p content)
  read p := fun fs => (fs.read p, fs)
  removeFile p := Files.change (·.removeFile p)
  makeDir p := Files.change (·.makeDir p)
  isDir p := fun fs => (fs.isDir p, fs)

end AnfWasm
