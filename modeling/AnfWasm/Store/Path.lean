/-!
# Paths

A path is the text that names a file, kept as it was given.  Slashes divide it into segments; an
empty segment means nothing, and `.` means nothing unless a relative path starts with it.

`fileName?` and `parent?` look at the last segment that means something.
-/

namespace AnfWasm

structure Path where
  text : String
deriving DecidableEq

namespace Path

/-- the pieces of a text between slashes -/
def split : List Char → List (List Char)
  | [] => [[]]
  | c :: cs =>
    if c = '/' then [] :: split cs
    else match split cs with
      | [] => [[c]]
      | s :: ss => (c :: s) :: ss

def segments (p : Path) : List String := (split p.text.toList).map String.ofList

/-- does the path start at the top? -/
def isRooted (p : Path) : Bool := p.text.toList.head? = some '/'

def endsInSlash (p : Path) : Bool := p.text.toList.getLast? = some '/'

/-- Segments from the last to the first, without those at the end that mean nothing. -/
def trim : List String → List String
  | [] => []
  | [s] => if s.isEmpty then [] else [s]
  | s :: ss => if s.isEmpty || s == "." then trim ss else s :: ss

/-- segments from the last to the first as a path again -/
def ofReversed (ss : List String) : Path := ⟨"/".intercalate ss.reverse⟩

/-- the last name, unless the path ends in dots -/
def fileName? (p : Path) : Option String :=
  match trim p.segments.reverse with
  | s :: _ => if s == "." || s == ".." then none else some s
  | [] => none

/-- The paths above one, the nearest first, given its segments from the last to the first. -/
def above (rooted : Bool) : List String → List Path
  | [] => [⟨if rooted then "/" else ""⟩]
  | s :: ss =>
    if s.isEmpty || (s == "." && !ss.isEmpty) then above rooted ss
    else ofReversed (s :: ss) :: above rooted ss

/-- The path, its parent, and so on up to the top. -/
def ancestors (p : Path) : List Path :=
  p :: match trim p.segments.reverse with
    | _ :: ss => above p.isRooted ss
    | [] => []

/-- the path without its last segment, which has to be there -/
def parent? (p : Path) : Option Path := p.ancestors[1]?

def withSuffix (p : Path) (suffix : String) : Path := ⟨p.text ++ suffix⟩

end Path

end AnfWasm
