/-!
# Paths

Paths are texts with components between slashes.  An absolute path is kept in normal form: its
components, without empty ones, without `.` and with every `..` already taken.  This is a rule on
texts alone; whether the directories exist does not matter.
-/

namespace Monotype

namespace Disk

/-- An absolute path in normal form. -/
structure AbsolutePath where
  -- The slashes in front: one, or exactly two if the path was written so.
  lead : String
  components : List String
  deriving DecidableEq, Repr

/-- Cut at slashes; `part` holds the characters since the last one, last first. -/
def cutAtSlashes (part : List Char) : List Char → List String
  | [] => [String.ofList part.reverse]
  | '/' :: cs => String.ofList part.reverse :: cutAtSlashes [] cs
  | c :: cs => cutAtSlashes (c :: part) cs

def splitPath (path : String) : List String := cutAtSlashes [] path.toList

def followComponents (above : List String) : List String → List String
  | [] => above.reverse
  | c :: cs =>
      if c = "" ∨ c = "." then followComponents above cs
      else if c = ".." then followComponents above.tail cs
      else followComponents (c :: above) cs

/-- Whether a text can be a path: no path holds the character NUL. -/
def isPath (path : String) : Bool := !path.toList.contains '\x00'

def nameLimit : Nat := 255

def pathLimit : Nat := 4096

def isAbsolute (path : String) : Bool := path.startsWith "/"

/-- A path as seen from a directory: it is put behind the directory, with a slash between them
unless there is one, and a path that starts at the root stays as it is. -/
def join (dir path : String) : String :=
  if isAbsolute path then path
  else if dir.isEmpty || dir.toList.getLast? == some '/' then dir ++ path
  else dir ++ "/" ++ path

namespace AbsolutePath

def ofText (path : String) : AbsolutePath :=
  { lead := if path.startsWith "//" && !path.startsWith "///" then "//" else "/"
    components := followComponents [] (splitPath path) }

/-- The normal form of a path as seen from a working directory. -/
def resolve (cwd path : String) : AbsolutePath := ofText (join cwd path)

def text (p : AbsolutePath) : String := p.lead ++ "/".intercalate p.components

def child (p : AbsolutePath) (name : String) : AbsolutePath :=
  { p with components := p.components ++ [name] }

/-- The directory and all directories above it, nearest first, given the components last first. -/
def chain (lead : String) : List String → List AbsolutePath
  | [] => [⟨lead, []⟩]
  | c :: cs => ⟨lead, (c :: cs).reverse⟩ :: chain lead cs

/-- The directory and all directories above it, nearest first. -/
def ancestors (p : AbsolutePath) : List AbsolutePath := chain p.lead p.components.reverse

end AbsolutePath

end Disk

end Monotype
