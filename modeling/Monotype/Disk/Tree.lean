import Monotype.Disk.Basic
import Monotype.OrderedMap

/-!
# Directory trees

A file system held in memory: directories and files by their absolute paths.  Paths are followed
component by component; every component but the last has to be a directory, and so has the last one
if a slash follows it.  Paths and components have a greatest length.
-/

namespace Monotype

namespace Disk

inductive Entry where
  | file (bytes : List UInt8)
  | directory

/-- A directory tree: the entries by their components from the root on. -/
structure Tree where
  entries : List (List String × Entry)

namespace Tree

def empty : Tree := ⟨[]⟩

def find? (t : Tree) (components : List String) : Option Entry :=
  match components with
  | [] => some .directory
  | components => t.entries.lookup components

def starts : List String → List (List String)
  | [] => []
  | c :: cs => [c] :: (starts cs).map (c :: ·)

def addDirectory (t : Tree) (components : List String) : Tree :=
  ⟨(starts components).foldl
    (fun entries p => if (entries.lookup p).isSome then entries else entries ++ [(p, .directory)])
    t.entries⟩

def addFile (t : Tree) (components : List String) (bytes : List UInt8) : Tree :=
  ⟨Entries.put components (.file bytes) (t.addDirectory components.dropLast).entries⟩

/-- Follow components from a directory, given by its components last first. -/
def walk (t : Tree) (above : List String) : List String → Except ReadFault Entry
  | [] =>
      match t.find? above.reverse with
      | some e => .ok e
      | none => .error .noEntry
  | c :: cs =>
      match t.find? above.reverse with
      | none => .error .noEntry
      | some (.file _) => .error .notDirectory
      | some .directory =>
          if c = "" ∨ c = "." then walk t above cs
          else if c = ".." then walk t above.tail cs
          else if c.utf8ByteSize > nameLimit then .error .nameTooLong
          else walk t (c :: above) cs

/-- What there is at a path, as seen from a working directory. -/
def entryAt (t : Tree) (cwd path : String) : Except ReadFault Entry :=
  if path.isEmpty then .error .noEntry
  else if path.utf8ByteSize ≥ pathLimit then .error .nameTooLong
  else if isAbsolute path then t.walk [] (splitPath path)
  else t.walk [] (splitPath (cwd ++ "/" ++ path))

def disk (t : Tree) (cwd : String) : Disk where
  cwd := cwd
  isFile p :=
    match t.entryAt cwd p.text with
    | .ok (.file _) => true
    | _ => false
  read path :=
    match t.entryAt cwd path with
    | .ok (.file bytes) => .ok bytes
    | .ok .directory => .error .isDirectory
    | .error fault => .error fault

end Tree

end Disk

end Monotype
