import Monotype.Yaml.Node
import Monotype.Yaml.Scalar

/-!
# Values of nodes

The document that a node stands for.  A mapping may take over the entries of other mappings under
the key `<<`: these come first, and its own entries win.  Lists and mappings are no keys.

A node may be at fault in several places.  Lists and mappings are looked into level by level, so the
fault that counts is the first one of the outermost level that has any.
-/

namespace Monotype

namespace Yaml

namespace Node

mutual

def depth : Node → Nat
  | .scalar _ _ => 0
  | .list _ items => depthOfItems items + 1
  | .map _ entries => depthOfEntries entries + 1

def depthOfItems : List Node → Nat
  | [] => 0
  | n :: ns => max (depth n) (depthOfItems ns)

def depthOfEntries : List (Node × Node) → Nat
  | [] => 0
  | (k, v) :: es => max (max (depth k) (depth v)) (depthOfEntries es)

end

/-! ## Scalars -/

def untagged (text : String) : Except Fault Document :=
  match plain text with
  | .value d => .ok d
  | .fault fault => .error fault
  | .merge | .equals => .error .malformed

def anyFloat? (text : String) : Option Binary64 :=
  match float? text, int? text with
  | some x, _ => some x
  | none, some (.ok n) => Binary64.ofInt? n
  | none, _ => none

/-- The value of an attempt to read a text as a sort that it is said to be of. -/
def fitted (sort text : String) : Option (Except Fault Document) → Except Fault Document
  | some r => r
  | none => .error (.other ("no " ++ sort ++ ": " ++ text))

/-- What a scalar of the sort with a name stands for.  There is a sort whose values are not read
here, and there are texts that are not of the sort that they are said to be of; neither makes the
text any less YAML. -/
def tagged (name text : String) : Except Fault Document :=
  let value (sort : String) (r : Option Document) := fitted sort text (r.map .ok)
  if name = standardName "str" then .ok (.str text)
  else if name = standardName "null" then .ok .null
  else if name = standardName "bool" then value "bool" ((truth? text.toLower).map .bool)
  else if name = standardName "float" then value "float" ((anyFloat? text).map .float)
  else if name = standardName "int" then fitted "int" text ((int? text).map fun r => r.map .int)
  else if name = standardName "timestamp" then
    fitted "timestamp" text ((moment? text).map fun r => r.map .moment)
  else if name = standardName "binary" then .error (.other name)
  else .error .malformed

def scalarValue : Tag → String → Except Fault Document
  | .unsaid, text => untagged text
  | .text, text => .ok (.str text)
  | .named name, text => tagged name text

/-- What a scalar stands for as a key: the word for a value without a key is a text there. -/
def keyValue (tag : Tag) (text : String) : Except Fault Document :=
  if tag = .unsaid ∧ text = "=" then .ok (.str text) else scalarValue tag text

def allows (name : String) : Tag → Bool
  | .named given => given = standardName name
  | _ => true

/-- The fault of a list or mapping of a sort that it may not have.  Some sorts exist for it whose
values are not read here. -/
def sortFault (others : List String) : Tag → Fault
  | .named given => if others.any (given = standardName ·) then .other given else .malformed
  | _ => .malformed

/-! ## Mappings -/

def isMerge : Node → Bool
  | .scalar .unsaid text => text = "<<"
  | _ => false

mutual

def splitEntries : List (Node × Node) → Except Fault (List (Node × Node) × List (Node × Node))
  | [] => .ok ([], [])
  | (key, value) :: es => do
      if key.isMerge then
        let taken ← entriesOf value
        let (more, own) ← splitEntries es
        return (taken ++ more, own)
      else
        let (taken, own) ← splitEntries es
        return (taken, (key, value) :: own)

def entriesOf : Node → Except Fault (List (Node × Node))
  | .map _ es => do
      let (taken, own) ← splitEntries es
      return taken ++ own
  | .list _ items => entriesOfAll items
  | .scalar _ _ => .error .malformed

/-- The entries that are taken over from a list of mappings: those of the last mapping first, so
that those of the first one win. -/
def entriesOfAll : List Node → Except Fault (List (Node × Node))
  | [] => .ok []
  | .map _ es :: items => do
      let (taken, own) ← splitEntries es
      let later ← entriesOfAll items
      return later ++ (taken ++ own)
  | _ :: _ => .error .malformed

end

/-! ## Documents -/

/-- A document with the faults that were found on the way, each with its level. -/
abbrev Built (α : Type) := α × List (Nat × Fault)

def builtOr (level : Nat) : Except Fault Document → Built Document
  | .ok d => (d, [])
  | .error fault => (.null, [(level, fault)])

def buildKey (level : Nat) : Node → Built Document
  | .scalar tag text => builtOr level (keyValue tag text)
  | _ => (.null, [(level, .malformed)])

/-- The document of a node at a level; `fuel` bounds how deeply it nests. -/
def build : Nat → Nat → Node → Built Document
  | _, level, .scalar tag text => builtOr level (scalarValue tag text)
  | 0, level, _ => (.null, [(level, .tooDeep)])
  | fuel + 1, level, .list tag items =>
      if allows "seq" tag then
        let parts := items.map (build fuel (level + 1))
        (.list (parts.map Prod.fst), parts.flatMap Prod.snd)
      else (.null, [(level, sortFault ["omap", "pairs"] tag)])
  | fuel + 1, level, .map tag entries =>
      if allows "map" tag then
        match splitEntries entries with
        | .error fault => (.null, [(level + 1, fault)])
        | .ok (taken, own) =>
            let parts := (taken ++ own).map fun e =>
              (buildKey (level + 1) e.1, build fuel (level + 1) e.2)
            (.map (parts.foldl (fun es p => Document.putEntry p.1.1 p.2.1 es) []),
              parts.flatMap fun p => p.1.2 ++ p.2.2)
      else (.null, [(level, sortFault ["set"] tag)])

/-- The first fault of the outermost level. -/
def firstFault? : List (Nat × Fault) → Option (Nat × Fault)
  | [] => none
  | f :: fs =>
      match firstFault? fs with
      | some g => if g.1 < f.1 then some g else some f
      | none => some f

def toDocument (node : Node) : Except Fault Document :=
  let (d, faults) := build node.depth 0 node
  match firstFault? faults with
  | some (_, fault) => .error fault
  | none => .ok d

end Node

end Yaml

end Monotype
