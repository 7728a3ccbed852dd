import Monotype.Yaml.Token

/-!
# Nodes

The tree that tokens form: scalars, lists and mappings, each with what is known about its sort.  A
text holds one node or none; `Node.ofTokens?` reads it.

Nodes may nest no deeper than `depthLimit`.  A node may have a name and be repeated by that name,
but not inside itself.
-/

namespace Monotype

namespace Yaml

/-- What is known about the sort of a node. -/
inductive Tag where
  | unsaid
  | text
  | named (name : String)
  deriving DecidableEq, Repr

inductive Node where
  | scalar (tag : Tag) (text : String)
  | list (tag : Tag) (items : List Node)
  | map (tag : Tag) (entries : List (Node × Node))
  deriving Repr

def depthLimit : Nat := 480

/-- What is still to be read, and the nodes that have names; a name whose node is not complete yet
has none. -/
structure Feed where
  tokens : List Token
  anchors : List (String × Option Node)

abbrev Reading := StateT Feed (Except Fault)

namespace Reading

def peek : Reading (Option Token) := do
  match (← get).tokens with
  | [] => return none
  | .broken fault :: _ => throw fault
  | t :: _ => return some t

def next : Reading Unit := modify fun f => { f with tokens := f.tokens.drop 1 }

def accept (t : Token) : Reading Bool := do
  if (← peek) = some t then
    next
    return true
  else return false

def expect (t : Token) : Reading Unit := do
  if !(← accept t) then throw .malformed

def isAt (ts : List Token) : Reading Bool := do
  match ← peek with
  | some t => return ts.contains t
  | none => return false

end Reading

namespace Node

def nothing : Node := .scalar .unsaid ""

def standardHandle : String := "!!"

def standardName (name : String) : String := "tag:yaml.org,2002:" ++ name

def tagName (handle : Option String) (rest : String) : Except Fault String :=
  match handle with
  | none => .ok rest
  | some "!" => .ok ("!" ++ rest)
  | some h => if h = standardHandle then .ok (standardName rest) else .error .malformed

/-- The name and the tag in front of a node, in any order. -/
def properties : Reading (Option String × Option String) := do
  match ← Reading.peek with
  | some (.anchor name) =>
      Reading.next
      match ← Reading.peek with
      | some (.tag handle rest) =>
          Reading.next
          return (some name, some (← tagName handle rest))
      | _ => return (some name, none)
  | some (.tag handle rest) =>
      Reading.next
      match ← Reading.peek with
      | some (.anchor name) =>
          Reading.next
          return (some name, some (← tagName handle rest))
      | _ => return (none, some (← tagName handle rest))
  | _ => return (none, none)

def scalarTag (tag : Option String) (plain : Bool) : Tag :=
  match tag with
  | none => if plain then .unsaid else .text
  | some "!" => .unsaid
  | some name => .named name

def collectionTag : Option String → Tag
  | none | some "!" => .unsaid
  | some name => .named name

def setAnchor (name : Option String) (node : Option Node) : Reading Unit :=
  match name with
  | none => return
  | some name => modify fun f => { f with anchors := (name, node) :: f.anchors }

def named (name : String) : Reading Node := do
  match (← get).anchors.lookup name with
  | some (some node) => return node
  | some none => throw (.other "a node that contains itself")
  | none => throw .malformed

def checkAnchor (name : Option String) : Reading Unit := do
  let taken := (← get).anchors
  if name.any fun name => (taken.lookup name).isSome then throw .malformed

def orNothing (ends : List Token) (read : Reading Node) : Reading Node := do
  if ← Reading.isAt ends then return nothing else read

mutual

/-- Read a node.  `block` allows lists and mappings that are written by indentation, `bare` also a
list at the indentation of the mapping around it.  `depth` is how deeply the node may nest, and
`fuel` bounds the number of steps. -/
def read (block bare : Bool) (depth : Nat) : Nat → Reading Node
  | 0 => throw .malformed
  | fuel + 1 => do
      match ← Reading.peek with
      | some (.reference name) =>
          Reading.next
          named name
      | _ =>
          let (anchor, tag) ← properties
          let known := collectionTag tag
          -- A collection takes one level; its anchor is known, but has no node yet, while it is
          -- read.
          let enter (inner : Nat → Reading Node) : Reading Node := do
            checkAnchor anchor
            match depth with
            | 0 => throw .tooDeep
            | depth + 1 =>
                setAnchor anchor none
                inner depth
          let node ← match ← Reading.peek with
            | some (.scalar plain text) => do
                Reading.next
                checkAnchor anchor
                pure (.scalar (scalarTag tag plain) text)
            | some .item =>
                if bare then
                  enter fun depth => do return .list known (← readBareItems depth fuel)
                -- Properties with nothing behind them belong to an empty scalar.
                else if anchor.isSome || tag.isSome then do
                  checkAnchor anchor
                  pure (.scalar (scalarTag tag true) "")
                else throw .malformed
            | some .openList =>
                enter fun depth => do
                  Reading.next
                  return .list known (← readFlowItems true depth fuel)
            | some .openMap =>
                enter fun depth => do
                  Reading.next
                  return .map known (← readFlowEntries true depth fuel)
            | t =>
                if block ∧ t = some .listStart then
                  enter fun depth => do
                    Reading.next
                    return .list known (← readItems depth fuel)
                else if block ∧ t = some .mapStart then
                  enter fun depth => do
                    Reading.next
                    return .map known (← readEntries depth fuel)
                else if anchor.isSome || tag.isSome then do
                  checkAnchor anchor
                  pure (.scalar (scalarTag tag true) "")
                else throw .malformed
          setAnchor anchor (some node)
          return node
termination_by structural fuel => fuel

def readItems (depth : Nat) : Nat → Reading (List Node)
  | 0 => throw .malformed
  | fuel + 1 => do
      if ← Reading.accept .item then
        let node ← orNothing [.item, .blockEnd] (read true false depth fuel)
        return node :: (← readItems depth fuel)
      else
        Reading.expect .blockEnd
        return []
termination_by structural fuel => fuel

def readBareItems (depth : Nat) : Nat → Reading (List Node)
  | 0 => throw .malformed
  | fuel + 1 => do
      if ← Reading.accept .item then
        let node ← orNothing [.item, .key, .value, .blockEnd] (read true false depth fuel)
        return node :: (← readBareItems depth fuel)
      else return []
termination_by structural fuel => fuel

def readEntries (depth : Nat) : Nat → Reading (List (Node × Node))
  | 0 => throw .malformed
  | fuel + 1 => do
      let ends := [Token.key, .value, .blockEnd]
      if ← Reading.accept .key then
        let key ← orNothing ends (read true true depth fuel)
        let value ←
          if ← Reading.accept .value then orNothing ends (read true true depth fuel)
          else pure nothing
        return (key, value) :: (← readEntries depth fuel)
      else
        Reading.expect .blockEnd
        return []
termination_by structural fuel => fuel

def readFlowItems (first : Bool) (depth : Nat) : Nat → Reading (List Node)
  | 0 => throw .malformed
  | fuel + 1 => do
      if ← Reading.accept .closeList then return []
      else
        if !first then Reading.expect .comma
        if ← Reading.accept .key then
          match depth with
          | 0 => throw .tooDeep
          | inner + 1 =>
              let key ← orNothing [.value, .comma, .closeList] (read false false inner fuel)
              let value ←
                if ← Reading.accept .value then
                  orNothing [.comma, .closeList] (read false false inner fuel)
                else pure nothing
              return .map .unsaid [(key, value)] :: (← readFlowItems false depth fuel)
        else if ← Reading.accept .closeList then return []
        else
          let node ← read false false depth fuel
          return node :: (← readFlowItems false depth fuel)
termination_by structural fuel => fuel

def readFlowEntries (first : Bool) (depth : Nat) : Nat → Reading (List (Node × Node))
  | 0 => throw .malformed
  | fuel + 1 => do
      if ← Reading.accept .closeMap then return []
      else
        if !first then Reading.expect .comma
        if ← Reading.accept .key then
          let key ← orNothing [.value, .comma, .closeMap] (read false false depth fuel)
          let value ←
            if ← Reading.accept .value then
              orNothing [.comma, .closeMap] (read false false depth fuel)
            else pure nothing
          return (key, value) :: (← readFlowEntries false depth fuel)
        else if ← Reading.accept .closeMap then return []
        else
          let key ← read false false depth fuel
          return (key, nothing) :: (← readFlowEntries false depth fuel)
termination_by structural fuel => fuel

end

/-! ## Documents -/

def isDirective : Option Token → Bool
  | some (.directive _) => true
  | _ => false

/-- Read the directives in front of a document: at most one may ask for a version, and that is 1. -/
def readDirectives (versionSeen : Bool) : Nat → Reading Unit
  | 0 => throw .malformed
  | fuel + 1 => do
      match ← Reading.peek with
      | some (.directive version) =>
          Reading.next
          if version.isSome && versionSeen then throw .malformed
          if version.any (· != 1) then throw .malformed
          readDirectives (versionSeen || version.isSome) fuel
      | _ => return

def skipDocumentEnds : Nat → Reading Unit
  | 0 => throw .malformed
  | fuel + 1 => do if ← Reading.accept .documentEnd then skipDocumentEnds fuel

def readDocument (fuel : Nat) : Reading (Option Node) := do
  match ← Reading.peek with
  | none => return none
  | t =>
      let node ←
        if t = some .documentStart || isDirective t then do
          readDirectives false fuel
          Reading.expect .documentStart
          match ← Reading.peek with
          | none | some .documentStart | some .documentEnd => pure nothing
          | t => if isDirective t then pure nothing else read true false depthLimit fuel
        else read true false depthLimit fuel
      skipDocumentEnds fuel
      if (← Reading.peek).isSome then throw .malformed
      return some node

def ofTokens? (tokens : List Token) : Except Fault (Option Node) :=
  ((readDocument (4 * tokens.length + 4)).run ⟨tokens, []⟩).map Prod.fst

end Node

end Yaml

end Monotype
