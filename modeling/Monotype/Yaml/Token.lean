import Monotype.Yaml.Block
import Monotype.Yaml.Plain
import Monotype.Yaml.Quoted

/-!
# Tokens

The marks and scalars of a text, in order.  Indentation shows in the tokens as well: a list or
mapping that is written by indentation has a start and an end.

A key is recognised by the colon behind it.  Whatever could be a key is therefore kept in mind until
the colon comes, and a slot is left in front of it for the mark of the key.  A key must end in its
line, and its colon must not be more than `keyLimit` characters away from its start.
-/

namespace Monotype

namespace Yaml

inductive Token where
  -- A directive in front of a document; `version` is the major version that it asks for.
  | directive (version : Option Nat)
  | documentStart
  | documentEnd
  | listStart
  | mapStart
  -- The end of either.
  | blockEnd
  | openList
  | closeList
  | openMap
  | closeMap
  | comma
  | item
  | key
  | value
  | scalar (plain : Bool) (text : String)
  | anchor (name : String)
  | reference (name : String)
  -- A tag for the node that follows: its handle, if it has one, and the rest.
  | tag (handle : Option String) (rest : String)
  | broken (fault : Fault)
  deriving DecidableEq, Repr

def keyLimit : Nat := 1024

/-- What could turn out to be a key. -/
structure PendingKey where
  slot : Nat
  -- Whether it has to be a key: it starts at the indentation of a mapping.
  required : Bool
  start : Cursor

/-- How far a text is read. -/
structure Lexer where
  place : Cursor
  -- The tokens so far, in slots of which most hold one.
  slots : Array (List Token)
  -- The indentation of the list or mapping that is open, or -1.
  indent : Int
  outer : List Int
  keyAllowed : Bool
  -- What could be a key in the brackets that are open, innermost first; the last entry stands for
  -- the text outside of all brackets.
  pending : List (Option PendingKey)

namespace Lexer

def start (s : List Char) : Lexer := ⟨.start s, #[], -1, [], true, [none]⟩

def inFlow (l : Lexer) : Bool := l.pending.length > 1

def push (t : Token) (l : Lexer) : Lexer := { l with slots := l.slots.push [t] }

def moveTo (p : Cursor) (l : Lexer) : Lexer := { l with place := p }

def allowKey (b : Bool) (l : Lexer) : Lexer := { l with keyAllowed := b }

/-- Move on behind spaces, comments and line ends; `fuel` bounds the number of lines.  Outside of
brackets a key may start in a new line. -/
def toNextToken : Nat → Lexer → Lexer
  | 0, l => l
  | fuel + 1, l =>
      let p := l.place.skip (· = ' ')
      let p := if p.head? = some '#' then p.skip (!isBreak ·) else p
      if startsWith isBreak p.rest then
        toNextToken fuel ((l.moveTo p.next).allowKey (l.keyAllowed || !l.inFlow))
      else l.moveTo p

def isStale (p : Cursor) (k : PendingKey) : Bool :=
  k.start.line != p.line || p.index - k.start.index > keyLimit

/-- Forget the pending keys that are too far away; it is a fault if one of them had to be a key. -/
def dropStale (l : Lexer) : Except Fault Lexer :=
  if l.pending.any fun k => k.any fun k => isStale l.place k && k.required then .error .malformed
  else .ok { l with pending := l.pending.map fun k => k.filter fun k => !isStale l.place k }

/-- Forget the pending key of the innermost brackets; it is a fault if it had to be a key. -/
def dropKey (l : Lexer) : Except Fault Lexer :=
  match l.pending with
  | some k :: more =>
      if k.required then .error .malformed else .ok { l with pending := none :: more }
  | _ => .ok l

def noteKey (l : Lexer) : Except Fault Lexer :=
  if l.keyAllowed then do
    let l ← l.dropKey
    let k : PendingKey :=
      ⟨l.slots.size, !l.inFlow && l.indent == (l.place.column : Int), l.place⟩
    return { l with slots := l.slots.push [], pending := some k :: l.pending.drop 1 }
  else .ok l

def unwind (column : Int) : List Int → Lexer → Lexer
  | [], l => l
  | i :: outer, l =>
      if l.indent > column then
        unwind column outer ({ l with indent := i, outer := outer }.push .blockEnd)
      else l

/-- End the lists and mappings that are indented more deeply than a column; brackets are not written
by indentation. -/
def unindent (column : Int) (l : Lexer) : Lexer :=
  if l.inFlow then l else unwind column l.outer l

/-- Open a list or mapping at a column, unless one is open there; tell whether it is new. -/
def openAt (column : Nat) (l : Lexer) : Bool × Lexer :=
  if l.indent < column then (true, { l with indent := column, outer := l.indent :: l.outer })
  else (false, l)

def openHere (t : Token) (l : Lexer) : Lexer :=
  if l.inFlow then l
  else
    match l.openAt l.place.column with
    | (true, l) => l.push t
    | (false, l) => l

/-! ## Marks -/

def divider (t : Token) (l : Lexer) : Except Fault Lexer := do
  let l ← (l.unindent (-1)).dropKey
  return ((l.allowKey false).moveTo (l.place.advance 3)).push t

def opening (t : Token) (l : Lexer) : Except Fault Lexer := do
  let l ← l.noteKey
  return (({ l with pending := none :: l.pending }.allowKey true).moveTo l.place.next).push t

def closing (t : Token) (l : Lexer) : Except Fault Lexer := do
  let l ← l.dropKey
  if l.inFlow then
    return (({ l with pending := l.pending.drop 1 }.allowKey false).moveTo l.place.next).push t
  else throw .malformed

def comma (l : Lexer) : Except Fault Lexer := do
  let l ← l.dropKey
  return ((l.allowKey true).moveTo l.place.next).push .comma

def item (l : Lexer) : Except Fault Lexer := do
  if !l.inFlow && !l.keyAllowed then throw .malformed
  let l ← ((l.openHere .listStart).allowKey true).dropKey
  return (l.moveTo l.place.next).push .item

def explicitKey (l : Lexer) : Except Fault Lexer := do
  if !l.inFlow && !l.keyAllowed then throw .malformed
  let l ← ((l.openHere .mapStart).allowKey !l.inFlow).dropKey
  return (l.moveTo l.place.next).push .key

/-- A colon in front of a value: what is pending was a key, and its mark goes into its slot. -/
def value (l : Lexer) : Except Fault Lexer := do
  match l.pending with
  | some k :: more =>
      let l := { l with pending := none :: more }
      let (isNew, l) := if l.inFlow then (false, l) else l.openAt k.start.column
      let marks := if isNew then [Token.mapStart, .key] else [.key]
      let l := { l with slots := l.slots.modify k.slot fun _ => marks }
      return ((l.allowKey false).moveTo l.place.next).push .value
  | _ =>
      if !l.inFlow && !l.keyAllowed then throw .malformed
      let l ← ((l.openHere .mapStart).allowKey !l.inFlow).dropKey
      return (l.moveTo l.place.next).push .value

/-! ## Scalars, names and tags -/

def quoted (fuel : Nat) (quote : Char) (l : Lexer) : Except Fault Lexer := do
  let l ← l.noteKey
  let (text, p) ← quotedScalar fuel quote l.place
  return ((l.allowKey false).moveTo p).push (.scalar false text)

def plain (fuel : Nat) (l : Lexer) : Except Fault Lexer := do
  let l ← l.noteKey
  let (text, p, broken) := plainScalar fuel l.inFlow (l.indent + 1).toNat l.place
  return ((l.allowKey broken).moveTo p).push (.scalar true text)

def block (fuel : Nat) (fold : Bool) (l : Lexer) : Except Fault Lexer := do
  let l ← (l.allowKey true).dropKey
  match blockScalar fuel fold (l.indent + 1).toNat l.place with
  | some (text, p) => return (l.moveTo p).push (.scalar false text)
  | none => throw .malformed

def isNameChar (c : Char) : Bool := c.isAlphanum || c = '-' || c = '_'

def named (make : String → Token) (l : Lexer) : Except Fault Lexer := do
  let l ← l.noteKey
  let name := l.place.next.rest.takeWhile isNameChar
  let p := l.place.advance (name.length + 1)
  if name.isEmpty || !endsOr (fun c => isGap c || "?:,]\x7d%@`".toList.contains c) p.rest then
    throw .malformed
  return ((l.allowKey false).moveTo p).push (make (String.ofList name))

def isTagChar (c : Char) : Bool := c.isAlphanum || "-;/?:@&=+$,_.!~*'()[]%".toList.contains c

/-- The tag that follows, and the place behind it. -/
def tagAt (p : Cursor) : Option (Token × Cursor) :=
  let body := p.next.rest
  match body with
  | '<' :: s =>
      let rest := s.takeWhile isTagChar
      if rest.isEmpty ∨ (s.drop rest.length).head? ≠ some '>' then none
      else some (.tag none (String.ofList rest), p.advance (rest.length + 3))
  | body =>
      if endsOr isGap body then some (.tag none "!", p.next)
      else
        let name := body.takeWhile isNameChar
        let hasHandle := (body.takeWhile fun c => c ≠ ' ' && !isBreak c).contains '!'
        if hasHandle ∧ (body.drop name.length).head? ≠ some '!' then none
        else
          let handle := if hasHandle then '!' :: name ++ ['!'] else ['!']
          let p := p.advance handle.length
          let rest := p.rest.takeWhile isTagChar
          if rest.isEmpty then none
          else some (.tag (some (String.ofList handle)) (String.ofList rest), p.advance rest.length)

def tagged (l : Lexer) : Except Fault Lexer := do
  let l ← l.noteKey
  match tagAt l.place with
  | some (t, p) =>
      if endsOr (fun c => c = ' ' || isBreak c) p.rest then
        return ((l.allowKey false).moveTo p).push t
      else throw .malformed
  | none => throw .malformed

/-- The version that a directive asks for: a major and a minor number with a point between them, and
the place behind it. -/
def versionAt (p : Cursor) : Option (Nat × Cursor) :=
  let p := p.skip (· = ' ')
  let major := p.rest.takeWhile (isDigitOf 10)
  let p := p.advance major.length
  let minor := p.next.rest.takeWhile (isDigitOf 10)
  if major.isEmpty ∨ minor.isEmpty ∨ p.head? ≠ some '.' then none
  else some (valueIn 10 major, p.advance (minor.length + 1))

def directive (l : Lexer) : Except Fault Lexer := do
  let l ← (l.unindent (-1)).dropKey
  let name := l.place.next.rest.takeWhile isNameChar
  let p := l.place.advance (name.length + 1)
  let atEnd (p : Cursor) : Bool := endsOr (fun c => c = ' ' || isBreak c) p.rest
  if name.isEmpty || !atEnd p then throw .malformed
  let (version, p) ←
    if String.ofList name = "YAML" then
      match versionAt p with
      | some (major, p) => if atEnd p then pure (some major, p) else throw .malformed
      | none => throw .malformed
    else pure (none, p.skip (!isBreak ·))
  match p.skipLine? with
  | some p => return ((l.allowKey false).moveTo p).push (.directive version)
  | none => throw .malformed

/-! ## The text -/

/-- Read the next token; `none` at the end of the text.  `fuel` bounds what is left of the text. -/
def step (fuel : Nat) (l : Lexer) : Except Fault (Option Lexer) := do
  let l ← (l.toNextToken fuel).dropStale
  -- What was opened further to the right ends here.
  let l := l.unindent l.place.column
  match l.place.rest with
  | [] => return none
  | c :: s =>
      let atMargin := l.place.column == 0
      let gap := endsOr isGap s
      let l ←
        if c = '%' ∧ atMargin then l.directive
        else if atMargin ∧ startsMark '-' (c :: s) then l.divider .documentStart
        else if atMargin ∧ startsMark '.' (c :: s) then l.divider .documentEnd
        else if c = '[' then l.opening .openList
        else if c = '\x7b' then l.opening .openMap
        else if c = ']' then l.closing .closeList
        else if c = '\x7d' then l.closing .closeMap
        else if c = ',' then l.comma
        else if c = '-' ∧ gap then l.item
        else if c = '?' ∧ (l.inFlow ∨ gap) then l.explicitKey
        else if c = ':' ∧ (l.inFlow ∨ gap) then l.value
        else if c = '*' then l.named .reference
        else if c = '&' then l.named .anchor
        else if c = '!' then l.tagged
        else if c = '|' ∧ !l.inFlow then l.block fuel false
        else if c = '>' ∧ !l.inFlow then l.block fuel true
        else if c = '\'' ∨ c = '"' then l.quoted fuel c
        else if startsPlain l.inFlow (c :: s) then l.plain fuel
        else throw .malformed
      return some l

def tokens (l : Lexer) : List Token := l.slots.toList.flatten

/-- The end of a text: everything that is written by indentation ends. -/
def finish (l : Lexer) : List Token :=
  match (l.unindent (-1)).dropKey with
  | .ok l => l.tokens
  | .error fault => l.tokens ++ [.broken fault]

def run : Nat → Lexer → List Token
  | 0, l => l.tokens ++ [.broken .malformed]
  | fuel + 1, l =>
      match l.step (fuel + 1) with
      | .ok (some l) => run fuel l
      | .ok none => l.finish
      | .error fault => l.tokens ++ [.broken fault]

end Lexer

/-- The tokens of a text.  A byte order mark in front of it is no part of it. -/
def tokensOf (s : List Char) : List Token :=
  let start := Lexer.start s
  let start := if s.head? = some '\ufeff' then start.moveTo start.place.next else start
  start.run (s.length + 2)

end Yaml

end Monotype
