/-!
# Places in a text

A cursor is a place in a text: what follows it, the number of characters before it, and its line and
column.  Besides the line feed there are three more characters that end a line.  Line ends of other
kinds are taken to be line feeds already.

Three dashes or three dots at the start of a line, alone or with a space behind them, divide
documents; a scalar that runs over several lines ends there.
-/

namespace Monotype

namespace Yaml

def isBreak (c : Char) : Bool := c = '\n' || c = '\u0085' || c = '\u2028' || c = '\u2029'

def isGap (c : Char) : Bool := c = ' ' || c = '\t' || isBreak c

/-- What a line end stands for in a scalar: a line feed, or one of two characters of its own. -/
def breakText (c : Char) : Char := if c = '\u2028' ∨ c = '\u2029' then c else '\n'

def endsOr (p : Char → Bool) : List Char → Bool
  | [] => true
  | c :: _ => p c

def startsWith (p : Char → Bool) : List Char → Bool
  | [] => false
  | c :: _ => p c

def startsMark (mark : Char) (s : List Char) : Bool :=
  s.take 3 == [mark, mark, mark] && endsOr isGap (s.drop 3)

def startsAnyMark (s : List Char) : Bool := startsMark '-' s || startsMark '.' s

/-- A place in a text. -/
structure Cursor where
  rest : List Char
  index : Nat
  line : Nat
  -- The number of characters between the last line end and the place; byte order marks do not
  -- count.
  column : Nat

namespace Cursor

def start (s : List Char) : Cursor := ⟨s, 0, 0, 0⟩

def next (p : Cursor) : Cursor :=
  match p.rest with
  | [] => p
  | c :: cs =>
      if isBreak c then ⟨cs, p.index + 1, p.line + 1, 0⟩
      else ⟨cs, p.index + 1, p.line, if c = '\ufeff' then p.column else p.column + 1⟩

def advance : Nat → Cursor → Cursor
  | 0, p => p
  | n + 1, p => advance n p.next

def skip (f : Char → Bool) (p : Cursor) : Cursor := p.advance (p.rest.takeWhile f).length

def head? (p : Cursor) : Option Char := p.rest.head?

/-- Move on behind spaces and a comment to the end of a line, and behind that; `none` if anything
else stands in the way. -/
def skipLine? (p : Cursor) : Option Cursor :=
  let p := p.skip (· = ' ')
  let p := if p.head? = some '#' then p.skip (!isBreak ·) else p
  if endsOr isBreak p.rest then some p.next else none

end Cursor

/-- What line ends between two words stand for, `first` and then `more`.  A single line feed becomes
a space; otherwise a line feed in front goes, and all others stay. -/
def folded (first : Char) (more : List Char) : List Char :=
  if breakText first ≠ '\n' then breakText first :: more
  else if more.isEmpty then [' ']
  else more

end Yaml

end Monotype
