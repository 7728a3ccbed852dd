import Monotype.Yaml.Cursor

/-!
# Plain scalars

Scalars without quotes: words with spaces between them.  A plain scalar ends at a colon with a space
behind it, at a comment, and inside brackets also at the characters that have a meaning there.  It
may run over several lines, as long as these are indented deeply enough; line ends are folded.
-/

namespace Monotype

namespace Yaml

def isFlowMark (c : Char) : Bool := c = ',' || c = '[' || c = ']' || c = '\x7b' || c = '\x7d'

def startsPlain (flow : Bool) : List Char → Bool
  | [] => false
  | c :: s =>
      if c = '-' then !endsOr isGap s
      else if c = '?' ∨ c = ':' then !flow && !endsOr isGap s
      else !isFlowMark c && !isGap c && !"#&*!|>'\"%@`".toList.contains c

/-- Whether a word of a plain scalar ends in front of a character, given what follows that. -/
def endsWord (flow : Bool) (c : Char) (s : List Char) : Bool :=
  isGap c || (c == ':' && (endsOr isGap s || (flow && startsWith isFlowMark s))) ||
    (flow && (isFlowMark c || c == '?'))

def wordOf (flow : Bool) : List Char → List Char
  | [] => []
  | c :: s => if endsWord flow c s then [] else c :: wordOf flow s

/-- The line ends that follow, with spaces around them: what they stand for, and the place behind
them.  The answer has no text if a mark that divides documents follows a line end.  `fuel` bounds
the number of characters. -/
def plainBreaks : Nat → Cursor → Option (List Char) × Cursor
  | 0, p => (none, p)
  | fuel + 1, p =>
      match p.rest with
      | [] => (some [], p)
      | c :: _ =>
          if c = ' ' then plainBreaks fuel p.next
          else if isBreak c then
            let p := p.next
            if startsAnyMark p.rest then (none, p)
            else
              let (more, p) := plainBreaks fuel p
              (more.map (breakText c :: ·), p)
          else (some [], p)

/-- What stands between two words of a plain scalar, the place behind it, and whether a line ended
there.  The answer has no text if no word may follow.  `fuel` bounds what is left of the text. -/
def plainSpaces (fuel : Nat) (p : Cursor) : Option (List Char) × Cursor × Bool :=
  let spaces := p.rest.takeWhile (· = ' ')
  let p := p.advance spaces.length
  match p.rest with
  | [] => (some spaces, p, false)
  | c :: _ =>
      if isBreak c then
        let p := p.next
        if startsAnyMark p.rest then (none, p, true)
        else
          let (more, p) := plainBreaks fuel p
          (more.map (folded c), p, true)
      else (some spaces, p, false)

/-- The rest of a plain scalar, from the start of a word on: its text, the place behind it and the
spaces that follow, and whether a line ended there.  `read` holds its characters so far, last first,
`indent` is the column that other lines must reach, and `fuel` bounds what is left of the text. -/
def plainRest (flow : Bool) (indent : Nat) : Nat → List Char → Cursor → String × Cursor × Bool
  | 0, read, p => (String.ofList read.reverse, p, false)
  | fuel + 1, read, p =>
      let word := wordOf flow p.rest
      let read := word.reverse ++ read
      match plainSpaces fuel (p.advance word.length) with
      | (none, p, broken) => (String.ofList read.reverse, p, broken)
      | (some spaces, p, broken) =>
          if spaces.isEmpty || p.head? == some '#' || (!flow && p.column < indent) ||
              (wordOf flow p.rest).isEmpty then
            (String.ofList read.reverse, p, broken)
          else plainRest flow indent fuel (spaces.reverse ++ read) p

def plainScalar (fuel : Nat) (flow : Bool) (indent : Nat) (p : Cursor) : String × Cursor × Bool :=
  plainRest flow indent fuel [] p

end Yaml

end Monotype
