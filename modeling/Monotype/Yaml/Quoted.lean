import Monotype.Yaml.Cursor
import Monotype.Yaml.Digit
import Monotype.Yaml.Fault

/-!
# Quoted scalars

Scalars in single or double quotes.  In single quotes a quote is doubled; in double quotes a
backslash starts an escape.  A quoted scalar may run over several lines: a line end, with the spaces
around it, is folded.
-/

namespace Monotype

namespace Yaml

def escapes : List (Char × Nat) :=
  [('0', 0), ('a', 7), ('b', 8), ('t', 9), ('\t', 9), ('n', 10), ('v', 11), ('f', 12), ('r', 13),
   ('e', 27), (' ', 32), ('"', 34), ('\\', 92), ('/', 47), ('N', 0x85), ('_', 0xa0), ('L', 0x2028),
   ('P', 0x2029)]

def escapeWidth? : Char → Option Nat
  | 'x' => some 2
  | 'u' => some 4
  | 'U' => some 8
  | _ => none

/-- An escape, from behind the backslash: its character and how many characters spell it. -/
def escape (s : List Char) : Except Fault (Char × Nat) :=
  match s with
  | [] => .error .malformed
  | c :: s =>
      match escapes.lookup c, escapeWidth? c with
      | some n, _ => .ok (Char.ofNat n, 1)
      | none, none => .error .malformed
      | none, some width =>
          let ds := s.take width
          if ds.length = width ∧ ds.all (isDigitOf 16) then
            let code := valueIn 16 ds
            if code.isValidChar then .ok (Char.ofNat code, width + 1)
            else if code < 0x110000 then .error (.other "a lone surrogate")
            else .error (.noCharacter code)
          else .error .malformed

/-- The line ends that follow, with spaces and tabs around them: what they stand for, and the place
behind them.  No mark that divides documents may stand there.  `fuel` bounds the number of lines. -/
def quotedBreaks : Nat → Cursor → Except Fault (List Char × Cursor)
  | 0, _ => .error .malformed
  | fuel + 1, p =>
      if startsAnyMark p.rest then .error .malformed
      else
        let p := p.skip fun c => c = ' ' || c = '\t'
        match p.rest with
        | [] => .ok ([], p)
        | c :: _ =>
            if isBreak c then do
              let (more, p) ← quotedBreaks fuel p.next
              return (breakText c :: more, p)
            else .ok ([], p)

/-- The rest of a quoted scalar; `read` holds its characters so far, last first, and `fuel` bounds
the number of steps. -/
def quotedRest (quote : Char) : Nat → List Char → Cursor → Except Fault (String × Cursor)
  | 0, _, _ => .error .malformed
  | fuel + 1, read, p =>
      match p.rest with
      | [] => .error .malformed
      | c :: s =>
          if c = quote then
            -- Between single quotes, two of them stand for one.
            if quote = '\'' ∧ s.head? = some '\'' then
              quotedRest quote fuel ('\'' :: read) (p.advance 2)
            else .ok (String.ofList read.reverse, p.next)
          else if c = '\\' ∧ quote = '"' then
            -- An escaped line break is left out, with the blanks of the next line.
            if startsWith isBreak s then do
              let (more, p) ← quotedBreaks fuel (p.advance 2)
              quotedRest quote fuel (more.reverse ++ read) p
            else do
              let (x, n) ← escape s
              quotedRest quote fuel (x :: read) (p.advance (n + 1))
          else if isGap c then
            let spaces := p.rest.takeWhile fun c => c = ' ' || c = '\t'
            let p := p.advance spaces.length
            match p.rest with
            | [] => .error .malformed
            | c :: _ =>
                if isBreak c then do
                  let (more, p) ← quotedBreaks fuel p.next
                  quotedRest quote fuel ((folded c more).reverse ++ read) p
                else quotedRest quote fuel (spaces.reverse ++ read) p
          else quotedRest quote fuel (c :: read) p.next

def quotedScalar (fuel : Nat) (quote : Char) (p : Cursor) : Except Fault (String × Cursor) :=
  quotedRest quote fuel [] p.next

end Yaml

end Monotype
