import Monotype.Yaml.Cursor
import Monotype.Yaml.Digit

/-!
# Block scalars

Scalars that are marked with `|` or `>` and consist of the lines below that are indented more
deeply.  Behind `|` line ends stay; behind `>` the line end between two lines that start with a word
becomes a space.  A sign behind the mark tells what becomes of the line ends at the end, and a digit
gives the indentation, which otherwise is that of the first line.
-/

namespace Monotype

namespace Yaml

/-- What becomes of the line ends at the end of a block scalar. -/
inductive Chomp where
  -- The first one stays.
  | clip
  -- All of them stay.
  | keep
  -- None of them stays.
  | strip

def chompOf? : Option Char → Option Chomp
  | some '+' => some .keep
  | some '-' => some .strip
  | _ => none

def indentOf? : Option Char → Option Nat
  | some c => if isDigitOf 10 c then digitValue? c else none
  | none => none

def blockHeader (p : Cursor) : Chomp × Option Nat × Cursor :=
  match chompOf? p.head?, indentOf? p.head? with
  | some chomp, _ =>
      match indentOf? p.next.head? with
      | some n => (chomp, some n, p.advance 2)
      | none => (chomp, none, p.next)
  | none, some n =>
      match chompOf? p.next.head? with
      | some chomp => (chomp, some n, p.advance 2)
      | none => (.clip, some n, p.next)
  | none, none => (.clip, none, p)

def skipTo (column : Nat) (p : Cursor) : Cursor :=
  p.advance (min (column - p.column) (p.rest.takeWhile (· = ' ')).length)

def blockBreaks (indent : Nat) : Nat → Cursor → List Char × Cursor
  | 0, p => ([], p)
  | fuel + 1, p =>
      let p := skipTo indent p
      match p.rest with
      | [] => ([], p)
      | c :: _ =>
          if isBreak c then
            let (more, p) := blockBreaks indent fuel p.next
            (breakText c :: more, p)
          else ([], p)

/-- The deepest column that the spaces of the first lines reach, up to the first character that is
neither space nor line end. -/
def deepestColumn : Nat → Nat → Cursor → Nat
  | 0, deepest, _ => deepest
  | fuel + 1, deepest, p =>
      match p.rest with
      | [] => deepest
      | c :: _ =>
          if isBreak c then deepestColumn fuel deepest p.next
          else if c = ' ' then deepestColumn fuel (max deepest p.next.column) p.next
          else deepest

/-- The lines of a block scalar; `read` holds the characters so far, last first, and `breaks` the
blank lines in front of the next line.  `fuel` bounds what is left of the text. -/
def blockLines (fold : Bool) (chomp : Chomp) (indent : Nat) :
    Nat → List Char → List Char → Cursor → List Char × Cursor
  | 0, read, _, p => (read, p)
  | fuel + 1, read, breaks, p =>
      let line := p.rest.takeWhile (!isBreak ·)
      let read := line.reverse ++ breaks.reverse ++ read
      let p := p.advance line.length
      let lineEnd := (p.rest.take 1).map breakText
      let (breaks, p) := blockBreaks indent fuel p.next
      let word (s : List Char) : Bool := !startsWith (fun c => c = ' ' || c = '\t') s
      if p.column = indent ∧ !p.rest.isEmpty then
        if fold && lineEnd == ['\n'] && word line && word p.rest then
          blockLines fold chomp indent fuel (if breaks.isEmpty then ' ' :: read else read) breaks p
        else blockLines fold chomp indent fuel (lineEnd ++ read) breaks p
      else
        match chomp with
        | .strip => (read, p)
        | .clip => (lineEnd ++ read, p)
        | .keep => (breaks.reverse ++ lineEnd ++ read, p)

/-- The block scalar that follows, from its mark on, below an indentation; `fuel` bounds what is
left of the text. -/
def blockScalar (fuel : Nat) (fold : Bool) (least : Nat) (p : Cursor) :
    Option (String × Cursor) :=
  let (chomp, indent?, p) := blockHeader p.next
  if indent? = some 0 ∨ !endsOr (fun c => c = ' ' || isBreak c) p.rest then none
  else
    match p.skipLine? with
    | none => none
    | some p =>
        let least := max least 1
        let indent :=
          match indent? with
          | some n => least + n - 1
          | none => max least (deepestColumn fuel 0 p)
        let (breaks, p) := blockBreaks indent fuel p
        let (read, p) :=
          if p.column = indent ∧ !p.rest.isEmpty then blockLines fold chomp indent fuel [] breaks p
          else
            match chomp with
            | .keep => (breaks.reverse, p)
            | _ => ([], p)
        some (String.ofList read.reverse, p)

end Yaml

end Monotype
