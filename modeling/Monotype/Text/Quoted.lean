import Monotype.Text.Basic
import Monotype.Text.Printable

/-!
# Texts in quotes

How a text is shown inside a message: in single quotes, or in double quotes if it holds a single
quote and no double quote.  The quote in use, the backslash and everything without a printed form
are escaped, so the shown text is one line and says exactly which points it stands for.
-/

namespace Monotype.Text

def hexDigits (width n : Nat) : List Char :=
  let ds := Nat.toDigits 16 n
  List.replicate (width - ds.length) '0' ++ ds

def quoteFor (ps : List Point) : Char :=
  if ps.contains (.char '\'') && !ps.contains (.char '"') then '"' else '\''

def quotedChar (quote c : Char) : List Char :=
  if c = quote ∨ c = '\\' then ['\\', c]
  else if c = '\n' then ['\\', 'n']
  else if c = '\r' then ['\\', 'r']
  else if c = '\t' then ['\\', 't']
  else if isPrintable c then [c]
  else if c.toNat < 0x100 then '\\' :: 'x' :: hexDigits 2 c.toNat
  else if c.toNat < 0x10000 then '\\' :: 'u' :: hexDigits 4 c.toNat
  else '\\' :: 'U' :: hexDigits 8 c.toNat

def quotedPoint (quote : Char) : Point → List Char
  | .char c => quotedChar quote c
  | .lone u => '\\' :: 'u' :: hexDigits 4 u.unit

/-- A text in quotes, as messages show it. -/
def quoted (t : Text) : String :=
  let quote := quoteFor t.points
  String.ofList (quote :: t.points.flatMap (quotedPoint quote) ++ [quote])

/-- A text with its surrogates escaped, as the log shows it. -/
def escaped : Text → String
  | .plain s => s
  | .torn s u rest => s ++ String.ofList ('\\' :: 'u' :: hexDigits 4 u.unit) ++ escaped rest

end Monotype.Text
