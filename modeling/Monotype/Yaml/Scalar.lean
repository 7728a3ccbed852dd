import Monotype.Document
import Monotype.Text.Digit
import Monotype.Yaml.Digit
import Monotype.Yaml.Fault

/-!
# Values of plain scalars

What a scalar without quotes stands for, by the rules of YAML 1.1: truth values in three spellings
of case, null, integers in base 2, 8, 10, 16 and 60, floating-point numbers with a point, dates and
times, two words for mappings, and otherwise the text itself.  Underscores may separate digits.

The form of a scalar decides its sort.  A few scalars have the form of a number or date and no
value; these are faults.
-/

namespace Monotype

namespace Yaml

inductive Plain where
  | value (value : Document)
  -- The word that takes over the entries of other mappings.
  | merge
  -- The word for a value without a key.
  | equals
  | fault (fault : Fault)

/-! ## Words -/

def inCases (word : String) : List String :=
  [word, word.capitalize, word.toUpper]

def truthWords : List (String × Bool) :=
  [("yes", true), ("no", false), ("true", true), ("false", false), ("on", true), ("off", false)]

def truth? (s : String) : Option Bool :=
  (truthWords.find? fun w => (inCases w.1).contains s).map Prod.snd

def isNull (s : String) : Bool :=
  s.isEmpty || s = "~" || (inCases "null").contains s

/-! ## Integers -/

def splitSign : List Char → Bool × List Char
  | '-' :: cs => (true, cs)
  | '+' :: cs => (false, cs)
  | cs => (false, cs)

def cutAt (sep : Char) : List Char → List (List Char)
  | [] => [[]]
  | c :: cs =>
      match cutAt sep cs with
      | part :: parts => if c = sep then [] :: part :: parts else (c :: part) :: parts
      | [] => [[c]]

def isPositiveDecimal : List Char → Bool
  | [] => false
  | c :: cs => isDigitOf 10 c && c != '0' && cs.all (isSpacedDigitOf 10)

/-- One place of a number in base 60: one digit, or two of which the first is below six. -/
def isSixtieth : List Char → Bool
  | [d] => isDigitOf 10 d
  | [d, e] => isDigitOf 6 d && isDigitOf 10 e
  | _ => false

def decimal (cs : List Char) : Except Fault Nat :=
  let digits := (cs.filter (isDigitOf 10)).length
  if digits ≤ Text.digitLimit then .ok (valueIn 10 cs) else .error (.tooLong digits)

def based (base : Nat) (cs : List Char) : Except Fault Nat :=
  if cs.any (isDigitOf base) then .ok (valueIn base cs) else .error (.noDigits base)

def magnitude? (cs : List Char) : Option (Except Fault Nat) :=
  match cs with
  | ['0'] => some (.ok 0)
  | '0' :: 'b' :: ds =>
      if !ds.isEmpty && ds.all (isSpacedDigitOf 2) then some (based 2 ds) else none
  | '0' :: 'x' :: ds =>
      if !ds.isEmpty && ds.all (isSpacedDigitOf 16) then some (based 16 ds) else none
  | '0' :: ds => if ds.all (isSpacedDigitOf 8) then some (.ok (valueIn 8 ds)) else none
  | cs =>
      match cutAt ':' cs with
      | [whole] => if isPositiveDecimal whole then some (decimal whole) else none
      | first :: rest =>
          if isPositiveDecimal first && rest.all isSixtieth then
            some ((decimal first).map fun n =>
              rest.foldl (fun n part => n * 60 + valueIn 10 part) n)
          else none
      | [] => none

def int? (s : String) : Option (Except Fault Int) :=
  let (negative, cs) := splitSign s.toList
  (magnitude? cs).map fun r => r.map fun n => if negative then -(n : Int) else n

/-! ## Floating-point numbers -/

def exponent? : List Char → Option Int
  | [] => some 0
  | mark :: sign :: ds =>
      if (mark = 'e' ∨ mark = 'E') ∧ (sign = '+' ∨ sign = '-') ∧ ds ≠ [] ∧
        ds.all (isDigitOf 10) then
        let n : Int := valueIn 10 ds
        some (if sign = '-' then -n else n)
      else none
  | _ => none

def pointed? (signed negative : Bool) (cs : List Char) : Option Binary64 :=
  let whole := cs.takeWhile (isSpacedDigitOf 10)
  match cs.dropWhile (isSpacedDigitOf 10) with
  | '.' :: rest =>
      let fraction := rest.takeWhile (isSpacedDigitOf 10)
      let wellStarted :=
        match whole, fraction with
        | d :: _, _ => isDigitOf 10 d
        | [], d :: _ => isDigitOf 10 d && !signed
        | [], [] => false
      match wellStarted, exponent? (rest.dropWhile (isSpacedDigitOf 10)) with
      | true, some e =>
          let places := (fraction.filter (isDigitOf 10)).length
          some (.ofDecimal negative (valueIn 10 (whole ++ fraction)) (e - places))
      | _, _ => none
  | _ => none

def isDecimal : List Char → Bool
  | [] => false
  | c :: cs => isDigitOf 10 c && cs.all (isSpacedDigitOf 10)

/-- Add up the places of a number in base 60, last place first: each is multiplied by a power of 60
and added to the sum, and both results are rounded. -/
def sumSixtieths (sum : Binary64) (power : Nat) : List Binary64 → Binary64
  | [] => sum
  | x :: xs => sumSixtieths (sum.add (x.mul (.ofRatio false power 1))) (power * 60) xs

def sixtieths? (cs : List Char) : Option Binary64 :=
  match (cutAt ':' cs).reverse with
  | last :: places =>
      let whole := last.takeWhile (isDigitOf 10)
      match last.dropWhile (isDigitOf 10), places.reverse with
      | '.' :: fraction, first :: middle =>
          if isDecimal first && middle.all isSixtieth && isSixtieth whole &&
              fraction.all (isSpacedDigitOf 10) then
            let digits := (fraction.filter (isDigitOf 10)).length
            let lastPlace := Binary64.ofDecimal false (valueIn 10 (whole ++ fraction)) (-digits)
            let others := places.map fun p => Binary64.ofDecimal false (valueIn 10 p) 0
            some (sumSixtieths (.zero false) 1 (lastPlace :: others))
          else none
      | _, _ => none
  | [] => none

def float? (s : String) : Option Binary64 :=
  let cs := s.toList
  let (negative, unsigned) := splitSign cs
  if [".inf", ".Inf", ".INF"].contains (String.ofList unsigned) then some (.infinite negative)
  else if [".nan", ".NaN", ".NAN"].contains s then some .nan
  else
    match pointed? (unsigned.length != cs.length) negative unsigned with
    | some x => some x
    | none => (sixtieths? unsigned).map fun x => if negative then x.neg else x

/-! ## Dates and times -/

/-- A number of at least and at most so many digits, and what follows it. -/
def digits? (least most : Nat) (cs : List Char) : Option (Nat × List Char) :=
  let ds := (cs.take most).takeWhile (isDigitOf 10)
  if least ≤ ds.length then some (valueIn 10 ds, cs.drop ds.length) else none

def digitsAfter? (mark : Char) (least most : Nat) : List Char → Option (Nat × List Char)
  | [] => none
  | c :: cs => if c = mark then digits? least most cs else none

def zone? (cs : List Char) : Option (Option Int) :=
  match cs with
  | [] => some none
  | cs =>
      match cs.dropWhile fun c => c = ' ' || c = '\t' with
      | ['Z'] => some (some 0)
      | sign :: cs =>
          if sign = '+' ∨ sign = '-' then
            match digits? 1 2 cs with
            | none => none
            | some (hours, cs) =>
                let signed (n : Nat) : Int := if sign = '-' then -(n : Int) else n
                match cs with
                | [] => some (some (signed (hours * 60)))
                | cs =>
                    match digitsAfter? ':' 2 2 cs with
                    | some (minutes, []) => some (some (signed (hours * 60 + minutes)))
                    | _ => none
          else none
      | [] => none

def microseconds (fraction : List Char) : Nat :=
  valueIn 10 ((fraction ++ List.replicate 6 '0').take 6)

def timeOfDay? (cs : List Char) : Option (Nat × Nat × Nat × Nat × Option Int) := do
  let (hour, cs) ← digits? 1 2 cs
  let (minute, cs) ← digitsAfter? ':' 2 2 cs
  let (second, cs) ← digitsAfter? ':' 2 2 cs
  let (fraction, cs) :=
    match cs with
    | '.' :: cs => (cs.takeWhile (isDigitOf 10), cs.dropWhile (isDigitOf 10))
    | cs => ([], cs)
  let offset ← zone? cs
  return (hour, minute, second, microseconds fraction, offset)

def dateFault? (year month day : Nat) : Option Fault :=
  if year = 0 then some (.noMoment .year year)
  else if month = 0 ∨ month > 12 then some (.noMoment .month month)
  else if day = 0 ∨ day > Moment.daysIn year month then some (.noMoment .day day)
  else none

/-- The first field of a time that is out of its range; the distance from universal time comes
before the date, and the time of day after it. -/
def timeFault? (year month day hour minute second : Nat) (offset : Option Int) : Option Fault :=
  match offset.filter fun minutes => 1440 ≤ minutes.natAbs with
  | some minutes => some (.noOffset minutes)
  | none =>
      match dateFault? year month day with
      | some fault => some fault
      | none =>
          if hour > 23 then some (.noMoment .hour hour)
          else if minute > 59 then some (.noMoment .minute minute)
          else if second > 59 then some (.noMoment .second second)
          else none

def faultOr (fault : Option Fault) (m : Moment) : Except Fault Moment :=
  match fault with
  | some fault => .error fault
  | none => .ok m

/-- The date or time that a scalar spells, if the form is right.  A date that stands alone has two
digits for the month and the day. -/
def moment? (s : String) : Option (Except Fault Moment) := do
  let cs := s.toList
  let (year, cs) ← digits? 4 4 cs
  let (month, cs) ← digitsAfter? '-' 1 2 cs
  let (day, cs) ← digitsAfter? '-' 1 2 cs
  match cs with
  | [] =>
      if s.length = 10 then some (faultOr (dateFault? year month day) (.date year month day))
      else none
  | c :: rest =>
      let isBlank (c : Char) : Bool := c = ' ' || c = '\t'
      if c = 'T' ∨ c = 't' ∨ isBlank c then
        let rest := if isBlank c then rest.dropWhile isBlank else rest
        let (hour, minute, second, micro, offset) ← timeOfDay? rest
        some (faultOr (timeFault? year month day hour minute second offset)
          (.time year month day hour minute second micro offset))
      else none

/-! ## Scalars -/

def Plain.ofExcept {α : Type} (make : α → Document) : Except Fault α → Plain
  | .ok a => .value (make a)
  | .error cause => .fault cause

def plain (s : String) : Plain :=
  match truth? s with
  | some b => .value (.bool b)
  | none =>
  match float? s with
  | some x => .value (.float x)
  | none =>
  match int? s with
  | some r => .ofExcept .int r
  | none =>
  match moment? s with
  | some r => .ofExcept .moment r
  | none =>
      if isNull s then .value .null
      else if s = "<<" then .merge
      else if s = "=" then .equals
      else .value (.str s)

end Yaml

end Monotype
