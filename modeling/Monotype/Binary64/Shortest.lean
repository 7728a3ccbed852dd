import Monotype.Binary64.Basic

/-!
# Shortest decimal text of a double

The digits are the fewest that read back as the same number; among equally short ones the nearest
to it, and of two equally near ones the even one.  The search looks at decimal grids of 1, 2, …, 17
digits and tests the two neighbours of the number on each grid against the interval of reals that
round to the number.  Seventeen digits always suffice.

The text is positional when the decimal exponent lies between -4 and 15, with at least one digit on
each side of the point; otherwise it has an exponent with a sign and at least two digits.
-/

namespace Monotype

namespace Binary64

/-- Decimal digits `d₁ d₂ … dₙ`, read as `0.d₁d₂…dₙ · 10 ^ point`. -/
structure Decimal where
  -- The digits as one natural number, without a zero at either end.
  digits : Nat
  point : Int
  deriving DecidableEq, Repr

/-- The interval of reals that round to a number, in quarters of its unit in the last place. -/
structure Interval where
  value : Nat
  low : Nat
  high : Nat
  -- Whether the ends round to the number too.
  closed : Bool

/-- The interval of a positive number.  Below a power of two the neighbours are twice as near. -/
def interval (significand : Nat) (exponent : Int) : Interval where
  value := 4 * significand
  low := if significand = Nat.pow 2 52 ∧ exponent > minExponent then 4 * significand - 1
    else 4 * significand - 2
  high := 4 * significand + 2
  closed := significand % 2 = 0

def quotient (n : Nat) (two ten : Int) : Nat × Nat :=
  (n * Nat.pow 2 two.toNat * Nat.pow 10 ten.toNat, Nat.pow 2 (-two).toNat * Nat.pow 10 (-ten).toNat)

/-- The place of the point in the decimal text of `n · 2 ^ two`, found by counting the digits in
front of a point that is moved far to the right. -/
def pointOf (n : Nat) (two : Int) : Int :=
  let (num, den) := quotient n two 400
  (digitCount (num / den) : Int) - 400

/-- Whether the grid point `c` lies in the interval, where `num / den` is the size of a quarter
unit on the grid. -/
def Interval.holds (i : Interval) (num den c : Nat) : Bool :=
  if i.closed then i.low * num ≤ c * den && c * den ≤ i.high * num
  else i.low * num < c * den && c * den < i.high * num

/-- The better of the two neighbours of the number on a grid, if one of them reads back. -/
def Interval.onGrid (i : Interval) (num den : Nat) : Option Nat :=
  let below := i.value * num / den
  let above := below + 1
  match i.holds num den below, i.holds num den above with
  | true, true =>
      let down := i.value * num - below * den
      let up := above * den - i.value * num
      if down < up ∨ (down = up ∧ below % 2 = 0) then some below else some above
  | true, false => some below
  | false, true => some above
  | false, false => none

/-- Try grids of `n`, `n + 1`, … digits, at most `fuel` of them. -/
def searchGrids (i : Interval) (two point : Int) : Nat → Nat → Nat × Int
  | 0, n =>
      let (num, den) := quotient 1 two (n - point)
      (i.value * num / den, point - n)
  | fuel + 1, n =>
      let (num, den) := quotient 1 two (n - point)
      match i.onGrid num den with
      | some c => (c, point - n)
      | none => searchGrids i two point fuel (n + 1)

def dropZeros : Nat → Nat → Nat
  | 0, n => n
  | fuel + 1, n => if n % 10 = 0 ∧ n ≠ 0 then dropZeros fuel (n / 10) else n

def shortest (significand : Nat) (exponent : Int) : Decimal :=
  let i := interval significand exponent
  let two := exponent - 2
  let point := pointOf i.value two
  let (c, power) := searchGrids i two point 17 1
  { digits := dropZeros 20 c, point := (digitCount c : Int) + power }

/-! ## Text -/

def exponentText (e : Int) : List Char :=
  let ds := Nat.toDigits 10 e.natAbs
  'e' :: (if e < 0 then '-' else '+') :: List.replicate (2 - ds.length) '0' ++ ds

def Decimal.text (d : Decimal) : List Char :=
  let ds := Nat.toDigits 10 d.digits
  let n : Int := ds.length
  if -3 ≤ d.point ∧ d.point ≤ 16 then
    if d.point ≤ 0 then '0' :: '.' :: List.replicate (-d.point).toNat '0' ++ ds
    else if d.point ≥ n then ds ++ List.replicate (d.point - n).toNat '0' ++ ['.', '0']
    else ds.take d.point.toNat ++ '.' :: ds.drop d.point.toNat
  else
    ds.take 1 ++ (if ds.length = 1 then [] else '.' :: ds.drop 1) ++ exponentText (d.point - 1)

/-- The text of a number: the fewest digits that read back. -/
def text : Binary64 → String
  | .nan => "nan"
  | .infinite negative => if negative then "-inf" else "inf"
  | .finite negative significand exponent _ =>
      let magnitude :=
        if significand = 0 then ['0', '.', '0'] else (shortest significand exponent).text
      String.ofList (if negative then '-' :: magnitude else magnitude)

end Binary64

end Monotype
