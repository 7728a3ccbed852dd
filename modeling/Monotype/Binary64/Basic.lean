/-!
# Double-precision numbers

Numbers of the IEEE 754 format with 53 bits of significand, as exact data: a finite number is a
sign, a natural significand and a power of two.  Rounding is to nearest, and a tie goes to the even
significand; all of it is done in exact arithmetic on naturals.

- `Binary64.ofRatio` rounds a quotient of naturals;
- `Binary64.ofInt?` rounds an integer and fails beyond the largest finite number;
- `Binary64.ofDecimal` reads decimal digits with a power of ten, overflowing to infinity;
- `Binary64.add` and `Binary64.mul` round the exact sum and the exact product.
-/

namespace Monotype

namespace Binary64

def minExponent : Int := -1074

def maxExponent : Int := 971

/-- The significand has 53 bits, or fewer where the exponent is least, and the exponent is in
range. -/
def InFormat (significand : Nat) (exponent : Int) : Prop :=
  significand < Nat.pow 2 53 ∧ (Nat.pow 2 52 ≤ significand ∨ exponent = minExponent) ∧
    minExponent ≤ exponent ∧ exponent ≤ maxExponent

instance (significand : Nat) (exponent : Int) : Decidable (InFormat significand exponent) :=
  inferInstanceAs (Decidable (_ ∧ _))

end Binary64

/-- A double-precision number.  A finite number is `significand · 2 ^ exponent` with its sign; zero
has a sign as well. -/
inductive Binary64 where
  | nan
  | infinite (negative : Bool)
  | finite (negative : Bool) (significand : Nat) (exponent : Int)
      (inFormat : Binary64.InFormat significand exponent)
  deriving DecidableEq, Repr, Inhabited

namespace Binary64

def zero (negative : Bool) : Binary64 := .finite negative 0 minExponent (by decide)

def scale (num den : Nat) (k : Int) : Nat × Nat :=
  if 0 ≤ k then (num * Nat.pow 2 k.toNat, den) else (num, den * Nat.pow 2 (-k).toNat)

/-- The natural nearest to `num / den`; a tie goes to the even one. -/
def roundToEven (num den : Nat) : Nat :=
  let q := num / den
  let r := num % den
  if 2 * r > den ∨ (2 * r = den ∧ q % 2 = 1) then q + 1 else q

/-- The exponent at which `num / den` has a significand of 53 bits, or the least exponent. -/
def exponentOf (num den : Nat) : Int :=
  let e := max minExponent ((num.log2 : Int) - (den.log2 : Int) - 53)
  let (n, d) := scale num den (-e)
  if n / d < Nat.pow 2 53 then e else e + 1

/-- The number nearest to `num / den`; infinite when it rounds beyond the largest finite number. -/
def ofRatio (negative : Bool) (num den : Nat) : Binary64 :=
  if num = 0 then zero negative
  else
    let e := exponentOf num den
    let (n, d) := scale num den (-e)
    let m := roundToEven n d
    let (m, e) := if m = Nat.pow 2 53 then (Nat.pow 2 52, e + 1) else (m, e)
    if h : InFormat m e then .finite negative m e h else .infinite negative

def ofInt? (n : Int) : Option Binary64 :=
  match ofRatio (decide (n < 0)) n.natAbs 1 with
  | .infinite _ => none
  | x => some x

def digitCount (n : Nat) : Nat := (Nat.toDigits 10 n).length

/-- The number nearest to `digits · 10 ^ power`.  Magnitudes far outside the range are decided by
their number of digits alone. -/
def ofDecimal (negative : Bool) (digits : Nat) (power : Int) : Binary64 :=
  if digits = 0 then zero negative
  else
    let magnitude := (digitCount digits : Int) + power
    if magnitude > 310 then .infinite negative
    else if magnitude < -330 then zero negative
    else if 0 ≤ power then ofRatio negative (digits * Nat.pow 10 power.toNat) 1
    else ofRatio negative digits (Nat.pow 10 (-power).toNat)

/-! ## Arithmetic -/

def neg : Binary64 → Binary64
  | .nan => .nan
  | .infinite negative => .infinite !negative
  | .finite negative m e h => .finite (!negative) m e h

def scaled? : Binary64 → Option (Int × Int)
  | .finite negative m e _ => some (if negative then -(m : Int) else m, e)
  | _ => none

def sameScaled (x y : Int × Int) : Bool :=
  let e := min x.2 y.2
  x.1 * Int.pow 2 (x.2 - e).toNat == y.1 * Int.pow 2 (y.2 - e).toNat

def add : Binary64 → Binary64 → Binary64
  | .finite a m e _, .finite b n f _ =>
      let low := min e f
      let signed (negative : Bool) (m : Nat) (e : Int) : Int :=
        (if negative then -1 else 1) * (m * Nat.pow 2 (e - low).toNat : Nat)
      let sum := signed a m e + signed b n f
      if sum = 0 then zero (a && b)
      else
        let (num, den) := scale sum.natAbs 1 low
        ofRatio (decide (sum < 0)) num den
  | .infinite a, .infinite b => if a = b then .infinite a else .nan
  | .infinite a, .finite .. | .finite .., .infinite a => .infinite a
  | .nan, _ | _, .nan => .nan

def mul : Binary64 → Binary64 → Binary64
  | .finite a m e _, .finite b n f _ =>
      let (num, den) := scale (m * n) 1 (e + f)
      ofRatio (xor a b) num den
  | .infinite a, .infinite b => .infinite (xor a b)
  | .infinite a, .finite b n _ _ | .finite b n _ _, .infinite a =>
      if n = 0 then .nan else .infinite (xor a b)
  | .nan, _ | _, .nan => .nan

end Binary64

end Monotype
