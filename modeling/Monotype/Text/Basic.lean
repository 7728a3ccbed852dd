/-!
# Texts

A text is a sequence of characters in which surrogates may stand alone.  A surrogate is one half of
the 16-bit spelling of a character beyond the basic plane; JSON can spell a half without the other,
and then no character stands for it.  Texts with different surrogates are different.

A text without surrogates is a `String`, and every string is a text.  `Text.points` lists a text
point by point, and `Text.ofPoints` puts one together.
-/

namespace Monotype

abbrev Surrogate := Fin 0x800

def Surrogate.unit (u : Surrogate) : Nat := 0xd800 + u

inductive Point where
  | char (c : Char)
  | lone (u : Surrogate)
  deriving DecidableEq, Repr

/-- A text: a string, or a string up to the first surrogate, that surrogate, and the rest. -/
inductive Text where
  | plain (s : String)
  | torn (s : String) (u : Surrogate) (rest : Text)
  deriving DecidableEq, Repr

namespace Text

instance : Coe String Text := ⟨plain⟩

instance : Inhabited Text := ⟨plain ""⟩

def points : Text → List Point
  | .plain s => s.toList.map .char
  | .torn s u rest => s.toList.map .char ++ .lone u :: points rest

/-- The text of points that follow some characters; these stand last first. -/
def ofPointsAfter (chars : List Char) : List Point → Text
  | [] => .plain (String.ofList chars.reverse)
  | .char c :: ps => ofPointsAfter (c :: chars) ps
  | .lone u :: ps => .torn (String.ofList chars.reverse) u (ofPointsAfter [] ps)

def ofPoints (ps : List Point) : Text := ofPointsAfter [] ps

/-- No point is lost where characters are collected. -/
theorem points_ofPointsAfter (chars : List Char) (ps : List Point) :
    (ofPointsAfter chars ps).points = chars.reverse.map .char ++ ps := by
  induction ps generalizing chars with
  | nil => simp [ofPointsAfter, points]
  | cons p ps ih =>
      cases p with
      | char c => simp [ofPointsAfter, ih]
      | lone u => simp [ofPointsAfter, points, ih]

/-- No surrogate is lost when a text is put together, and none is mistaken for another. -/
theorem points_ofPoints (ps : List Point) : (ofPoints ps).points = ps :=
  points_ofPointsAfter [] ps

def append : Text → Text → Text
  | .plain s, .plain t => .plain (s ++ t)
  | .plain s, .torn t u rest => .torn (s ++ t) u rest
  | .torn s u rest, t => .torn s u (append rest t)

instance : Append Text := ⟨append⟩

def isEmpty : Text → Bool
  | .plain s => s.isEmpty
  | .torn _ _ _ => false

def string? : Text → Option String
  | .plain s => some s
  | .torn _ _ _ => none

end Text

end Monotype
