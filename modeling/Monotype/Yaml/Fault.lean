/-!
# Faults of YAML documents

Why a text gives no document.  Only `malformed` says that the text is not YAML; the other faults are
those of single scalars whose form is right and whose value does not exist, of nesting, and of what
a reader does not read.
-/

namespace Monotype

namespace Yaml

inductive MomentField where
  | year
  | month
  | day
  | hour
  | minute
  | second
  deriving DecidableEq, Repr

/-- Why a text gives no document. -/
inductive Fault where
  | malformed
  | tooDeep
  | noCharacter (code : Nat)
  -- A number that has its base and no digits.
  | noDigits (base : Nat)
  | tooLong (digits : Nat)
  | noMoment (field : MomentField) (value : Nat)
  -- A distance from universal time of a day or more, in minutes.
  | noOffset (minutes : Int)
  | other (what : String)
  deriving DecidableEq, Repr

end Yaml

end Monotype
