import Monotype.Text.Basic
import Monotype.Ty.Basic

/-!
# Binary operators

Arithmetic and order come in two families, one for integers and one for floating-point numbers,
whose symbols differ by a trailing point.  Equality and inequality work on any two operands of the
same type.  `Operator.signature?` gives the operand and result types that an operator fixes;
equality fixes no operand type.
-/

namespace Monotype

inductive Number where
  | int
  | float
  deriving DecidableEq, Repr, Inhabited

def Number.type : Number → Ty
  | .int => .int
  | .float => .float

inductive Arithmetic where
  | add | sub | mul | div
  deriving DecidableEq, Repr, Inhabited

inductive Order where
  | lt | le | gt | ge
  deriving DecidableEq, Repr, Inhabited

inductive Operator where
  | arithmetic (family : Number) (operation : Arithmetic)
  | order (family : Number) (relation : Order)
  | equal
  | unequal
  deriving DecidableEq, Repr, Inhabited

inductive OperandClass where
  | int | float | equality
  deriving DecidableEq, Repr, Inhabited

def OperandClass.name : OperandClass → String
  | .int => "int"
  | .float => "float"
  | .equality => "equality"

namespace Operator

def arithmeticSymbol : Arithmetic → String
  | .add => "+"
  | .sub => "-"
  | .mul => "*"
  | .div => "/"

def orderSymbol : Order → String
  | .lt => "<"
  | .le => "<="
  | .gt => ">"
  | .ge => ">="

def familyMark : Number → String
  | .int => ""
  | .float => "."

def symbol : Operator → String
  | .arithmetic family operation => arithmeticSymbol operation ++ familyMark family
  | .order family relation => orderSymbol relation ++ familyMark family
  | .equal => "=="
  | .unequal => "!="

def familyName : Number → String
  | .int => "INT_"
  | .float => "FLOAT_"

def name : Operator → String
  | .arithmetic family .add => familyName family ++ "ADD"
  | .arithmetic family .sub => familyName family ++ "SUB"
  | .arithmetic family .mul => familyName family ++ "MUL"
  | .arithmetic family .div => familyName family ++ "DIV"
  | .order family .lt => familyName family ++ "LT"
  | .order family .le => familyName family ++ "LEQ"
  | .order family .gt => familyName family ++ "GT"
  | .order family .ge => familyName family ++ "GEQ"
  | .equal => "EQ"
  | .unequal => "NEQ"

def ofFamily (family : Number) : List Operator :=
  [.arithmetic family .add, .arithmetic family .sub, .arithmetic family .mul,
   .arithmetic family .div, .order family .lt, .order family .le, .order family .gt,
   .order family .ge]

def all : List Operator :=
  ofFamily .int ++ ofFamily .float ++ [.equal, .unequal]

def ofSymbol? (symbol : Text) : Option Operator :=
  all.find? fun op => Text.plain op.symbol == symbol

def operands : Operator → OperandClass
  | .arithmetic .int _ | .order .int _ => .int
  | .arithmetic .float _ | .order .float _ => .float
  | .equal | .unequal => .equality

def isComparison : Operator → Bool
  | .arithmetic _ _ => false
  | .order _ _ | .equal | .unequal => true

/-- The operand type and the result type that the operator fixes; equality fixes none. -/
def signature? : Operator → Option (Ty × Ty)
  | .arithmetic family _ => some (family.type, family.type)
  | .order family _ => some (family.type, .bool)
  | .equal | .unequal => none

end Operator

end Monotype
