import Monotype.Subst.Basic
import Monotype.Term.Basic
import Monotype.Ty.Text

/-!
# Equations between types

An equation asks for two types to be equal and remembers the term whose typing rule asked for it.
-/

namespace Monotype

/-- Two types that should be equal. -/
structure Equation where
  left : Ty
  right : Ty
  -- The term whose typing rule asks for the equation.
  origin : Option Term

namespace Equation

def text (e : Equation) : String := e.left.text ++ " = " ++ e.right.text

def originKind (e : Equation) : Option String := e.origin.map Term.kind

/-- Apply a substitution to both sides, if neither application nests deeper than a limit. -/
def resolveWithin? (limit : Option Nat) (σ : Subst) (e : Equation) : Option Equation :=
  match σ.resolveWithin? limit e.left, σ.resolveWithin? limit e.right with
  | some l, some r => some ⟨l, r, e.origin⟩
  | _, _ => none

end Equation

end Monotype
