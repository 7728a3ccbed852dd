import Monotype.Text.Quoted
import Monotype.Ty.Basic

/-!
# Text of types

`Ty.text` is the usual arrow form.  A single parameter stands alone, in parentheses only if it is a
function itself; any other number of parameters is a parenthesised list.  Arrows associate to the
right, so results need no parentheses.

`Ty.form` spells out the constructors instead, for listings that must leave nothing open.

Both are defined on all types.  What writes them for a reader asks `Ty.hasText` or `Ty.hasForm`
first, which refuse types that nest too deeply.
-/

namespace Monotype

namespace Ty

mutual

/-- The arrow form of a type. -/
def text : Ty → String
  | .unknown => "Unknown"
  | .var i => "t" ++ toString i
  | .const c => c
  | .fn [p] r => (if p.isFn then "(" ++ text p ++ ")" else text p) ++ " -> " ++ text r
  | .fn ps r => "(" ++ ", ".intercalate (texts ps) ++ ")" ++ " -> " ++ text r

def texts : List Ty → List String
  | [] => []
  | t :: ts => text t :: texts ts

end

mutual

/-- The constructors of a type, spelled out. -/
def form : Ty → String
  | .unknown => "Type()"
  | .var i => "TypeVariable(id=" ++ toString i ++ ")"
  | .const c => "TypeConstant(name=" ++ Text.quoted c ++ ")"
  | .fn ps r =>
      let params :=
        match forms ps with
        | [p] => p ++ ","
        | forms => ", ".intercalate forms
      "FunctionType(params=(" ++ params ++ "), result=" ++ form r ++ ")"

def forms : List Ty → List String
  | [] => []
  | t :: ts => form t :: forms ts

end

/-- How deeply a type may nest that is written in its arrow form. -/
def textLimit : Nat := 480

/-- How deeply a type may nest whose constructors are spelled out. -/
def formLimit : Nat := 320

def hasText (t : Ty) : Bool := t.depth ≤ textLimit

def hasForm (t : Ty) : Bool := t.depth ≤ formLimit

end Ty

end Monotype
