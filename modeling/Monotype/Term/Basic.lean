import Monotype.Binary64.Basic
import Monotype.Operator
import Monotype.Ty.Basic

/-!
# Terms

The expression language: literals, variables, conditionals, binary operators, functions of several
parameters with their applications, `let` and `letrec`.  Parameters and bindings may carry a type
annotation.  A `hole` stands where a term is missing.

Bindings of a `let` are typed in the outer scope and visible in its body only; the names of a
`letrec` are visible in all its values and in its body.

- `Term.kind` names the form of a term;
- `Term.depth` is the nesting depth;
- `Term.WellFormed` says what a term that was put together properly satisfies: binding lists are not
  empty and every value of a `letrec` is a function.
-/

namespace Monotype

inductive Literal where
  | int (value : Int)
  | float (value : Binary64)
  | bool (value : Bool)
  deriving DecidableEq, Repr, Inhabited

inductive LiteralKind where
  | int | float | bool
  deriving DecidableEq, Repr, Inhabited

namespace LiteralKind

def name : LiteralKind → String
  | .int => "Int"
  | .float => "Float"
  | .bool => "Bool"

def type : LiteralKind → Ty
  | .int => .int
  | .float => .float
  | .bool => .bool

def ofName? (name : Text) : Option LiteralKind :=
  [.int, .float, .bool].find? fun k : LiteralKind => Text.plain k.name == name

end LiteralKind

def Literal.kind : Literal → LiteralKind
  | .int _ => .int
  | .float _ => .float
  | .bool _ => .bool

structure Param where
  name : Text
  declared : Option Ty
  deriving DecidableEq, Repr, Inhabited

structure Binding (α : Type) where
  name : Text
  declared : Option Ty
  value : α
  deriving Repr, Inhabited

/-- A term. -/
inductive Term where
  | hole
  | lit (value : Literal)
  | var (name : Text)
  | cond (test yes no : Term)
  | binop (op : Operator) (lhs rhs : Term)
  | lam (params : List Param) (body : Term)
  -- An application to all arguments at once.
  | app (function : Term) (args : List Term)
  -- Bindings that are visible in the body.
  | letIn (bindings : List (Binding Term)) (body : Term)
  -- Bindings that are visible in the body and in each other.
  | letRec (bindings : List (Binding Term)) (body : Term)
  deriving Repr, Inhabited

namespace Term

def kind : Term → String
  | .hole => "Term"
  | .lit _ => "Literal"
  | .var _ => "Variable"
  | .cond _ _ _ => "Conditional"
  | .binop _ _ _ => "BinaryOp"
  | .lam _ _ => "Lambda"
  | .app _ _ => "Application"
  | .letIn _ _ => "Let"
  | .letRec _ _ => "Letrec"

def isLam : Term → Bool
  | .lam _ _ => true
  | _ => false

mutual

def depth : Term → Nat
  | .hole => 1
  | .lit _ => 1
  | .var _ => 1
  | .cond c t e => max (depth c) (max (depth t) (depth e)) + 1
  | .binop _ l r => max (depth l) (depth r) + 1
  | .lam _ b => depth b + 1
  | .app f args => max (depth f) (depthAll args) + 1
  | .letIn bs b => max (depthBindings bs) (depth b) + 1
  | .letRec bs b => max (depthBindings bs) (depth b) + 1

def depthAll : List Term → Nat
  | [] => 0
  | t :: ts => max (depth t) (depthAll ts)

def depthBindings : List (Binding Term) → Nat
  | [] => 0
  | ⟨_, _, v⟩ :: bs => max (depth v) (depthBindings bs)

end

mutual

/-- The term with a hole in the place of every subterm below a depth. -/
def prune : Nat → Term → Term
  | 0, _ => .hole
  | _ + 1, .hole => .hole
  | _ + 1, .lit v => .lit v
  | _ + 1, .var x => .var x
  | n + 1, .cond c t e => .cond (prune n c) (prune n t) (prune n e)
  | n + 1, .binop op l r => .binop op (prune n l) (prune n r)
  | n + 1, .lam ps b => .lam ps (prune n b)
  | n + 1, .app f args => .app (prune n f) (pruneAll n args)
  | n + 1, .letIn bs b => .letIn (pruneBindings n bs) (prune n b)
  | n + 1, .letRec bs b => .letRec (pruneBindings n bs) (prune n b)

def pruneAll : Nat → List Term → List Term
  | _, [] => []
  | n, t :: ts => prune n t :: pruneAll n ts

def pruneBindings : Nat → List (Binding Term) → List (Binding Term)
  | _, [] => []
  | n, ⟨x, a, v⟩ :: bs => ⟨x, a, prune n v⟩ :: pruneBindings n bs

end

/-! ## Well-formed terms -/

inductive NodeFault where
  -- A `let` or, if recursive, a `letrec` without bindings.
  | noBindings (recursive : Bool)
  -- A name of a `letrec` whose value is not a function.
  | notFunction (name : Text)
  deriving DecidableEq, Repr

def nodeFault? : Term → Option NodeFault
  | .letIn bs _ => if bs.isEmpty then some (.noBindings false) else none
  | .letRec bs _ =>
      if bs.isEmpty then some (.noBindings true)
      else (bs.find? fun b => !b.value.isLam).map fun b => .notFunction b.name
  | _ => none

mutual

/-- Every binding list has a binding, and every value of a `letrec` is a function. -/
def WellFormed : Term → Prop
  | .hole => True
  | .lit _ => True
  | .var _ => True
  | .cond c t e => WellFormed c ∧ WellFormed t ∧ WellFormed e
  | .binop _ l r => WellFormed l ∧ WellFormed r
  | .lam _ b => WellFormed b
  | .app f args => WellFormed f ∧ WellFormedAll args
  | .letIn bs b => bs ≠ [] ∧ WellFormedBindings bs ∧ WellFormed b
  | .letRec bs b =>
      bs ≠ [] ∧ (∀ x ∈ bs, x.value.isLam = true) ∧ WellFormedBindings bs ∧ WellFormed b

def WellFormedAll : List Term → Prop
  | [] => True
  | t :: ts => WellFormed t ∧ WellFormedAll ts

def WellFormedBindings : List (Binding Term) → Prop
  | [] => True
  | ⟨_, _, v⟩ :: bs => WellFormed v ∧ WellFormedBindings bs

end

end Term

end Monotype
