import Monotype.Equation
import Monotype.Scope
import Monotype.Supply
import Monotype.TypedTerm

/-!
# Generating type equations

One walk over a term gives every subterm a type, known or fresh, and lists the equations that the
typing rules ask for.  Nothing is solved here; the only faults are faults of scope.

- a literal has the type of its kind, a variable the type that its scope gives it;
- `if c then a else b`: `c = Bool`, then `a = b`; it has the type of `a`;
- an operator with a signature fixes both operands, left one first; equality asks for equal operands
  and yields `Bool`;
- a function takes its parameters' types from their annotations or from the supply;
- an application asks for the function's type to be the function type from the arguments' types to
  a fresh result, taken from the supply after the arguments;
- the values of a `let` are typed in the outer scope, each followed by its annotation's equation;
- the names of a `letrec` get fresh types first; each value then equals its name's type, and that
  its annotation.

The supply keeps what was taken from it, also when the walk ends in a fault.
-/

namespace Monotype

/-- Why a term has no equations. -/
inductive ScopeFault where
  | unbound (name : Text)
  | hole
  deriving DecidableEq, Repr

/-- A walk that takes variables from a supply and may end in a fault of scope. -/
abbrev Walk := ExceptT ScopeFault (StateM Supply)

namespace Walk

def fresh : Walk Ty := do
  let s ← getThe Supply
  set s.advance
  return s.fresh

def freshAll {α : Type} : List α → Walk (List Ty)
  | [] => return []
  | _ :: as => do
      let t ← fresh
      let ts ← freshAll as
      return t :: ts

end Walk

/-- Typed trees with the equations that they ask for. -/
structure Generated (α : Type) where
  trees : α
  equations : List Equation

namespace Param

/-- The types of parameters: their annotations, or fresh variables. -/
def types : List Param → Walk (List Ty)
  | [] => return []
  | p :: ps => do
      let t ← match p.declared with
        | some t => pure t
        | none => Walk.fresh
      let ts ← types ps
      return t :: ts

end Param

namespace Term

mutual

/-- Type a term in a scope and list the equations that this asks for. -/
def generate (Γ : Scope) : Term → Walk (Generated TypedTerm)
  | .hole => throw .hole
  | .lit v => return ⟨.leaf (.lit v) v.kind.type, []⟩
  | .var x =>
      match Γ.lookup x with
      | some t => return ⟨.leaf (.var x) t, []⟩
      | none => throw (.unbound x)
  | .cond c t e => do
      let c' ← generate Γ c
      let t' ← generate Γ t
      let e' ← generate Γ e
      let origin := some (.cond c t e)
      return ⟨.node (.cond c t e) t'.trees.type [c'.trees, t'.trees, e'.trees] [],
        c'.equations ++ t'.equations ++ e'.equations ++
          [⟨c'.trees.type, .bool, origin⟩, ⟨t'.trees.type, e'.trees.type, origin⟩]⟩
  | .binop op l r => do
      let l' ← generate Γ l
      let r' ← generate Γ r
      let origin := some (.binop op l r)
      match op.signature? with
      | none =>
          return ⟨.node (.binop op l r) .bool [l'.trees, r'.trees] [],
            l'.equations ++ r'.equations ++ [⟨l'.trees.type, r'.trees.type, origin⟩]⟩
      | some (operand, result) =>
          return ⟨.node (.binop op l r) result [l'.trees, r'.trees] [],
            l'.equations ++ r'.equations ++
              [⟨l'.trees.type, operand, origin⟩, ⟨r'.trees.type, operand, origin⟩]⟩
  | .lam ps b => do
      let types ← Param.types ps
      let bound := (ps.map Param.name).zip types
      let b' ← generate (Γ.extend bound) b
      return ⟨.node (.lam ps b) (.fn types b'.trees.type) [b'.trees] bound, b'.equations⟩
  | .app f args => do
      let f' ← generate Γ f
      let args' ← generateAll Γ args
      -- The variable of the result is taken after the parts.
      let result ← Walk.fresh
      return ⟨.node (.app f args) result (f'.trees :: args'.trees) [],
        f'.equations ++ args'.equations ++
          [⟨f'.trees.type, .fn (args'.trees.map TypedTerm.type) result, some (.app f args)⟩]⟩
  | .letIn bs b => do
      let bs' ← generateValues Γ (.letIn bs b) bs
      -- Nothing is generalised: the body sees the types of the values as they are.
      let bound := (bs.map Binding.name).zip (bs'.trees.map TypedTerm.type)
      let b' ← generate (Γ.extend bound) b
      return ⟨.node (.letIn bs b) b'.trees.type (bs'.trees ++ [b'.trees]) bound,
        bs'.equations ++ b'.equations⟩
  | .letRec bs b => do
      let places ← Walk.freshAll bs
      -- The names are in scope in the values too, with types that are still open.
      let bound := (bs.map Binding.name).zip places
      let bs' ← generateRecursive (Γ.extend bound) (.letRec bs b) places bs
      let b' ← generate (Γ.extend bound) b
      return ⟨.node (.letRec bs b) b'.trees.type (bs'.trees ++ [b'.trees]) bound,
        bs'.equations ++ b'.equations⟩

def generateAll (Γ : Scope) : List Term → Walk (Generated (List TypedTerm))
  | [] => return ⟨[], []⟩
  | t :: ts => do
      let t' ← generate Γ t
      let ts' ← generateAll Γ ts
      return ⟨t'.trees :: ts'.trees, t'.equations ++ ts'.equations⟩

def generateValues (Γ : Scope) (origin : Term) :
    List (Binding Term) → Walk (Generated (List TypedTerm))
  | [] => return ⟨[], []⟩
  | ⟨_, declared, v⟩ :: bs => do
      let v' ← generate Γ v
      let asked := declared.toList.map fun a => ⟨v'.trees.type, a, some origin⟩
      let bs' ← generateValues Γ origin bs
      return ⟨v'.trees :: bs'.trees, v'.equations ++ asked ++ bs'.equations⟩

/-- Type the values of a `letrec` from left to right; `places` are the types of their names. -/
def generateRecursive (Γ : Scope) (origin : Term) (places : List Ty) :
    List (Binding Term) → Walk (Generated (List TypedTerm))
  | [] => return ⟨[], []⟩
  | ⟨_, declared, v⟩ :: bs =>
      match places with
      | [] => return ⟨[], []⟩
      | place :: places => do
          let v' ← generate Γ v
          let asked := ⟨place, v'.trees.type, some origin⟩ ::
            declared.toList.map fun a => ⟨place, a, some origin⟩
          let bs' ← generateRecursive Γ origin places bs
          return ⟨v'.trees :: bs'.trees, v'.equations ++ asked ++ bs'.equations⟩

end

/-- Run the walk over a term from a supply: the outcome, and the supply that is left. -/
def generateFrom (Γ : Scope) (t : Term) (s : Supply) :
    Except ScopeFault (Generated TypedTerm) × Supply :=
  ((generate Γ t).run).run s

end Term

end Monotype
