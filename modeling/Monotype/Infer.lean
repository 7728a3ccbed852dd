import Monotype.Generate
import Monotype.Report
import Monotype.Unify.Basic

/-!
# Type inference

The principal type of a term: generate the equations, solve them in order, and read every type of
the tree back through the solution.

A run also leaves a trace, an account of its steps in order.

`Term.infer` has no limits.  `Term.check` refuses terms that nest deeper than `depthLimit`, scopes
in which a name stands more than `layerLimit` layers away, and types that nest deeper than
`Ty.depthLimit` on the way, unless another fault comes first.
-/

namespace Monotype

structure Unsolved where
  obstacle : Unify.Obstacle
  equation : Equation

/-- The outcome of solving a list of equations, with what was done on the way. -/
structure Solving where
  outcome : Except Unsolved Subst
  steps : Nat
  bindings : List (Int × Ty)

/-- Solve equations in order, starting from a substitution, within a limit to how deeply it is
applied; there may be none. -/
def solveFrom (limit : Option Nat) (σ : Subst) : List Equation → Solving
  | [] => ⟨.ok σ, 0, []⟩
  | e :: es =>
      let first := Unify.unify limit σ [(e.left, e.right)]
      match first.outcome with
      | .error obstacle => ⟨.error ⟨obstacle, e⟩, first.steps, first.bindings⟩
      | .ok σ' =>
          let rest := solveFrom limit σ' es
          ⟨rest.outcome, first.steps + rest.steps, first.bindings ++ rest.bindings⟩

def solve (limit : Option Nat) (es : List Equation) : Solving := solveFrom limit .empty es

inductive InferFault where
  | unbound (name : Text)
  | hole
  | conflict (conflict : Conflict) (equation : Equation)
  -- A type that the solution cannot be applied to, within the limit if there is one.
  | endless
  -- The term nests deeper than the limit, or a name stands too far away.
  | tooDeep

def ScopeFault.toInfer : ScopeFault → InferFault
  | .unbound x => .unbound x
  | .hole => .hole

/-- What inference finds out about a term. -/
structure Inference where
  type : Ty
  solution : Subst
  tree : TypedTerm
  equations : List Equation
  steps : Nat

def Inference.summary (r : Inference) : String :=
  r.type.text ++ " (" ++ toString r.equations.length ++ " constraints, " ++ toString r.steps ++
    " unification steps)"

inductive Event where
  -- The equations are there, and so many variables were taken.
  | generated (equations : Nat) (taken : Int)
  | bound (id : Int) (type : Ty)
  | solved (steps : Nat)

def Unsolved.toInfer : Unsolved → InferFault
  | ⟨.conflict c, e⟩ => .conflict c e
  | ⟨.endless, _⟩ => .endless

def Generated.infer (limit : Option Nat) (g : Generated TypedTerm) :
    List Event × Except InferFault Inference :=
  let solving := solve limit g.equations
  let bindings := solving.bindings.map fun b => Event.bound b.1 b.2
  match solving.outcome with
  | .error u => (bindings, .error u.toInfer)
  | .ok σ =>
      (bindings ++ [.solved solving.steps],
        match g.trees.resolveWithin? limit σ with
        | none => .error .endless
        | some tree => .ok ⟨tree.type, σ, tree, g.equations, solving.steps⟩)

/-- The type of the whole term once the equations are there. -/
def Generated.rootType (limit : Option Nat) (g : Generated TypedTerm) : Except InferFault Ty :=
  match (solve limit g.equations).outcome with
  | .error u => .error u.toInfer
  | .ok σ =>
      match σ.resolveWithin? limit g.trees.type with
      | none => .error .endless
      | some t => .ok t

/-- How deeply substitutions may be applied to the types of a checked term. -/
def Ty.depthLimit : Nat := 950

namespace Term

/-! ## Without limits -/

/-- Infer the types of a term, with the events on the way. -/
def inferTraced (Γ : Scope) (t : Term) : List Event × Except InferFault Inference :=
  match t.generateFrom Γ .initial with
  | (.error fault, _) => ([], .error fault.toInfer)
  | (.ok g, supply) =>
      let (events, outcome) := g.infer none
      (.generated g.equations.length supply.next :: events, outcome)

def infer (Γ : Scope) (t : Term) : Except InferFault Inference := (t.inferTraced Γ).2

/-- The principal type of a term. -/
def principalType (Γ : Scope) (t : Term) : Except InferFault Ty :=
  match (t.generateFrom Γ .initial).1 with
  | .error fault => .error fault.toInfer
  | .ok g => g.rootType none

/-! ## Within limits -/

def depthLimit : Nat := 500

/-- How many layers of a scope are looked at for a name. -/
def layerLimit : Nat := 950

/-- Run the walk over a term from a supply, within the limits.  Of a term that nests too deeply only
the part within the limit is seen, and of a scope only the nearest layers; a fault of scope that
comes up in what is seen stands for the limit where there is more to see. -/
def generateWithin (Γ : Scope) (t : Term) (s : Supply) :
    Except InferFault (Generated TypedTerm) × Supply :=
  let isShallow := decide (t.depth ≤ depthLimit)
  let isNear := decide (Γ.layers.length ≤ layerLimit)
  match (if isShallow then t else t.prune depthLimit).generateFrom (Γ.nearest layerLimit) s with
  | (.ok g, s) => (.ok g, s)
  | (.error (.unbound x), s) => (.error (if isNear then .unbound x else .tooDeep), s)
  | (.error .hole, s) => (.error (if isShallow then .hole else .tooDeep), s)

/-- Infer the types of a term within the limits, with the events on the way. -/
def check (Γ : Scope) (t : Term) : List Event × Except InferFault Inference :=
  match t.generateWithin Γ .initial with
  | (.error fault, _) => ([], .error fault)
  | (.ok g, supply) =>
      let (events, outcome) := g.infer (some Ty.depthLimit)
      (.generated g.equations.length supply.next :: events, outcome)

def checkType (Γ : Scope) (t : Term) : Except InferFault Ty :=
  match (t.generateWithin Γ .initial).1 with
  | .error fault => .error fault
  | .ok g => g.rootType (some Ty.depthLimit)

end Term

end Monotype
