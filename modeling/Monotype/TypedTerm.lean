import Monotype.Json.Basic
import Monotype.Subst.Basic
import Monotype.Term.Basic
import Monotype.Ty.Text

/-!
# Typed trees

A term in which every subterm carries its type.  The children of a node follow source order: for
`let` and `letrec` the values of the bindings come first, then the body.  A node also lists the
names that it binds, with their types.

The nodes of a tree are listed in pre-order, and a position in that list stands for the node; the
nodes below a node come right after it, so they are an interval of positions (`TypedTerm.find?`).
-/

namespace Monotype

/-- A term with a type at every node. -/
inductive TypedTerm where
  | node (term : Term) (type : Ty) (children : List TypedTerm) (bound : List (Text × Ty))
  deriving Repr, Inhabited

namespace TypedTerm

def term : TypedTerm → Term
  | .node term _ _ _ => term

def type : TypedTerm → Ty
  | .node _ type _ _ => type

def children : TypedTerm → List TypedTerm
  | .node _ _ children _ => children

def bound : TypedTerm → List (Text × Ty)
  | .node _ _ _ bound => bound

def leaf (term : Term) (type : Ty) : TypedTerm := .node term type [] []

/-- The type of a name that the root binds: the first one, if the name is repeated. -/
def boundType? (t : TypedTerm) (name : Text) : Option Ty := t.bound.lookup name

/-! ## Listings -/

mutual

def nodes : TypedTerm → List TypedTerm
  | .node term type children bound => .node term type children bound :: nodesAll children

def nodesAll : List TypedTerm → List TypedTerm
  | [] => []
  | t :: ts => nodes t ++ nodesAll ts

end

mutual

def size : TypedTerm → Nat
  | .node _ _ children _ => sizeAll children + 1

def sizeAll : List TypedTerm → Nat
  | [] => 0
  | t :: ts => size t + sizeAll ts

end

/-- The node at position `j` of the listing, if it is at or below the one at position `i`; the
answer is its position. -/
def find? (t : TypedTerm) (i j : Nat) : Option Nat :=
  match t.nodes[i]? with
  | some n => if i ≤ j ∧ j < i + n.size then some j else none
  | none => none

def line (t : TypedTerm) : String := t.term.kind ++ ": " ++ t.type.text

def indent (level : Nat) : String := String.ofList (List.replicate (2 * level) ' ')

/-- The lines of one node: its own line, then one line per name that it binds, a level deeper. -/
def nodeLines (level : Nat) (t : TypedTerm) : List Text :=
  (indent level ++ t.line : String) ::
    t.bound.map fun b => indent (level + 1) ++ b.1 ++ " : " ++ b.2.text

def pending (stack : List (TypedTerm × Nat)) : Nat :=
  sizeAll (stack.map Prod.fst)

theorem sizeAll_append (ts us : List TypedTerm) : sizeAll (ts ++ us) = sizeAll ts + sizeAll us := by
  induction ts with
  | nil => simp [sizeAll]
  | cons t ts ih =>
      simp only [List.cons_append, sizeAll, ih]
      omega

def atLevel (level : Nat) (ts : List TypedTerm) : List (TypedTerm × Nat) :=
  ts.map fun t => (t, level)

theorem map_fst_atLevel (level : Nat) (ts : List TypedTerm) :
    (atLevel level ts).map Prod.fst = ts := by
  simp [atLevel, Function.comp_def]

/-- Push trees at one level, from the last to the first, so that the first one comes to stand on
top. -/
def pushReversed (level : Nat) (ts : List TypedTerm) (stack : List (TypedTerm × Nat)) :
    List (TypedTerm × Nat) :=
  ts.reverse.foldl (fun stack t => (t, level) :: stack) stack

/-- Pushing from the last to the first leaves the first on top. -/
theorem pushReversed_eq (level : Nat) (ts : List TypedTerm) (stack : List (TypedTerm × Nat)) :
    pushReversed level ts stack = atLevel level ts ++ stack := by
  induction ts with
  | nil => rfl
  | cons t ts ih =>
      have hlast :
          pushReversed level (t :: ts) stack = (t, level) :: pushReversed level ts stack := by
        simp [pushReversed]
      rw [hlast, ih]
      rfl

/-- The lines of the trees on a stack, top first; each tree stands with its level. -/
def stackLines (stack : List (TypedTerm × Nat)) : List Text :=
  match stack with
  | [] => []
  | (.node term type children bound, level) :: stack =>
      nodeLines level (.node term type children bound) ++
        stackLines (pushReversed (level + 1) children stack)
termination_by pending stack
decreasing_by
  rw [pushReversed_eq]
  simp only [pending, List.map_append, List.map_cons, map_fst_atLevel, sizeAll_append, sizeAll,
    size]
  omega

/-- The annotated listing of a tree. -/
def lines (t : TypedTerm) : List Text := stackLines [(t, 0)]

mutual

/-- The tree as a JSON value; a repeated name keeps its first place and its last type. -/
def toJson : TypedTerm → Json
  | .node term type children bound =>
      let names : List (Text × Json) := bound.map fun b => (b.1, .str b.2.text)
      let below : List (Text × Json) :=
        if children.isEmpty then [] else [("children", .arr (toJsons children))]
      .obj (("node", .str term.kind) :: ("type", .str type.text) ::
        if names.isEmpty then below else ("bound", .obj (Entries.putAll [] names)) :: below)

def toJsons : List TypedTerm → List Json
  | [] => []
  | t :: ts => toJson t :: toJsons ts

end

/-! ## Substitution -/

def boundMap? (f : Ty → Option Ty) : List (Text × Ty) → Option (List (Text × Ty))
  | [] => some []
  | (x, t) :: bs =>
      match f t, boundMap? f bs with
      | some t', some bs' => some ((x, t') :: bs')
      | _, _ => none

mutual

/-- Replace all types of the tree, or fail if one of them cannot be replaced. -/
def mapTypes? (f : Ty → Option Ty) : TypedTerm → Option TypedTerm
  | .node term type children bound =>
      match f type, mapTypesAll? f children, boundMap? f bound with
      | some type', some children', some bound' => some (.node term type' children' bound')
      | _, _, _ => none

def mapTypesAll? (f : Ty → Option Ty) : List TypedTerm → Option (List TypedTerm)
  | [] => some []
  | t :: ts =>
      match mapTypes? f t, mapTypesAll? f ts with
      | some t', some ts' => some (t' :: ts')
      | _, _ => none

end

/-- Apply a substitution to all types of the tree, if no application nests deeper than a limit. -/
def resolveWithin? (limit : Option Nat) (σ : Subst) (t : TypedTerm) : Option TypedTerm :=
  t.mapTypes? (σ.resolveWithin? limit)

end TypedTerm

end Monotype
