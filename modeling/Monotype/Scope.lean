import Monotype.OrderedMap
import Monotype.Text.Basic
import Monotype.Ty.Basic

/-!
# Scopes

A scope is a chain of layers, innermost first; each layer maps names to types.  A name has the type
that the innermost layer with that name gives it.  Scopes are values: extending one leaves it as it
was.
-/

namespace Monotype

abbrev Layer := OrderedMap Text Ty

/-- A chain of layers, innermost first. -/
structure Scope where
  layers : List Layer

namespace Scope

def empty : Scope := ⟨[]⟩

/-- The scope with one more layer inside; a repeated name keeps its first place and last type. -/
def extend (Γ : Scope) (bound : List (Text × Ty)) : Scope :=
  ⟨OrderedMap.ofList bound :: Γ.layers⟩

/-- The type of a name: that of the innermost layer that has it. -/
def lookup (Γ : Scope) (name : Text) : Option Ty :=
  Γ.layers.findSome? (·.get? name)

/-- The number of layers that are looked at for a name: up to the first one that has it, or all. -/
def reach (Γ : Scope) (name : Text) : Nat :=
  min (Γ.layers.findIdx (·.contains name) + 1) Γ.layers.length

def nearest (n : Nat) (Γ : Scope) : Scope := ⟨Γ.layers.take n⟩

def contains (Γ : Scope) (name : Text) : Bool := (Γ.lookup name).isSome

def addNames (seen names : List Text) : List Text :=
  names.foldl (fun seen x => if x ∈ seen then seen else seen ++ [x]) seen

/-- All names, each once: those of the innermost layer first, in its order. -/
def names (Γ : Scope) : List Text :=
  Γ.layers.foldl (fun seen layer => addNames seen layer.keys) []

def entries (Γ : Scope) : List (Text × Option Ty) :=
  Γ.names.map fun x => (x, Γ.lookup x)

def builtin : Scope :=
  empty.extend
    [("add", .fn [.int, .int] .int),
     ("sub", .fn [.int, .int] .int),
     ("mul", .fn [.int, .int] .int),
     ("is_zero", .fn [.int] .bool),
     ("not", .fn [.bool] .bool)]

end Scope

end Monotype
