/-!
# Monotypes

Types without quantifiers: type variables, named constants and functions of several parameters.
The number of parameters belongs to the type; nothing is curried.  A further form, `unknown`, stands
for a type about which nothing is said: it equals itself and unifies with variables only.

A type is a tree with variables at some of its leaves, and `Ty.bind` grafts a type onto every
variable at once.  Renaming, normal forms and the application of a substitution are all grafts.

- `Ty.vars` lists the variable occurrences from left to right, parameters before the result;
- `Ty.bind` and `Ty.bind?` graft, the latter with grafts that may fail;
- `Ty.induct` is the induction principle over a type and its parameters.
-/

namespace Monotype

/-- A type without quantifiers. -/
inductive Ty where
  | unknown
  | var (id : Int)
  | const (name : String)
  -- A function from its parameters, all taken at once, to its result.
  | fn (params : List Ty) (result : Ty)
  deriving Repr, Inhabited

namespace Ty

def int : Ty := .const "Int"

def float : Ty := .const "Float"

def bool : Ty := .const "Bool"

/-- The function type whose last member is the result; there is none without members. -/
def arrow? : List Ty → Option Ty
  | [] => none
  | t :: ts => some (.fn ((t :: ts).dropLast) ((t :: ts).getLast (List.cons_ne_nil t ts)))

def isFn : Ty → Bool
  | .fn _ _ => true
  | _ => false

/-! ## Induction and equality -/

mutual

private theorem inductAux {P : Ty → Prop} (unknown : P .unknown) (var : ∀ i, P (.var i))
    (const : ∀ c, P (.const c))
    (fn : ∀ ps r, (∀ p ∈ ps, P p) → P r → P (.fn ps r)) : ∀ t, P t
  | .unknown => unknown
  | .var i => var i
  | .const c => const c
  | .fn ps r => fn ps r (inductAllAux unknown var const fn ps) (inductAux unknown var const fn r)

private theorem inductAllAux {P : Ty → Prop} (unknown : P .unknown) (var : ∀ i, P (.var i))
    (const : ∀ c, P (.const c))
    (fn : ∀ ps r, (∀ p ∈ ps, P p) → P r → P (.fn ps r)) : ∀ ts : List Ty, ∀ t ∈ ts, P t
  | [] => fun _ h => nomatch h
  | t :: ts => fun u hu =>
      (List.mem_cons.1 hu).elim (fun h => h ▸ inductAux unknown var const fn t)
        (fun h => inductAllAux unknown var const fn ts u h)

end

/-- Induction over types: a property of a function type may assume itself of every parameter and
of the result. -/
@[induction_eliminator]
theorem induct {P : Ty → Prop} (unknown : P .unknown) (var : ∀ id, P (.var id))
    (const : ∀ name, P (.const name))
    (fn : ∀ params result, (∀ p ∈ params, P p) → P result → P (.fn params result)) (t : Ty) : P t :=
  inductAux unknown var const fn t

mutual

def decEq : (a b : Ty) → Decidable (a = b)
  | .unknown, .unknown => isTrue rfl
  | .var i, .var j =>
      if h : i = j then isTrue (h ▸ rfl) else isFalse fun e => h (Ty.var.inj e)
  | .const c, .const d =>
      if h : c = d then isTrue (h ▸ rfl) else isFalse fun e => h (Ty.const.inj e)
  | .fn ps r, .fn qs s =>
      match decEqAll ps qs, decEq r s with
      | isTrue h₁, isTrue h₂ => isTrue (by rw [h₁, h₂])
      | isFalse h, _ => isFalse fun e => h (Ty.fn.inj e).1
      | _, isFalse h => isFalse fun e => h (Ty.fn.inj e).2
  | .unknown, .var _ | .unknown, .const _ | .unknown, .fn _ _ => isFalse (by simp)
  | .var _, .unknown | .var _, .const _ | .var _, .fn _ _ => isFalse (by simp)
  | .const _, .unknown | .const _, .var _ | .const _, .fn _ _ => isFalse (by simp)
  | .fn _ _, .unknown | .fn _ _, .var _ | .fn _ _, .const _ => isFalse (by simp)

def decEqAll : (as bs : List Ty) → Decidable (as = bs)
  | [], [] => isTrue rfl
  | a :: as, b :: bs =>
      match decEq a b, decEqAll as bs with
      | isTrue h₁, isTrue h₂ => isTrue (by rw [h₁, h₂])
      | isFalse h, _ => isFalse fun e => h (List.cons.inj e).1
      | _, isFalse h => isFalse fun e => h (List.cons.inj e).2
  | [], _ :: _ => isFalse (by simp)
  | _ :: _, [] => isFalse (by simp)

end

instance : DecidableEq Ty := decEq

/-! ## Variables, size -/

mutual

/-- The variable occurrences from left to right, parameters before the result. -/
def vars : Ty → List Int
  | .unknown => []
  | .var i => [i]
  | .const _ => []
  | .fn ps r => varsAll ps ++ vars r

def varsAll : List Ty → List Int
  | [] => []
  | t :: ts => vars t ++ varsAll ts

end

theorem varsAll_eq (ts : List Ty) : varsAll ts = ts.flatMap vars := by
  induction ts with
  | nil => rfl
  | cons t ts ih => simp [varsAll, ih]

@[simp] theorem vars_unknown : vars .unknown = [] := rfl
@[simp] theorem vars_var (i : Int) : vars (.var i) = [i] := rfl
@[simp] theorem vars_const (c : String) : vars (.const c) = [] := rfl
@[simp] theorem vars_fn (ps : List Ty) (r : Ty) :
    vars (.fn ps r) = ps.flatMap vars ++ vars r := by
  rw [vars, varsAll_eq]

def occurs (i : Int) (t : Ty) : Bool := t.vars.contains i

/-- The test for an occurrence finds the variable exactly if it is one of the type's. -/
@[simp] theorem occurs_iff {i : Int} {t : Ty} : t.occurs i ↔ i ∈ t.vars := by
  simp [occurs]

def distinctVars (t : Ty) : List Int := t.vars.eraseDups

def sortedVars (t : Ty) : List Int := t.distinctVars.mergeSort (· ≤ ·)

mutual

def size : Ty → Nat
  | .unknown => 1
  | .var _ => 1
  | .const _ => 1
  | .fn ps r => sizeAll ps + size r + 1

def sizeAll : List Ty → Nat
  | [] => 0
  | t :: ts => size t + sizeAll ts

end

theorem size_pos (t : Ty) : 0 < t.size := by
  cases t <;> simp [size]

mutual

def depth : Ty → Nat
  | .unknown => 1
  | .var _ => 1
  | .const _ => 1
  | .fn ps r => max (depthAll ps) (depth r) + 1

def depthAll : List Ty → Nat
  | [] => 0
  | t :: ts => max (depth t) (depthAll ts)

end

/-! ## Grafting -/

mutual

/-- Put `f i` in the place of every variable `i`. -/
def bind (f : Int → Ty) : Ty → Ty
  | .unknown => .unknown
  | .var i => f i
  | .const c => .const c
  | .fn ps r => .fn (bindAll f ps) (bind f r)

def bindAll (f : Int → Ty) : List Ty → List Ty
  | [] => []
  | t :: ts => bind f t :: bindAll f ts

end

theorem bindAll_eq (f : Int → Ty) (ts : List Ty) : bindAll f ts = ts.map (bind f) := by
  induction ts with
  | nil => rfl
  | cons t ts ih => simp [bindAll, ih]

@[simp] theorem bind_unknown (f : Int → Ty) : bind f .unknown = .unknown := rfl
@[simp] theorem bind_var (f : Int → Ty) (i : Int) : bind f (.var i) = f i := rfl
@[simp] theorem bind_const (f : Int → Ty) (c : String) : bind f (.const c) = .const c := rfl
@[simp] theorem bind_fn (f : Int → Ty) (ps : List Ty) (r : Ty) :
    bind f (.fn ps r) = .fn (ps.map (bind f)) (bind f r) := by
  rw [bind, bindAll_eq]

def rename (ρ : Int → Int) (t : Ty) : Ty := t.bind fun i => .var (ρ i)

mutual

/-- Put `f i` in the place of every variable `i`, or fail if one of these grafts fails. -/
def bind? (f : Int → Option Ty) : Ty → Option Ty
  | .unknown => some .unknown
  | .var i => f i
  | .const c => some (.const c)
  | .fn ps r =>
      match bindAll? f ps with
      | none => none
      | some qs =>
          match bind? f r with
          | none => none
          | some s => some (.fn qs s)

def bindAll? (f : Int → Option Ty) : List Ty → Option (List Ty)
  | [] => some []
  | t :: ts =>
      match bind? f t with
      | none => none
      | some u =>
          match bindAll? f ts with
          | none => none
          | some us => some (u :: us)

end

end Ty

end Monotype
