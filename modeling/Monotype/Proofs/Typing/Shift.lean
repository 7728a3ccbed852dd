import Mathlib.Algebra.Group.Embedding
import Mathlib.Algebra.Group.Int.Defs
import Monotype.Proofs.Typing.Rename

/-!
# Renamed equations and shifted supplies

The numbers of variables carry no meaning.  Solving renamed equations gives the renamed outcome: the
entries of the substitution in the same order, as many steps, or the renamed fault at the equation
with the same position (`FailsAt.rename`).  Reading the typed tree back through the solution
commutes with renaming as well (`Generated.infer_rename`).

A walk over a term without type variables, in a scope without type variables, finds numbers in its
supply only.  Started from `n`, it therefore gives what it gives from zero with every variable moved
by `n` (`Term.generateFrom_shift`), and so does everything that comes after the walk.

Main statement: `solve_rename_and_inferFrom_shift`.
-/

namespace Monotype

/-! ## The equation of a fault -/

section Faults

variable {limit : Option Nat} {es : List Equation} {i : Nat} {u : Unsolved}

/-- The equations before position `i` are solved, and the one at `i` then ends in the obstacle. -/
def FailsAt (limit : Option Nat) (es : List Equation) (i : Nat) (u : Unsolved) : Prop :=
  es[i]? = some u.equation ∧ ∃ σ, (solve limit (es.take i)).outcome = .ok σ ∧
    (Unify.unify limit σ [(u.equation.left, u.equation.right)]).outcome = .error u.obstacle

/-- An unsolved equation has its place in the list. -/
theorem exists_failsAt_of_solve (h : (solve limit es).outcome = .error u) :
    ∃ i, FailsAt limit es i u := by
  obtain ⟨before, after, σ, hes, hbefore, hrun⟩ := solveFrom_error h
  refine ⟨before.length, by simp [hes], σ, ?_, hrun⟩
  rw [hes, List.take_left]
  exact hbefore

/-- Solving commutes with an injective renaming: nothing depends on which variables are used. -/
theorem solve_rename (ρ : Int ↪ Int) (limit : Option Nat) (es : List Equation) :
    solve limit (es.map (Equation.rename ρ)) = (solve limit es).rename ρ :=
  solveFrom_rename ρ limit .empty es

/-- The equation that cannot be solved stays in its place. -/
theorem FailsAt.rename (ρ : Int ↪ Int) (h : FailsAt limit es i u) :
    FailsAt limit (es.map (Equation.rename ρ)) i (u.rename ρ) := by
  obtain ⟨hat, σ, hbefore, hrun⟩ := h
  refine ⟨by simp [hat, Unsolved.rename], σ.rename ρ, ?_, ?_⟩
  · rw [← List.map_take, solve_rename]
    simp [Solving.rename, hbefore, Except.map, Except.mapError]
  · have hpair := Unify.unify_rename ρ limit σ [(u.equation.left, u.equation.right)]
    simp only [List.map_cons, List.map_nil, Unify.renamePair] at hpair
    simp [Unsolved.rename, Equation.rename, hpair, Unify.Attempt.rename, hrun, Except.map,
      Except.mapError]

end Faults

/-! ## Reading the tree back -/

namespace TypedTerm

section MapTypes

variable {ρ : Int → Int} {f f' : Ty → Option Ty}

theorem boundMap?_rename (h : ∀ t, f' (t.rename ρ) = (f t).map (Ty.rename ρ))
    (bs : List (Text × Ty)) :
    boundMap? f' (bs.map (Prod.map id (Ty.rename ρ))) =
      (boundMap? f bs).map (List.map (Prod.map id (Ty.rename ρ))) := by
  induction bs with
  | nil => rfl
  | cons b bs ih =>
      rcases b with ⟨x, t⟩
      simp only [List.map_cons, Prod.map_apply, id, boundMap?, h, ih]
      cases f t <;> cases boundMap? f bs <;> rfl

mutual

/-- Replacing all types of a tree commutes with renaming, if every single replacement does. -/
theorem mapTypes?_rename (h : ∀ t, f' (t.rename ρ) = (f t).map (Ty.rename ρ)) :
    ∀ t : TypedTerm, (t.rename ρ).mapTypes? f' = (t.mapTypes? f).map (rename ρ)
  | .node term type children bound => by
      simp only [rename, mapTypes?, h, mapTypesAll?_rename h children, boundMap?_rename h]
      cases f type <;> cases mapTypesAll? f children <;> cases boundMap? f bound <;> rfl

theorem mapTypesAll?_rename (h : ∀ t, f' (t.rename ρ) = (f t).map (Ty.rename ρ)) :
    ∀ ts : List TypedTerm, mapTypesAll? f' (renameAll ρ ts) = (mapTypesAll? f ts).map (renameAll ρ)
  | [] => rfl
  | t :: ts => by
      simp only [renameAll, mapTypesAll?, mapTypes?_rename h t, mapTypesAll?_rename h ts]
      cases mapTypes? f t <;> cases mapTypesAll? f ts <;> rfl

end

end MapTypes

/-- Applying a substitution to a tree commutes with renaming. -/
theorem resolveWithin?_rename (t : TypedTerm) (ρ : Int ↪ Int) (limit : Option Nat) (σ : Subst) :
    (t.rename ρ).resolveWithin? limit (σ.rename ρ) = (t.resolveWithin? limit σ).map (rename ρ) :=
  mapTypes?_rename (Subst.resolveWithin?_rename ρ limit σ) t

end TypedTerm

def Inference.rename (ρ : Int ↪ Int) (r : Inference) : Inference where
  type := r.type.rename ρ
  solution := r.solution.rename ρ
  tree := r.tree.rename ρ
  equations := r.equations.map (Equation.rename ρ)
  steps := r.steps

def renameOutcome (ρ : Int ↪ Int) (r : Except InferFault Inference) : Except InferFault Inference :=
  (r.map (Inference.rename ρ)).mapError (InferFault.rename ρ)

/-- What is done with equations commutes with renaming. -/
theorem Generated.infer_rename (ρ : Int ↪ Int) (limit : Option Nat) (g : Generated TypedTerm) :
    ((g.rename ρ).infer limit).2 = renameOutcome ρ (g.infer limit).2 := by
  have hsolve := solve_rename ρ limit g.equations
  cases hout : (solve limit g.equations).outcome with
  | error u =>
      simp [infer, Generated.rename, hsolve, hout, Solving.rename, renameOutcome, Except.map,
        Except.mapError, toInfer_rename]
  | ok σ =>
      have htrees := g.trees.resolveWithin?_rename ρ limit σ
      cases htree : g.trees.resolveWithin? limit σ with
      | none =>
          simp [infer, Generated.rename, hsolve, hout, htrees, htree, Solving.rename, renameOutcome,
            Except.map, Except.mapError, InferFault.rename]
      | some tree =>
          simp [infer, Generated.rename, hsolve, hout, htrees, htree, Solving.rename, renameOutcome,
            Except.map, Except.mapError, Inference.rename]

/-! ## Terms and scopes without type variables -/

theorem Ty.rename_eq_self {ρ : Int → Int} {t : Ty} (h : t.vars = []) : t.rename ρ = t :=
  Ty.bind_eq_self fun i hi => by simp [h] at hi

/-- A scope without variables is its own renaming. -/
theorem Scope.renamed_self {ρ : Int → Int} {Γ : Scope} (h : Γ.All fun τ => τ.vars = []) :
    Renamed ρ Γ Γ := by
  intro x
  cases hx : Γ.lookup x with
  | none => rfl
  | some τ => exact congrArg some (Ty.rename_eq_self (h x τ hx)).symm

namespace Term

theorem map_rename_id (declared : Option Ty) : declared.map (Ty.rename id) = declared := by
  cases declared with
  | none => rfl
  | some a => exact congrArg some (Ty.bind_eq_self fun _ _ => rfl)

theorem map_param_rename_id (ps : List Param) : ps.map (Param.rename id) = ps := by
  have hparam : Param.rename id = id := by
    funext p
    rw [Param.rename, map_rename_id, id]
  rw [hparam, List.map_id]

mutual

/-- Renaming nothing changes nothing. -/
theorem rename_id : ∀ t : Term, t.rename id = t
  | .hole => rfl
  | .lit _ => rfl
  | .var _ => rfl
  | .cond c t e => by simp only [rename, rename_id c, rename_id t, rename_id e]
  | .binop _ l r => by simp only [rename, rename_id l, rename_id r]
  | .lam _ b => by simp only [rename, map_param_rename_id, rename_id b]
  | .app f args => by simp only [rename, rename_id f, renameAll_id args]
  | .letIn bs b => by simp only [rename, renameBindings_id bs, rename_id b]
  | .letRec bs b => by simp only [rename, renameBindings_id bs, rename_id b]

theorem renameAll_id : ∀ ts : List Term, renameAll id ts = ts
  | [] => rfl
  | t :: ts => by simp only [renameAll, rename_id t, renameAll_id ts]

theorem renameBindings_id : ∀ bs : List (Binding Term), renameBindings id bs = bs
  | [] => rfl
  | ⟨_, _, v⟩ :: bs => by
    simp only [renameBindings, map_rename_id, rename_id v, renameBindings_id bs]

end

/-- Renaming changes no term whose annotations have no variables. -/
theorem rename_eq_self {ρ : Int → Int} {t : Term} (h : t.Annotated fun a => a.vars = []) :
    t.rename ρ = t := by
  calc
    t.rename ρ = t.rename id := rename_congr fun a ha i hi => by simp [h a ha] at hi
    _ = t := rename_id t

end Term

/-! ## Supplies -/

def shiftBy (n : Int) : Int ↪ Int := addRightEmbedding n

namespace Term

def inferFrom (Γ : Scope) (t : Term) (s : Supply) : Except InferFault Inference :=
  match (t.generateFrom Γ s).1 with
  | .error fault => .error fault.toInfer
  | .ok g => (g.infer none).2

/-- Infer the types of a term with the variables of a supply, within the limits. -/
def checkFrom (Γ : Scope) (t : Term) (s : Supply) : Except InferFault Inference :=
  match (t.generateWithin Γ s).1 with
  | .error fault => .error fault
  | .ok g => (g.infer (some Ty.depthLimit)).2

theorem inferFrom_initial (Γ : Scope) (t : Term) : t.inferFrom Γ .initial = t.infer Γ := by
  unfold inferFrom infer inferTraced
  rcases t.generateFrom Γ .initial with ⟨e | g, s⟩ <;> rfl

theorem checkFrom_initial (Γ : Scope) (t : Term) : t.checkFrom Γ .initial = (t.check Γ).2 := by
  unfold checkFrom check
  rcases t.generateWithin Γ .initial with ⟨e | g, s⟩ <;> rfl

section Shift

variable {Γ : Scope} {t : Term}

/-- Where the scope and the term stay as they are, only the supply is renamed. -/
theorem generateFrom_shift {n : Int} (hΓ : Scope.Renamed (shiftBy n) Γ Γ)
    (ht : t.rename (shiftBy n) = t) :
    t.generateFrom Γ ⟨n⟩ =
      ((t.generateFrom Γ .initial).1.map (Generated.rename (shiftBy n)),
        (t.generateFrom Γ .initial).2.shift n) := by
  have hstart : Supply.initial.shift n = ⟨n⟩ := congrArg Supply.mk (Int.zero_add n)
  -- The renaming moves all variables by `n`, the taken ones among them.
  have hrun := (renames_generate t hΓ).eval_shift .initial fun _ _ _ => rfl
  rw [ht, hstart] at hrun
  exact hrun

/-- The walk from a later supply gives the shifted result. -/
theorem generateWithin_shift (hΓ : Γ.All fun τ => τ.vars = [])
    (ht : t.Annotated fun a => a.vars = []) (n : Int) :
    t.generateWithin Γ ⟨n⟩ =
      ((t.generateWithin Γ .initial).1.map (Generated.rename (shiftBy n)),
        (t.generateWithin Γ .initial).2.shift n) := by
  have hnearest : Scope.Renamed (shiftBy n) (Γ.nearest layerLimit) (Γ.nearest layerLimit) :=
    Scope.renamed_self fun x τ hx => hΓ x τ (Γ.nearest_within layerLimit x τ hx)
  -- Renaming and cutting off commute, so what is visible of the term stays as it is.
  have hvisible : t.visible.rename (shiftBy n) = t.visible := by
    rw [← visible_rename, rename_eq_self ht]
  rw [generateWithin_eq, generateWithin_eq, generateFrom_shift hnearest hvisible]
  rcases t.visible.generateFrom (Γ.nearest layerLimit) .initial with ⟨e | g, s⟩
  · cases e <;> rfl
  · rfl

/-- The faults of a walk within the limits mention no types. -/
theorem rename_fault_of_generateWithin {s : Supply} {fault : InferFault}
    (h : (t.generateWithin Γ s).1 = .error fault) (ρ : Int → Int) : fault.rename ρ = fault := by
  rcases generateWithin_cases Γ t s with ⟨g, s', hwithin, _⟩ | ⟨e, s', hwithin, _⟩ |
    ⟨s', hwithin, _⟩
  · rw [hwithin] at h
    cases h
  · rw [hwithin] at h
    cases h
    cases e <;> rfl
  · rw [hwithin] at h
    cases h
    rfl

/-- Inference from a later supply gives the shifted answer. -/
theorem inferFrom_shift (hΓ : Γ.All fun τ => τ.vars = []) (ht : t.Annotated fun a => a.vars = [])
    (n : Int) :
    t.inferFrom Γ ⟨n⟩ = renameOutcome (shiftBy n) (t.infer Γ) := by
  rw [← inferFrom_initial, inferFrom, inferFrom,
    generateFrom_shift (Scope.renamed_self hΓ) (rename_eq_self ht)]
  rcases t.generateFrom Γ .initial with ⟨e | g, s⟩
  · cases e <;> rfl
  · exact g.infer_rename (shiftBy n) none

/-- The same holds within the limits. -/
theorem checkFrom_shift (hΓ : Γ.All fun τ => τ.vars = []) (ht : t.Annotated fun a => a.vars = [])
    (n : Int) :
    t.checkFrom Γ ⟨n⟩ = renameOutcome (shiftBy n) (t.check Γ).2 := by
  rw [← checkFrom_initial, checkFrom, checkFrom, generateWithin_shift hΓ ht]
  cases hwalk : (t.generateWithin Γ .initial).1 with
  | error fault =>
      exact congrArg Except.error (rename_fault_of_generateWithin hwalk (shiftBy n)).symm
  | ok g => exact g.infer_rename (shiftBy n) (some Ty.depthLimit)

end Shift

end Term

/-- Renamed equations have the renamed outcome, with a fault at the same position.  A term and a
scope without type variables have, from a supply that starts at `n`, the outcome from zero with all
variables moved by `n`. -/
theorem solve_rename_and_inferFrom_shift :
    (∀ (ρ : Int ↪ Int) (limit : Option Nat) (es : List Equation),
      solve limit (es.map (Equation.rename ρ)) = (solve limit es).rename ρ ∧
      ∀ u, (solve limit es).outcome = .error u →
        ∃ i, FailsAt limit es i u ∧ FailsAt limit (es.map (Equation.rename ρ)) i (u.rename ρ)) ∧
    ∀ (Γ : Scope) (t : Term), (Γ.All fun τ => τ.vars = []) → (t.Annotated fun a => a.vars = []) →
      ∀ n : Int, t.generateFrom Γ ⟨n⟩ =
        ((t.generateFrom Γ .initial).1.map (Generated.rename (shiftBy n)),
          (t.generateFrom Γ .initial).2.shift n) ∧
      t.generateWithin Γ ⟨n⟩ =
        ((t.generateWithin Γ .initial).1.map (Generated.rename (shiftBy n)),
          (t.generateWithin Γ .initial).2.shift n) ∧
      t.inferFrom Γ ⟨n⟩ = renameOutcome (shiftBy n) (t.infer Γ) ∧
      t.checkFrom Γ ⟨n⟩ = renameOutcome (shiftBy n) (t.check Γ).2 := by
  constructor
  · intro ρ limit es
    refine ⟨solve_rename ρ limit es, ?_⟩
    intro u hu
    obtain ⟨i, hi⟩ := exists_failsAt_of_solve hu
    exact ⟨i, hi, hi.rename ρ⟩
  · intro Γ t hΓ ht n
    exact ⟨Term.generateFrom_shift (Scope.renamed_self hΓ) (Term.rename_eq_self ht),
      Term.generateWithin_shift hΓ ht n, Term.inferFrom_shift hΓ ht n, Term.checkFrom_shift hΓ ht n⟩

namespace Term

def eitherOfCall : Term := .cond (.app (.var "x") [.var "y", .var "n"]) (.var "x") (.var "y")

/-- The choice as a function of its three names: `fun x y (n : Int) -> if x (y, n) then x else
y`. -/
def callChooser : Term := .lam [⟨"x", none⟩, ⟨"y", none⟩, ⟨"n", some .int⟩] eitherOfCall

/-- The branches ask for a function that is its own first argument, and the fault names the variable
that was taken for the argument. -/
theorem inferFrom_of_callChooser :
    (Scope.builtin.All fun τ => τ.vars = []) ∧ (callChooser.Annotated fun a => a.vars = []) ∧
      callChooser.infer .builtin =
        .error (.conflict (.infinite 1 (.fn [.var 1, .int] .bool))
          ⟨.var 0, .var 1, some eitherOfCall⟩) ∧
      callChooser.inferFrom .builtin ⟨7⟩ =
        .error (.conflict (.infinite 8 (.fn [.var 8, .int] .bool))
          ⟨.var 7, .var 8, some eitherOfCall⟩) := by
  have hΓ : Scope.builtin.All fun τ => τ.vars = [] := Scope.all_empty.extend (by decide)
  have ht : callChooser.Annotated fun a => a.vars = [] := by
    simp only [Annotated]
    decide
  obtain ⟨g, s, hfrom, hequations⟩ :
      ∃ g s, callChooser.generateFrom .builtin .initial = (.ok g, s) ∧
      g.equations =
        [⟨.var 0, .fn [.var 1, .int] (.var 2), some (.app (.var "x") [.var "y", .var "n"])⟩,
         ⟨.var 2, .bool, some eitherOfCall⟩, ⟨.var 0, .var 1, some eitherOfCall⟩] :=
           ⟨_, _, rfl, rfl⟩
  have hsolve : (solve none g.equations).outcome =
      .error ⟨.conflict (.infinite 1 (.fn [.var 1, .int] .bool)),
        ⟨.var 0, .var 1, some eitherOfCall⟩⟩ := by
    rw [hequations]
    cbv
  have hinfer : callChooser.infer .builtin =
      .error (.conflict (.infinite 1 (.fn [.var 1, .int] .bool))
        ⟨.var 0, .var 1, some eitherOfCall⟩) := by
    simp only [infer, inferTraced, hfrom, Generated.infer, hsolve, Unsolved.toInfer]
  have hshift := (solve_rename_and_inferFrom_shift.2 .builtin callChooser hΓ ht 7).2.2.1
  rw [hinfer] at hshift
  exact ⟨hΓ, ht, hinfer, hshift⟩

end Term

end Monotype
