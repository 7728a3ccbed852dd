import Monotype.Proofs.Subst.Rename
import Monotype.Proofs.Unify.Run

/-!
# Renaming and unification

The unifier does not depend on the numbers of the variables.  From a renamed substitution and
renamed equations it takes the renamed moves, one for one, and ends as it did before, up to the
renaming (`Unify.unify_rename`): with the same number of steps, the same bindings in the same order
and the same answer or obstacle.
-/

namespace Monotype

def Conflict.rename (ρ : Int → Int) : Conflict → Conflict
  | .mismatch left right => .mismatch (left.rename ρ) (right.rename ρ)
  | .arity left right => .arity left right
  | .infinite i t => .infinite (ρ i) (t.rename ρ)

namespace Unify

def renamePair (ρ : Int → Int) (e : Ty × Ty) : Ty × Ty := (e.1.rename ρ, e.2.rename ρ)

def Move.rename (ρ : Int → Int) : Move → Move
  | .skip => .skip
  | .bind i t => .bind (ρ i) (t.rename ρ)
  | .split parts => .split (parts.map (renamePair ρ))
  | .clash c => .clash (c.rename ρ)

def Obstacle.rename (ρ : Int → Int) : Obstacle → Obstacle
  | .conflict c => .conflict (c.rename ρ)
  | .endless => .endless

def Attempt.rename (ρ : Int ↪ Int) (r : Attempt Subst) : Attempt Subst where
  outcome := (r.outcome.map (Subst.rename ρ)).mapError (Obstacle.rename ρ)
  steps := r.steps
  bindings := r.bindings.map (renameEntry ρ)

variable (ρ : Int ↪ Int)

/-! ## One step -/

/-- The choice of a move depends on variables through equality only. -/
theorem eliminate_rename (i : Int) (t : Ty) :
    eliminate (ρ i) (t.rename ρ) = (eliminate i t).rename ρ := by
  have hself : t.rename ρ = .var (ρ i) ↔ t = .var i := @Ty.rename_inj ρ t (.var i)
  simp only [eliminate, hself, Ty.occurs_rename]
  split
  · rfl
  · split <;> rfl

theorem zip_map_rename (ps qs : List Ty) :
    (ps.map (Ty.rename ρ)).zip (qs.map (Ty.rename ρ)) = (ps.zip qs).map (renamePair ρ) :=
  List.zip_map

/-- Renamed sides give the renamed move. -/
@[simp] theorem move_rename (a b : Ty) : move (a.rename ρ) (b.rename ρ) = (move a b).rename ρ := by
  cases a with
  | unknown =>
      cases b with
      | var j => exact eliminate_rename ρ j .unknown
      | unknown | const d | fn qs s => simp [move, Move.rename, Conflict.rename]
  | var i => exact eliminate_rename ρ i b
  | const c =>
      cases b with
      | var j => exact eliminate_rename ρ j (.const c)
      | const d =>
          simp only [Ty.rename_const, move]
          split <;> rfl
      | unknown | fn qs s => simp [move, Move.rename, Conflict.rename]
  | fn ps r =>
      cases b with
      | var j => simpa [move] using eliminate_rename ρ j (.fn ps r)
      | fn qs s =>
          simp only [Ty.rename_fn, move, List.length_map, zip_map_rename]
          split
          · simp [Move.rename, renamePair]
          · rfl
      | unknown | const d => simp [move, Move.rename, Conflict.rename]

/-! ## Runs -/

@[simp] theorem tick_rename (r : Attempt Subst) : r.tick.rename ρ = (r.rename ρ).tick := rfl

@[simp] theorem record_rename (i : Int) (t : Ty) (r : Attempt Subst) :
    (r.record i t).rename ρ = (r.rename ρ).record (ρ i) (t.rename ρ) := rfl

/-- The unifier commutes with renaming. -/
theorem unify_rename (limit : Option Nat) (σ : Subst) (work : List (Ty × Ty)) :
    unify limit (σ.rename ρ) (work.map (renamePair ρ)) = (unify limit σ work).rename ρ := by
  fun_induction unify limit σ work with
  | case1 σ => simp [unify, Attempt.rename, Except.map, Except.mapError]
  | case2 σ a b work a' b' ha hb hm ih =>
      simp [unify_cons, renamePair, ha, hb, hm, Move.rename, ← ih]
  | case3 σ a b work a' b' ha hb parts hm ih =>
      simp [unify_cons, renamePair, ha, hb, hm, Move.rename, ← ih]
  | case4 σ a b work a' b' ha hb c hm =>
      simp [unify_cons, renamePair, ha, hb, hm, Move.rename, Attempt.rename, Except.map,
        Except.mapError, Obstacle.rename]
  | case5 σ a b work a' b' ha hb i t hm σ' he ih =>
      simp [unify_cons, renamePair, ha, hb, hm, he, Move.rename, ← ih]
  | case6 σ a b work a' b' ha hb i t hm he =>
      simp [unify_cons, renamePair, ha, hb, hm, he, Move.rename, Attempt.rename, Except.map,
        Except.mapError, Obstacle.rename, renameEntry]
  | case7 σ a b work h =>
      -- One side cannot be resolved, and neither can its renaming.
      rw [List.map_cons, renamePair, unify_cons, Subst.resolveWithin?_rename,
        Subst.resolveWithin?_rename]
      cases ha : σ.resolveWithin? limit a with
      | none => rfl
      | some a' =>
          cases hb : σ.resolveWithin? limit b with
          | none => rfl
          | some b' => exact (h a' b' ha hb).elim

end Unify

end Monotype
