import Monotype.Proofs.Ty.Variant
import Monotype.Proofs.Typing.Limits

/-!
# Rearranged equations

Equations are solved strictly in order, and of two variables the left one is bound.  So lists that
hold the same equations in another order, or with their sides exchanged, come to different
substitutions.  What these say about a type differs by the names of variables only.

Both steps are about solutions, not about runs.  Rearranging keeps the solutions of a list
(`Rearranged.sameSolutions`).  Answers to lists with the same solutions factor through each other,
so what they make of a type are instances of each other (`normal_eq_of_sameSolutions`).

Main statement: `solve_rearranged`.
-/

namespace Monotype

open Equation (Unifiable)

def Equation.SameSides (e e' : Equation) : Prop :=
  (e'.left = e.left ∧ e'.right = e.right) ∨ (e'.left = e.right ∧ e'.right = e.left)

/-- The second list is the first one in another order, with the sides of some equations
exchanged. -/
def Rearranged (es es' : List Equation) : Prop :=
  ∃ ds, es.Perm ds ∧ List.Forall₂ Equation.SameSides ds es'

def SameSolutions (es es' : List Equation) : Prop :=
  ∀ θ : Int → Ty, (∀ e ∈ es, e.Holds θ) ↔ ∀ e ∈ es', e.Holds θ

/-- The equations are solved. -/
def Solvable (limit : Option Nat) (es : List Equation) : Prop :=
  ∃ σ, (solve limit es).outcome = .ok σ

/-- The limit stops the solver. -/
def StopsAtLimit (limit : Option Nat) (es : List Equation) : Prop :=
  ∃ e, (solve limit es).outcome = .error ⟨.endless, e⟩

/-! ## Solutions -/

section Answers

variable {limit limit' : Option Nat} {σ σ' : Subst} {es es' : List Equation}

/-- Known equations are solved exactly if they can be. -/
theorem solvable_iff_unifiable (hes : ∀ e ∈ es, e.Known) : Solvable none es ↔ Unifiable es := by
  constructor
  · rintro ⟨σ, hσ⟩
    exact ⟨σ.assign, holds_of_solve hσ⟩
  · exact exists_solve_ok_of_unifiable hes

/-- A limit does not change whether equations are solved, unless it stops the solver. -/
theorem solvable_iff_or_stopsAtLimit (limit : Option Nat) (es : List Equation) :
    (Solvable limit es ↔ Solvable none es) ∨ StopsAtLimit limit es := by
  rcases solveFrom_unlimited limit .empty es with heq | hstops
  · left
    simp only [Solvable, solve, heq]
  · exact Or.inr hstops

/-- Answers to lists with the same solutions give every type the same normal form. -/
theorem normal_eq_of_sameSolutions (hsame : SameSolutions es es')
    (h : (solve limit es).outcome = .ok σ) (h' : (solve limit' es').outcome = .ok σ') (t : Ty) :
    (t.bind σ.assign).normal = (t.bind σ'.assign).normal := by
  -- Each answer is a solution of the other list, and so factors through its answer.
  have hσ : ∀ e ∈ es', e.Holds σ.assign := (hsame σ.assign).1 (holds_of_solve h)
  have hσ' : ∀ e ∈ es, e.Holds σ'.assign := (hsame σ'.assign).2 (holds_of_solve h')
  have hfactor : (t.bind σ.assign).bind σ'.assign = t.bind σ'.assign :=
    bind_assign_bind_of_solve h hσ' t
  have hfactor' : (t.bind σ'.assign).bind σ.assign = t.bind σ.assign :=
    bind_assign_bind_of_solve h' hσ t
  exact Ty.normal_eq_of_instances hfactor hfactor'

end Answers

/-! ## Rearranging -/

section Rearranging

variable {e e' : Equation} {es es' : List Equation}

/-- A graft does not see which side is which. -/
theorem Equation.SameSides.holds_iff (h : e.SameSides e') (θ : Int → Ty) :
    e.Holds θ ↔ e'.Holds θ := by
  rcases h with ⟨hleft, hright⟩ | ⟨hleft, hright⟩
  · rw [Equation.Holds, Equation.Holds, hleft, hright]
  · rw [Equation.Holds, Equation.Holds, hleft, hright]
    exact eq_comm

theorem Equation.SameSides.known (h : e.SameSides e') (he : e.Known) : e'.Known := by
  rcases h with ⟨hleft, hright⟩ | ⟨hleft, hright⟩
  · exact ⟨hleft ▸ he.1, hright ▸ he.2⟩
  · exact ⟨hleft ▸ he.2, hright ▸ he.1⟩

/-- What holds of equations whatever the order of their sides holds of a rearranged list. -/
theorem Rearranged.forall_iff (h : Rearranged es es') {P : Equation → Prop}
    (hP : ∀ e e', e.SameSides e' → (P e ↔ P e')) : (∀ e ∈ es, P e) ↔ ∀ e ∈ es', P e := by
  obtain ⟨ds, hperm, hsides⟩ := h
  -- The order does not matter for the members, and the sides are exchanged one equation at a time.
  have horder : (∀ e ∈ es, P e) ↔ ∀ d ∈ ds, P d := by simp only [hperm.mem_iff]
  rw [horder]
  clear horder hperm
  induction hsides with
  | nil => simp
  | cons hside _ ih =>
      rw [List.forall_mem_cons, List.forall_mem_cons]
      exact and_congr (hP _ _ hside) ih

/-- Rearranging equations does not change their solutions. -/
theorem Rearranged.sameSolutions (h : Rearranged es es') : SameSolutions es es' :=
  fun θ => h.forall_iff fun _ _ hside => hside.holds_iff θ

theorem Equation.SameSides.symm (h : e.SameSides e') : e'.SameSides e := by
  rcases h with ⟨hleft, hright⟩ | ⟨hleft, hright⟩
  · exact Or.inl ⟨hleft.symm, hright.symm⟩
  · exact Or.inr ⟨hright.symm, hleft.symm⟩

theorem Rearranged.known (h : Rearranged es es') (hes : ∀ e ∈ es, e.Known) : ∀ e ∈ es', e.Known :=
  (h.forall_iff fun _ _ hside => ⟨hside.known, hside.symm.known⟩).1 hes

end Rearranging

/-- The order of the equations and of their sides matters neither for whether they are solved nor,
up to the names of variables, for what the answer says about a type. -/
theorem solve_rearranged (es es' : List Equation) (hes : ∀ e ∈ es, e.Known)
    (h : Rearranged es es') :
    (Solvable none es ↔ Solvable none es') ∧
    (∀ limit limit', (Solvable limit es ↔ Solvable limit' es') ∨
      StopsAtLimit limit es ∨ StopsAtLimit limit' es') ∧
    ∀ limit limit' σ σ', (solve limit es).outcome = .ok σ → (solve limit' es').outcome = .ok σ' →
      ∀ t, ∃ u u', σ.resolve? t = some u ∧ σ'.resolve? t = some u' ∧ u.normal = u'.normal := by
  have hsame := h.sameSolutions
  have hsolvable : Solvable none es ↔ Solvable none es' := by
    calc
      Solvable none es ↔ Unifiable es := solvable_iff_unifiable hes
      _ ↔ Unifiable es' := exists_congr hsame
      _ ↔ Solvable none es' := (solvable_iff_unifiable (h.known hes)).symm
  refine ⟨hsolvable, ?_, ?_⟩
  · intro limit limit'
    rcases solvable_iff_or_stopsAtLimit limit es with hlimit | hstops
    · rcases solvable_iff_or_stopsAtLimit limit' es' with hlimit' | hstops'
      · exact Or.inl (hlimit.trans (hsolvable.trans hlimit'.symm))
      · exact Or.inr (Or.inr hstops')
    · exact Or.inr (Or.inl hstops)
  · intro limit limit' σ σ' hσ hσ' t
    exact ⟨_, _, (resolved_of_solve hσ).resolve?_eq t, (resolved_of_solve hσ').resolve?_eq t,
      normal_eq_of_sameSolutions hsame hσ hσ' t⟩

/-- The equations `t0 = t1`, `t1 = (t2) -> t3` and `t2 = t3`. -/
def chained : List Equation :=
  [⟨.var 0, .var 1, none⟩, ⟨.var 1, .fn [.var 2] (.var 3), none⟩, ⟨.var 2, .var 3, none⟩]

/-- The same equations from the last to the first, each with its sides exchanged. -/
def unchained : List Equation :=
  [⟨.var 3, .var 2, none⟩, ⟨.fn [.var 2] (.var 3), .var 1, none⟩, ⟨.var 1, .var 0, none⟩]

/-- The one answer keeps `t3` and the other one `t2`, so that `t0` becomes `(t3) -> t3` or `(t2) ->
t2`. -/
theorem solve_rearranged_of_chained :
    (∀ e ∈ chained, e.Known) ∧ Rearranged chained unchained ∧
      ∃ σ σ', (solve none chained).outcome = .ok σ ∧ (solve none unchained).outcome = .ok σ' ∧
        σ.resolve? (.var 0) = some (.fn [.var 3] (.var 3)) ∧
        ∃ u', σ'.resolve? (.var 0) = some u' ∧ u' ≠ .fn [.var 3] (.var 3) ∧
          u'.normal = .fn [.var 0] (.var 0) := by
  have hes : ∀ e ∈ chained, e.Known := by decide
  have hrearranged : Rearranged chained unchained := by
    refine ⟨chained.reverse, (List.reverse_perm chained).symm, ?_⟩
    exact .cons (.inr ⟨rfl, rfl⟩) (.cons (.inr ⟨rfl, rfl⟩) (.cons (.inr ⟨rfl, rfl⟩) .nil))
  obtain ⟨σ, hσ, hroot⟩ : ∃ σ, (solve none chained).outcome = .ok σ ∧
      σ.resolve? (.var 0) = some (.fn [.var 3] (.var 3)) :=
    ⟨⟨[(0, .fn [.var 3] (.var 3)), (1, .fn [.var 3] (.var 3)), (2, .var 3)], by decide⟩, by cbv,
      by decide⟩
  obtain ⟨σ', hσ', hroot'⟩ : ∃ σ', (solve none unchained).outcome = .ok σ' ∧
      σ'.resolve? (.var 0) = some (.fn [.var 2] (.var 2)) :=
    ⟨⟨[(3, .var 2), (1, .fn [.var 2] (.var 2)), (0, .fn [.var 2] (.var 2))], by decide⟩, by cbv,
      by decide⟩
  obtain ⟨u, u', hu, hu', hnormal⟩ :=
    (solve_rearranged chained unchained hes hrearranged).2.2 none none σ σ' hσ hσ' (.var 0)
  cases hroot.symm.trans hu
  cases hroot'.symm.trans hu'
  exact ⟨hes, hrearranged, σ, σ', hσ, hσ', hroot, _, hroot', by decide,
    hnormal.symm.trans (by decide)⟩

end Monotype
