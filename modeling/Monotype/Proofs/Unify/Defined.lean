import Mathlib.Data.Set.Operations
import Mathlib.Logic.Function.Basic
import Monotype.Proofs.Ty.Variant
import Monotype.Proofs.Unify.Rename
import Monotype.Proofs.Unify.Solve

/-!
# Equations with definitions

A list of equations may name a type before it uses it: an equation `p = T`, where `p` occurs nowhere
before, defines `p`, and in later equations `p` may stand in the place of `T`.  Such definitions
change nothing.  The solver binds each defined variable to its definition and otherwise takes the
same steps as without them, so it comes to the same solution or to the same conflict, up to the
names of the variables (`solveFrom_of_defines`).

The variables of the plain equations are renamed by an embedding, and the defined variables are new,
that is, not in its range.  A graft `θ` records what was defined so far; it moves nothing else.
-/

namespace Monotype

/-! ## Substitutions with definitions -/

namespace Subst

/-- In a flat substitution only unmapped variables stand for themselves. -/
theorem Resolved.unmapped_of_assign {σ : Subst} (hσ : σ.Resolved) {i : Int}
    (h : σ.assign i = .var i) :
    σ.get? i = none := by
  cases hi : σ.get? i with
  | none => rfl
  | some t =>
      rw [assign_of_get? hi] at h
      exact hi.symm.trans (hσ i t hi i (by simp [h]))

/-- A new entry is put in the place of its variable everywhere. -/
theorem assign_extend? {σ σ' : Subst} {i : Int} {t : Ty} (hi : i ∉ t.vars) (hnone : σ.get? i = none)
    (h : σ.extend? i t = some σ') (j : Int) : σ'.assign j = Ty.replace i t (σ.assign j) := by
  by_cases hji : j = i
  · simp [assign, get?_extend? hi h, hji, hnone, Ty.replace]
  · cases hj : σ.get? j with
    | none => simp [assign, get?_extend? hi h, hji, hj, Ty.replace]
    | some u => simp [assign, get?_extend? hi h, hji, hj]

/-- The second substitution does to renamed variables what the first one does to the variables, and
it gives a defined variable the value of its definition. -/
structure Mirrors (ρ : Int ↪ Int) (θ : Int → Ty) (σ σ' : Subst) : Prop where
  resolved : σ.Resolved
  resolved' : σ'.Resolved
  -- Nothing is defined that comes from the plain equations.
  fixes : ∀ i, θ (ρ i) = .var (ρ i)
  renamed : ∀ i, σ'.assign (ρ i) = (σ.assign i).rename ρ
  defined : ∀ j, σ'.assign j = (θ j).bind σ'.assign
  -- What is still to be defined is open.
  undefined : ∀ j, j ∉ Set.range ρ → θ j = .var j → σ'.get? j = none

end Subst

section Replace

variable (ρ : Int ↪ Int)

theorem Ty.bind_rename (f : Int → Ty) (t : Ty) : (t.rename ρ).bind f = t.bind fun i => f (ρ i) :=
  Ty.bind_bind _ _ t

/-- Renaming commutes with a replacement. -/
theorem Ty.rename_replace (i : Int) (t u : Ty) :
    (Ty.replace i t u).rename ρ = Ty.replace (ρ i) (t.rename ρ) (u.rename ρ) := by
  simp only [Ty.replace, Ty.rename, Ty.bind_bind]
  apply Ty.bind_congr
  intro j _
  by_cases hji : j = i
  · simp [hji]
  · simp [hji, ρ.injective.ne hji]

/-- A variable out of the renaming's reach cannot be replaced in what it renames. -/
theorem Ty.replace_rename_of_notMem_range {p : Int} (hp : p ∉ Set.range ρ) (t u : Ty) :
    Ty.replace p t (u.rename ρ) = u.rename ρ := by
  apply Ty.bind_eq_self
  intro j hj
  rw [Ty.vars_rename] at hj
  obtain ⟨i, _, rfl⟩ := List.mem_map.1 hj
  have hne : ρ i ≠ p := fun h => hp ⟨i, h⟩
  simp [hne]

theorem Ty.notMem_vars_rename {p : Int} (hp : p ∉ Set.range ρ) (u : Ty) :
    p ∉ (u.rename ρ).vars := by
  rw [Ty.vars_rename]
  intro h
  obtain ⟨i, _, rfl⟩ := List.mem_map.1 h
  exact hp ⟨i, rfl⟩

end Replace

namespace Subst

variable {ρ : Int ↪ Int} {θ : Int → Ty} {σ σ' : Subst}

theorem mirrors_empty (ρ : Int ↪ Int) : Mirrors ρ .var .empty .empty where
  resolved := resolved_empty
  resolved' := resolved_empty
  fixes := fun _ => rfl
  renamed := fun _ => rfl
  defined := fun _ => rfl
  undefined := fun _ _ _ => rfl

/-- A type that stands for a renamed one, once definitions are put in, gets the renamed value. -/
theorem Mirrors.bind_assign (h : Mirrors ρ θ σ σ') {t t' : Ty} (ht : t'.bind θ = t.rename ρ) :
    t'.bind σ'.assign = (t.bind σ.assign).rename ρ := by
  calc
    t'.bind σ'.assign = t'.bind fun j => (θ j).bind σ'.assign :=
      Ty.bind_congr fun j _ => h.defined j
    _ = (t'.bind θ).bind σ'.assign := (Ty.bind_bind _ _ _).symm
    _ = (t.rename ρ).bind σ'.assign := by rw [ht]
    _ = t.bind fun i => σ'.assign (ρ i) := Ty.bind_rename ρ _ t
    _ = t.bind fun i => (σ.assign i).rename ρ := Ty.bind_congr fun i _ => h.renamed i
    _ = (t.bind σ.assign).rename ρ := (Ty.bind_bind _ _ _).symm

/-- Renamed types are left alone by definitions. -/
theorem Mirrors.bind_rename (h : Mirrors ρ θ σ σ') (t : Ty) : (t.rename ρ).bind θ = t.rename ρ :=
  (Ty.bind_rename ρ θ t).trans (Ty.bind_congr fun i _ => h.fixes i)

/-- A binding of the first substitution is made in the second one too, renamed. -/
theorem Mirrors.extend {σ₁ : Subst} (h : Mirrors ρ θ σ σ') {i : Int} {t : Ty} (hi : i ∉ t.vars)
    (hnone : σ.get? i = none) (ht : ∀ j ∈ t.vars, σ.get? j = none) (he : σ.extend? i t = some σ₁) :
    ∃ σ₁', σ'.extend? (ρ i) (t.rename ρ) = some σ₁' ∧ Mirrors ρ θ σ₁ σ₁' := by
  -- What the one substitution leaves alone, the other one leaves alone under its new name.
  have hunmapped : ∀ j, σ.get? j = none → σ'.get? (ρ j) = none := by
    intro j hj
    apply h.resolved'.unmapped_of_assign
    rw [h.renamed, assign_of_unmapped hj, Ty.rename_var]
  have hi' : ρ i ∉ (t.rename ρ).vars := by
    simpa [Ty.vars_rename, ρ.injective.eq_iff] using hi
  have ht' : ∀ j ∈ (t.rename ρ).vars, σ'.get? j = none := by
    rw [Ty.vars_rename]
    intro j hj
    obtain ⟨k, hk, rfl⟩ := List.mem_map.1 hj
    exact hunmapped k (ht k hk)
  obtain ⟨σ₁', he'⟩ := exists_extend? σ' hi'
  have hassign := assign_extend? hi hnone he
  have hassign' := assign_extend? hi' (hunmapped i hnone) he'
  refine ⟨σ₁', he', h.resolved.extend? hi ht he, h.resolved'.extend? hi' ht' he', h.fixes, ?_, ?_,
    ?_⟩
  · intro j
    rw [hassign', hassign, h.renamed, Ty.rename_replace]
  · intro j
    calc
      σ₁'.assign j = Ty.replace (ρ i) (t.rename ρ) ((θ j).bind σ'.assign) := by
        rw [hassign', ← h.defined]
      _ = (θ j).bind σ₁'.assign := by
          rw [Ty.replace, Ty.bind_bind]
          exact Ty.bind_congr fun k _ => (hassign' k).symm
  · intro j hj hθ
    have hne : j ≠ ρ i := fun heq => hj ⟨i, heq.symm⟩
    simp [get?_extend? hi' he', hne, h.undefined j hj hθ]

/-- A new variable is bound to its definition. -/
theorem Mirrors.define (h : Mirrors ρ θ σ σ') {p : Int} (hp : p ∉ Set.range ρ) (hθ : θ p = .var p)
    (T : Ty) :
    ∃ σ₁', σ'.extend? p ((T.bind σ.assign).rename ρ) = some σ₁' ∧
      Mirrors ρ (Function.update θ p (T.rename ρ)) σ σ₁' := by
  have hnone : σ'.get? p = none := h.undefined p hp hθ
  have hvars : p ∉ ((T.bind σ.assign).rename ρ).vars := Ty.notMem_vars_rename ρ hp _
  obtain ⟨σ₁', he⟩ := exists_extend? σ' hvars
  have hassign := assign_extend? hvars hnone he
  have hunmapped : ∀ j ∈ ((T.bind σ.assign).rename ρ).vars, σ'.get? j = none := by
    rw [← h.bind_assign (h.bind_rename T)]
    exact fun j hj => h.resolved'.get?_of_mem_vars_bind hj
  have hrenamed : ∀ i, σ₁'.assign (ρ i) = (σ.assign i).rename ρ := by
    intro i
    rw [hassign, h.renamed, Ty.replace_rename_of_notMem_range ρ hp]
  have hfixes : ∀ i, Function.update θ p (T.rename ρ) (ρ i) = .var (ρ i) := by
    intro i
    rw [Function.update_of_ne fun heq => hp ⟨i, heq⟩]
    exact h.fixes i
  refine ⟨σ₁', he, h.resolved, h.resolved'.extend? hvars hunmapped he, hfixes, hrenamed, ?_, ?_⟩
  · intro j
    by_cases hj : j = p
    · subst hj
      -- The new variable has the value of its definition, since the definition is of old ones.
      calc
        σ₁'.assign j = (T.bind σ.assign).rename ρ := by
            rw [hassign, assign_of_unmapped hnone]
            simp [Ty.replace]
        _ = T.bind fun i => (σ.assign i).rename ρ := Ty.bind_bind _ _ _
        _ = T.bind fun i => σ₁'.assign (ρ i) := Ty.bind_congr fun i _ => (hrenamed i).symm
        _ = (T.rename ρ).bind σ₁'.assign := (Ty.bind_rename ρ _ T).symm
        _ = (Function.update θ j (T.rename ρ) j).bind σ₁'.assign := by rw [Function.update_self]
    · rw [Function.update_of_ne hj]
      calc
        σ₁'.assign j = Ty.replace p _ ((θ j).bind σ'.assign) := by rw [hassign, ← h.defined]
        _ = (θ j).bind σ₁'.assign := by
            rw [Ty.replace, Ty.bind_bind]
            exact Ty.bind_congr fun k _ => (hassign k).symm
  · intro j hj hθj
    by_cases hjp : j = p
    · subst hjp
      rw [Function.update_self] at hθj
      obtain ⟨i, _, hi⟩ := Ty.bind_eq_var_iff.1 hθj
      exact absurd ⟨i, Ty.var.inj hi⟩ hj
    · rw [Function.update_of_ne hjp] at hθj
      simp [get?_extend? hvars he, hjp, h.undefined j hj hθj]

end Subst

/-! ## Runs side by side -/

namespace Unify

open Subst (Mirrors)

variable {ρ : Int ↪ Int} {θ : Int → Ty}

def StandsFor (ρ : Int ↪ Int) (θ : Int → Ty) (e e' : Ty × Ty) : Prop :=
  e'.1.bind θ = e.1.rename ρ ∧ e'.2.bind θ = e.2.rename ρ

inductive MirrorsOutcome (ρ : Int ↪ Int) (θ : Int → Ty) :
    Except Obstacle Subst → Except Obstacle Subst → Prop where
  | ok {σ σ' : Subst} (h : Mirrors ρ θ σ σ') : MirrorsOutcome ρ θ (.ok σ) (.ok σ')
  | conflict (c : Conflict) :
      MirrorsOutcome ρ θ (.error (.conflict c)) (.error (.conflict (c.rename ρ)))

/-- The parts of an equation stand for the renamed parts. -/
theorem standsFor_renamePair {σ σ' : Subst} (h : Mirrors ρ θ σ σ') (parts : List (Ty × Ty)) :
    List.Forall₂ (StandsFor ρ θ) parts (parts.map (renamePair ρ)) := by
  rw [List.forall₂_map_right_iff, List.forall₂_same]
  exact fun e _ => ⟨h.bind_rename e.1, h.bind_rename e.2⟩

/-- The second run makes the moves of the first one, renamed. -/
theorem Run.mirror {σ σ' : Subst} {work work' : List (Ty × Ty)} {r : Except Obstacle Subst}
    (hrun : Run none σ work r) (hσ : Mirrors ρ θ σ σ')
    (hwork : List.Forall₂ (StandsFor ρ θ) work work') :
    ∃ r', Run none σ' work' r' ∧ MirrorsOutcome ρ θ r r' := by
  -- What a side resolves to, the side that stands for it resolves to as well, renamed.
  have hresolve : ∀ {σ σ' : Subst} {a a' b : Ty}, Mirrors ρ θ σ σ' → b.bind θ = a.rename ρ →
      σ.resolveWithin? none a = some a' → σ'.resolveWithin? none b = some (a'.rename ρ) := by
    intro σ σ' a a' b hσ hb ha
    rw [Subst.resolveWithin?_none, hσ.resolved'.resolve?_eq, hσ.bind_assign hb,
      eq_bind_assign hσ.resolved ha]
  induction hrun generalizing σ' work' with
  | done σ =>
      cases hwork
      exact ⟨_, .done σ', .ok hσ⟩
  | skip ha hb hm _ ih =>
      cases hwork with
      | cons he hrest =>
          obtain ⟨r', hr', hout⟩ := ih hσ hrest
          refine ⟨r', .skip (hresolve hσ he.1 ha) (hresolve hσ he.2 hb) ?_ hr', hout⟩
          rw [move_rename, hm]
          rfl
  | split ha hb hm _ ih =>
      cases hwork with
      | cons he hrest =>
          obtain ⟨r', hr', hout⟩ := ih hσ (List.rel_append (standsFor_renamePair hσ _) hrest)
          refine ⟨r', .split (hresolve hσ he.1 ha) (hresolve hσ he.2 hb) ?_ hr', hout⟩
          rw [move_rename, hm]
          rfl
  | bind ha hb hm he _ ih =>
      cases hwork with
      | cons hab hrest =>
          obtain ⟨hi, ht⟩ := unmapped_of_move_bind ha hb hm
          obtain ⟨σ₁', he', hσ₁⟩ :=
            hσ.extend (of_move_bind hm).1 hi ht (Subst.extend?_of_extendWithin? he)
          obtain ⟨r', hr', hout⟩ := ih hσ₁ hrest
          refine ⟨r', .bind (hresolve hσ hab.1 ha) (hresolve hσ hab.2 hb) ?_
            ((Subst.extendWithin?_none _ _ _).trans he') hr', hout⟩
          rw [move_rename, hm]
          rfl
  | clash ha hb hm =>
      cases hwork with
      | cons he hrest =>
          refine ⟨_, .clash (hresolve hσ he.1 ha) (hresolve hσ he.2 hb) ?_, .conflict _⟩
          rw [move_rename, hm]
          rfl
  | unresolved h =>
      rcases h with h | h
      · simp [hσ.resolved.resolve?_eq] at h
      · simp [hσ.resolved.resolve?_eq] at h
  | @unextended σ _ _ _ _ _ _ _ _ _ hm he =>
      obtain ⟨σ₁, hσ₁⟩ := Subst.exists_extend? σ (of_move_bind hm).1
      simp [hσ₁] at he

/-- A definition binds its variable. -/
theorem Run.define {σ σ' : Subst} (hσ : Mirrors ρ θ σ σ') {p : Int} (hp : p ∉ Set.range ρ)
    (hθ : θ p = .var p) {T T' : Ty} (hT : T'.bind θ = T.rename ρ) :
    ∃ σ₁', Run none σ' [(.var p, T')] (.ok σ₁') ∧
      Mirrors ρ (Function.update θ p (T.rename ρ)) σ σ₁' := by
  obtain ⟨σ₁', he, hσ₁⟩ := hσ.define hp hθ T
  have hnone : σ'.get? p = none := hσ.undefined p hp hθ
  have hvar : σ'.resolveWithin? none (.var p) = some (.var p) := by
    rw [Subst.resolveWithin?_none, hσ.resolved'.resolve?_eq, Ty.bind_var,
      Subst.assign_of_unmapped hnone]
  have hvalue : σ'.resolveWithin? none T' = some ((T.bind σ.assign).rename ρ) := by
    rw [Subst.resolveWithin?_none, hσ.resolved'.resolve?_eq, hσ.bind_assign hT]
  -- The value is made of renamed variables, and the new one is not among them.
  have hmove :
      move (.var p) ((T.bind σ.assign).rename ρ) = .bind p ((T.bind σ.assign).rename ρ) := by
    have hvars := Ty.notMem_vars_rename ρ hp (T.bind σ.assign)
    have hne : (T.bind σ.assign).rename ρ ≠ .var p := by
      intro h
      simp [h] at hvars
    have hoccurs : ((T.bind σ.assign).rename ρ).occurs p = false := by
      simpa [Ty.occurs] using hvars
    simp [move, eliminate, hne, hoccurs]
  exact ⟨σ₁', .bind hvar hvalue hmove ((Subst.extendWithin?_none _ _ _).trans he) (.done σ₁'), hσ₁⟩

end Unify

/-! ## Solving with definitions -/

section Solve

open Subst (Mirrors)
open Unify (Run run_unify StandsFor MirrorsOutcome)

variable {ρ : Int ↪ Int} {θ θ₁ θ₂ : Int → Ty} {es es' fs fs' : List Equation}

/-- The second list is the first one with definitions added: `θ` tells what is defined before, the
last graft what is defined after. -/
inductive Defines (ρ : Int ↪ Int) :
    (Int → Ty) → List Equation → List Equation → (Int → Ty) → Prop where
  | done (θ : Int → Ty) : Defines ρ θ [] [] θ
  -- An equation that stands for the next plain one.
  | plain {θ θ₁ : Int → Ty} {e e' : Equation} {es es' : List Equation}
      (he : StandsFor ρ θ (e.left, e.right) (e'.left, e'.right)) (rest : Defines ρ θ es es' θ₁) :
      Defines ρ θ (e :: es) (e' :: es') θ₁
  -- The definition of a new variable.
  | define {θ θ₁ : Int → Ty} {p : Int} {T T' : Ty} {origin : Option Term} {es es' : List Equation}
      (hp : p ∉ Set.range ρ) (hθ : θ p = .var p) (hT : T'.bind θ = T.rename ρ)
      (rest : Defines ρ (Function.update θ p (T.rename ρ)) es es' θ₁) :
      Defines ρ θ es (⟨.var p, T', origin⟩ :: es') θ₁

/-- Definitions may be collected part by part. -/
theorem Defines.append (h : Defines ρ θ es es' θ₁) (h' : Defines ρ θ₁ fs fs' θ₂) :
    Defines ρ θ (es ++ fs) (es' ++ fs') θ₂ := by
  induction h with
  | done θ => exact h'
  | plain he _ ih => exact .plain he (ih h')
  | define hp hθ hT _ ih => exact .define hp hθ hT (ih h')

/-- Equations that stand for plain ones, one for one, define nothing. -/
theorem defines_of_standsFor
    (h : List.Forall₂ (fun e e' : Equation =>
      StandsFor ρ θ (e.left, e.right) (e'.left, e'.right)) es es') :
    Defines ρ θ es es' θ := by
  induction h with
  | nil => exact .done θ
  | cons he _ ih => exact .plain he ih

/-- Solving goes on with what the first equation gives. -/
theorem outcome_solveFrom_cons {σ σ₁ : Subst} {e : Equation}
    (h : (Unify.unify none σ [(e.left, e.right)]).outcome = .ok σ₁) :
    (solveFrom none σ (e :: es)).outcome = (solveFrom none σ₁ es).outcome := by
  simp [solveFrom, h]

/-- Definitions change neither the solution nor the conflict, up to the names of the variables. -/
theorem solveFrom_of_defines (h : Defines ρ θ es es' θ₁) {σ σ' : Subst} (hσ : Mirrors ρ θ σ σ') :
    (∃ τ τ', (solveFrom none σ es).outcome = .ok τ ∧ (solveFrom none σ' es').outcome = .ok τ' ∧
      Mirrors ρ θ₁ τ τ') ∨
    ∃ c e e', (solveFrom none σ es).outcome = .error ⟨.conflict c, e⟩ ∧
      (solveFrom none σ' es').outcome = .error ⟨.conflict (c.rename ρ), e'⟩ := by
  induction h generalizing σ σ' with
  | done θ => exact Or.inl ⟨σ, σ', rfl, rfl, hσ⟩
  | @plain θ θ₁ e e' es es' he _ ih =>
      obtain ⟨r', hrun', hout⟩ := (run_unify none σ [(e.left, e.right)]).mirror hσ (.cons he .nil)
      have heq' := hrun'.outcome_eq
      generalize heq : (Unify.unify none σ [(e.left, e.right)]).outcome = r at hout
      cases hout with
      | ok hσ₁ =>
          rw [outcome_solveFrom_cons heq, outcome_solveFrom_cons heq']
          exact ih hσ₁
      | conflict c =>
          right
          exact ⟨c, e, e', by simp [solveFrom, heq], by simp [solveFrom, heq']⟩
  | @define θ θ₁ p T T' origin es es' hp hθ hT _ ih =>
      -- The definition stands in the second list only, and binds its variable there.
      obtain ⟨σ₁', hrun', hσ₁⟩ := Run.define hσ hp hθ hT
      rw [outcome_solveFrom_cons hrun'.outcome_eq]
      exact ih hσ₁

end Solve

end Monotype
