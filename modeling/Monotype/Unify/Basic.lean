import Monotype.Subst.Basic

/-!
# Unification

Pending equations are solved from left to right under one substitution.  Each step takes the first
equation, applies the substitution to both sides and makes one move:

- a variable against itself, or two equal constants: nothing to do;
- a variable against a type that does not mention it: bind the variable;
- two functions with equally many parameters: their parameters from left to right, then their
  results, become the next equations;
- anything else is a conflict.

`unify` counts the steps and lists the bindings it makes, also on the way to a conflict.  It may be
limited in how deeply it nests when it applies the substitution.

Termination: a binding takes one variable out of those that are still open, and every other move
keeps the open variables and makes the pending types, as the substitution sees them, smaller
(`openCount_lt_of_bind`, `openCount_le_of_split`, `pendingSize_split`).
-/

namespace Monotype

inductive Conflict where
  -- Two types of different shape, or two different constants.
  | mismatch (left right : Ty)
  | arity (left right : Nat)
  -- A variable that occurs inside the type it should equal.
  | infinite (id : Int) (type : Ty)
  deriving DecidableEq, Repr

namespace Unify

/-- What one step does with two types in which no variable is mapped. -/
inductive Move where
  | skip
  | bind (id : Int) (type : Ty)
  -- The equations between the parts replace the equation.
  | split (parts : List (Ty × Ty))
  | clash (conflict : Conflict)

def eliminate (i : Int) (t : Ty) : Move :=
  if t = .var i then .skip
  else if t.occurs i then .clash (.infinite i t)
  else .bind i t

/-- The move for an equation.  A variable on the left is bound before one on the right. -/
def move : Ty → Ty → Move
  | .var i, b => eliminate i b
  | a, .var j => eliminate j a
  | .const c, .const d => if c = d then .skip else .clash (.mismatch (.const c) (.const d))
  | .fn ps r, .fn qs s =>
      if ps.length = qs.length then .split (ps.zip qs ++ [(r, s)])
      else .clash (.arity ps.length qs.length)
  | a, b => .clash (.mismatch a b)

inductive Obstacle where
  | conflict (conflict : Conflict)
  -- The substitution cannot be applied: that would never end, or nest deeper than the limit.
  | endless
  deriving DecidableEq, Repr

/-- The outcome of a run with what was done on the way. -/
structure Attempt (α : Type) where
  outcome : Except Obstacle α
  steps : Nat
  bindings : List (Int × Ty)

namespace Attempt

variable {α : Type}

def tick (r : Attempt α) : Attempt α := { r with steps := r.steps + 1 }

def record (i : Int) (t : Ty) (r : Attempt α) : Attempt α :=
  { r with bindings := (i, t) :: r.bindings }

end Attempt

/-! ## Termination measure -/

def distinctCount : List Int → Nat
  | [] => 0
  | i :: is => if i ∈ is then distinctCount is else distinctCount is + 1

/-- Without one of its elements a list has one distinct element less. -/
theorem distinctCount_filter_ne {i : Int} {is : List Int} (h : i ∈ is) :
    distinctCount (is.filter fun j => !decide (j = i)) + 1 = distinctCount is := by
  induction is with
  | nil => simp at h
  | cons k is ih =>
      by_cases hk : k = i
      · subst hk
        by_cases hm : k ∈ is
        · simpa [distinctCount, hm] using ih hm
        · have same : is.filter (fun j => !decide (j = k)) = is := by
            rw [List.filter_eq_self]
            intro a ha
            have hne : a ≠ k := fun e => hm (e ▸ ha)
            simp [hne]
          simp [distinctCount, hm, same]
      · have hi : i ∈ is := by
          rcases List.mem_cons.1 h with h | h
          · exact absurd h.symm hk
          · exact h
        have step := ih hi
        by_cases hm : k ∈ is <;>
          simp only [List.filter_cons, hk, decide_false, Bool.not_false, if_true, distinctCount,
            List.mem_filter, and_true, hm, if_false] <;> omega

theorem distinctCount_le_of_subset {as bs : List Int} (h : ∀ i ∈ as, i ∈ bs) :
    distinctCount as ≤ distinctCount bs := by
  induction as generalizing bs with
  | nil => simp [distinctCount]
  | cons i as ih =>
      by_cases hm : i ∈ as
      · simp only [distinctCount, hm, if_true]
        exact ih fun j hj => h j (by simp [hj])
      · simp only [distinctCount, hm, if_false]
        have hb : i ∈ bs := h i (by simp)
        rw [← distinctCount_filter_ne hb]
        refine Nat.succ_le_succ (ih fun j hj => ?_)
        have hne : j ≠ i := fun e => hm (e ▸ hj)
        simp [List.mem_filter, h j (by simp [hj]), hne]

/-- A list that misses an element of another one has fewer distinct elements. -/
theorem distinctCount_lt_of_subset {as bs : List Int} (h : ∀ i ∈ as, i ∈ bs) {k : Int}
    (hk : k ∈ bs) (hn : k ∉ as) : distinctCount as < distinctCount bs := by
  rw [← distinctCount_filter_ne hk]
  refine Nat.lt_succ_of_le (distinctCount_le_of_subset fun j hj => ?_)
  have hne : j ≠ k := fun e => hn (e ▸ hj)
  simp [List.mem_filter, h j hj, hne]

def pendingVars (work : List (Ty × Ty)) : List Int :=
  work.flatMap fun e => e.1.vars ++ e.2.vars

/-- The variables that a run may still bind. -/
def openVars (σ : Subst) (work : List (Ty × Ty)) : List Int :=
  (pendingVars work ++ σ.valueVars).filter fun i => (σ.get? i).isNone

def openCount (σ : Subst) (work : List (Ty × Ty)) : Nat :=
  distinctCount (openVars σ work)

/-- The size of a type as the substitution sees it. -/
def appliedSize (σ : Subst) (t : Ty) : Nat :=
  match σ.resolve? t with
  | some u => u.size
  | none => 0

/-- The size of pending equations as the substitution sees them. -/
def pendingSize (σ : Subst) : List (Ty × Ty) → Nat
  | [] => 0
  | e :: work => appliedSize σ e.1 + appliedSize σ e.2 + pendingSize σ work

/-- A variable is open if it is mentioned somewhere and not mapped. -/
theorem mem_openVars {σ : Subst} {work : List (Ty × Ty)} {i : Int} :
    i ∈ openVars σ work ↔
      (i ∈ pendingVars work ∨ i ∈ σ.valueVars) ∧ σ.get? i = none := by
  simp [openVars, List.mem_filter, or_and_right]

theorem pendingVars_cons (a b : Ty) (work : List (Ty × Ty)) :
    pendingVars ((a, b) :: work) = a.vars ++ b.vars ++ pendingVars work := rfl

theorem pendingVars_append (w₁ w₂ : List (Ty × Ty)) :
    pendingVars (w₁ ++ w₂) = pendingVars w₁ ++ pendingVars w₂ := by
  simp [pendingVars]

theorem pendingSize_append (σ : Subst) (w₁ w₂ : List (Ty × Ty)) :
    pendingSize σ (w₁ ++ w₂) = pendingSize σ w₁ + pendingSize σ w₂ := by
  induction w₁ with
  | nil => simp [pendingSize]
  | cons e w₁ ih =>
      simp only [List.cons_append, pendingSize, ih]
      omega

theorem openCount_tail_le (σ : Subst) (e : Ty × Ty) (work : List (Ty × Ty)) :
    openCount σ work ≤ openCount σ (e :: work) := by
  refine distinctCount_le_of_subset fun i hi => ?_
  rw [mem_openVars] at hi ⊢
  refine ⟨hi.1.imp (fun h => ?_) id, hi.2⟩
  obtain ⟨a, b⟩ := e
  rw [pendingVars_cons, List.mem_append]
  exact Or.inr h

/-! ## The moves -/

/-- A variable is bound to the type that it stands against, in which it does not occur. -/
theorem eq_of_eliminate_bind {i j : Int} {t u : Ty} (h : eliminate i t = .bind j u) :
    j = i ∧ u = t ∧ i ∉ t.vars := by
  unfold eliminate at h
  by_cases h₁ : t = .var i
  · simp [h₁] at h
  · by_cases h₂ : t.occurs i = true
    · simp [h₁, h₂] at h
    · simp only [h₁, h₂, if_false] at h
      cases h
      exact ⟨rfl, rfl, fun hm => h₂ (Ty.occurs_iff.2 hm)⟩

theorem eliminate_ne_split (i : Int) (t : Ty) (parts : List (Ty × Ty)) :
    eliminate i t ≠ .split parts := by
  unfold eliminate
  by_cases h₁ : t = .var i
  · simp [h₁]
  · by_cases h₂ : t.occurs i = true <;> simp [h₁, h₂]

/-- A binding pairs a variable of one side with the other side, which does not mention it. -/
theorem of_move_bind {a b : Ty} {i : Int} {t : Ty} (h : move a b = .bind i t) :
    i ∉ t.vars ∧ ((a = .var i ∧ b = t) ∨ (b = .var i ∧ a = t)) := by
  unfold move at h
  split at h
  · obtain ⟨rfl, rfl, hn⟩ := eq_of_eliminate_bind h
    exact ⟨hn, Or.inl ⟨rfl, rfl⟩⟩
  · obtain ⟨rfl, rfl, hn⟩ := eq_of_eliminate_bind h
    exact ⟨hn, Or.inr ⟨rfl, rfl⟩⟩
  · split at h <;> cases h
  · split at h <;> cases h
  · cases h

/-- Only two functions with equally many parameters are split. -/
theorem of_move_split {a b : Ty} {parts : List (Ty × Ty)} (h : move a b = .split parts) :
    ∃ ps r qs s, a = .fn ps r ∧ b = .fn qs s ∧ ps.length = qs.length ∧
      parts = ps.zip qs ++ [(r, s)] := by
  unfold move at h
  split at h
  · exact absurd h (eliminate_ne_split _ _ _)
  · exact absurd h (eliminate_ne_split _ _ _)
  · split at h <;> cases h
  · split at h
    · rename_i ps r qs s hlen
      cases h
      exact ⟨ps, r, qs, s, rfl, rfl, hlen, rfl⟩
    · cases h
  · cases h

/-- A move binds variables of its sides only. -/
theorem mem_vars_of_move_bind {a b t : Ty} {i j : Int} (h : move a b = .bind i t)
    (hj : j = i ∨ j ∈ t.vars) : j ∈ a.vars ∨ j ∈ b.vars := by
  rcases (of_move_bind h).2 with ⟨rfl, rfl⟩ | ⟨rfl, rfl⟩
  · exact hj.imp (fun h => by simp [h]) id
  · exact hj.symm.imp id (fun h => by simp [h])

theorem mem_vars_of_move_split {a b : Ty} {parts : List (Ty × Ty)} {j : Int}
    (h : move a b = .split parts) (hj : j ∈ pendingVars parts) : j ∈ a.vars ∨ j ∈ b.vars := by
  obtain ⟨ps, r, qs, s, rfl, rfl, _, rfl⟩ := of_move_split h
  obtain ⟨⟨p, q⟩, hpq, hj⟩ := List.mem_flatMap.1 hj
  rcases List.mem_append.1 hpq with hz | hz
  · have hp := List.of_mem_zip hz
    rcases List.mem_append.1 hj with h | h
    · left
      rw [Ty.vars_fn, List.mem_append]
      exact Or.inl (List.mem_flatMap.2 ⟨p, hp.1, h⟩)
    · right
      rw [Ty.vars_fn, List.mem_append]
      exact Or.inl (List.mem_flatMap.2 ⟨q, hp.2, h⟩)
  · rw [List.mem_singleton] at hz
    cases hz
    rcases List.mem_append.1 hj with h | h
    · exact Or.inl (by simp [h])
    · exact Or.inr (by simp [h])

/-! ## What is mentioned -/

section Mentioned

variable {σ σ' : Subst} {a b a' b' t : Ty} {i j : Int} {parts work : List (Ty × Ty)}

/-- Applying the substitution mentions nothing new. -/
theorem mentioned_of_resolve? (ha : σ.resolve? a = some a') (hb : σ.resolve? b = some b')
    (hj : j ∈ a'.vars ∨ j ∈ b'.vars) : j ∈ pendingVars ((a, b) :: work) ∨ j ∈ σ.valueVars := by
  rw [pendingVars_cons]
  rcases hj with hj | hj
  · exact (Subst.mem_vars_resolve? ha hj).imp (fun h => by simp [h]) id
  · exact (Subst.mem_vars_resolve? hb hj).imp (fun h => by simp [h]) id

/-- What is mentioned after a binding was mentioned before it. -/
theorem mentioned_of_bind (ha : σ.resolve? a = some a') (hb : σ.resolve? b = some b')
    (hm : move a' b' = .bind i t) (he : σ.extend? i t = some σ')
    (hj : j ∈ pendingVars work ∨ j ∈ σ'.valueVars) :
    j ∈ pendingVars ((a, b) :: work) ∨ j ∈ σ.valueVars := by
  rcases hj with hj | hj
  · exact Or.inl (by simp [pendingVars_cons, hj])
  · rcases Subst.mem_valueVars_extend? he hj with hj | hj
    · exact Or.inr hj
    · exact mentioned_of_resolve? ha hb (mem_vars_of_move_bind hm (Or.inr hj))

/-- What is mentioned after a split was mentioned before it. -/
theorem mentioned_of_split (ha : σ.resolve? a = some a') (hb : σ.resolve? b = some b')
    (hm : move a' b' = .split parts) (hj : j ∈ pendingVars (parts ++ work) ∨ j ∈ σ.valueVars) :
    j ∈ pendingVars ((a, b) :: work) ∨ j ∈ σ.valueVars := by
  rw [pendingVars_append, List.mem_append] at hj
  rcases hj with (hj | hj) | hj
  · exact mentioned_of_resolve? ha hb (mem_vars_of_move_split hm hj)
  · exact Or.inl (by simp [pendingVars_cons, hj])
  · exact Or.inr hj

/-- A binding closes a variable. -/
theorem openCount_lt_of_bind (ha : σ.resolve? a = some a') (hb : σ.resolve? b = some b')
    (hm : move a' b' = .bind i t) (he : σ.extend? i t = some σ') :
    openCount σ' work < openCount σ ((a, b) :: work) := by
  have hi : i ∈ a'.vars ∨ i ∈ b'.vars := mem_vars_of_move_bind hm (Or.inl rfl)
  have hnone : σ.get? i = none :=
    hi.elim (Subst.get?_of_mem_vars_resolve? ha) (Subst.get?_of_mem_vars_resolve? hb)
  have mapped : ∀ j, σ'.get? j = none → j ≠ i ∧ σ.get? j = none := by
    intro j hj
    have h := Subst.get?_extend?_isSome he j
    rw [hj] at h
    simp only [Option.isSome_none] at h
    have h' := (Bool.or_eq_false_iff.1 h.symm)
    exact ⟨by simpa using h'.1, by simpa using h'.2⟩
  refine distinctCount_lt_of_subset (k := i) (fun j hj => ?_) ?_ ?_
  · rw [mem_openVars] at hj ⊢
    exact ⟨mentioned_of_bind ha hb hm he hj.1, (mapped j hj.2).2⟩
  · rw [mem_openVars]
    exact ⟨mentioned_of_resolve? ha hb hi, hnone⟩
  · rw [mem_openVars]
    exact fun h => (mapped i h.2).1 rfl

/-- A split opens none. -/
theorem openCount_le_of_split (ha : σ.resolve? a = some a') (hb : σ.resolve? b = some b')
    (hm : move a' b' = .split parts) :
    openCount σ (parts ++ work) ≤ openCount σ ((a, b) :: work) := by
  refine distinctCount_le_of_subset fun j hj => ?_
  rw [mem_openVars] at hj ⊢
  exact ⟨mentioned_of_split ha hb hm hj.1, hj.2⟩

end Mentioned

/-- The size of a type as the substitution sees it is that of the result. -/
theorem appliedSize_of_resolve? {σ : Subst} {t u : Ty} (h : σ.resolve? t = some u) :
    appliedSize σ t = u.size := by
  simp [appliedSize, h]

/-- What stands in a result is in the size that it has for the substitution. -/
theorem appliedSize_of_part {σ : Subst} {t r v : Ty} {ps : List Ty}
    (h : σ.resolve? t = some (.fn ps r)) (hv : v ∈ ps ∨ v = r) : appliedSize σ v = v.size := by
  refine appliedSize_of_resolve? (Subst.resolve?_eq_self fun i hi => ?_)
  -- No mapped variable is left in a result.
  refine Subst.get?_of_mem_vars_resolve? h ?_
  rw [Ty.vars_fn, List.mem_append]
  rcases hv with hv | rfl
  · exact Or.inl (List.mem_flatMap.2 ⟨v, hv, hi⟩)
  · exact Or.inr hi

theorem pendingSize_zip {σ : Subst} {xs ys : List Ty} (hxs : ∀ x ∈ xs, appliedSize σ x = x.size)
    (hys : ∀ y ∈ ys, appliedSize σ y = y.size) :
    pendingSize σ (xs.zip ys) ≤ Ty.sizeAll xs + Ty.sizeAll ys := by
  induction xs generalizing ys with
  | nil => simp [pendingSize]
  | cons x xs ih =>
      cases ys with
      | nil => simp [pendingSize]
      | cons y ys =>
          have hrest := ih (fun z hz => hxs z (List.mem_cons_of_mem x hz))
            (fun z hz => hys z (List.mem_cons_of_mem y hz))
          simp only [List.zip_cons_cons, pendingSize, Ty.sizeAll, hxs x (by simp), hys y (by simp)]
          omega

/-- A split leaves less to do. -/
theorem pendingSize_split {σ : Subst} {a b a' b' : Ty} {work parts : List (Ty × Ty)}
    (ha : σ.resolve? a = some a') (hb : σ.resolve? b = some b')
    (hm : move a' b' = .split parts) :
    pendingSize σ (parts ++ work) < pendingSize σ ((a, b) :: work) := by
  obtain ⟨ps, r, qs, s, rfl, rfl, hlen, rfl⟩ := of_move_split hm
  have hparams : pendingSize σ (ps.zip qs) ≤ Ty.sizeAll ps + Ty.sizeAll qs :=
    pendingSize_zip (fun p hp => appliedSize_of_part ha (Or.inl hp))
      fun q hq => appliedSize_of_part hb (Or.inl hq)
  rw [pendingSize_append, pendingSize_append]
  simp only [pendingSize, appliedSize_of_resolve? ha, appliedSize_of_resolve? hb,
    appliedSize_of_part ha (Or.inr rfl), appliedSize_of_part hb (Or.inr rfl), Ty.size]
  omega

/-- Whatever is dropped leaves less to do. -/
theorem pendingSize_tail {σ : Subst} {a b a' b' : Ty} (work : List (Ty × Ty))
    (ha : σ.resolve? a = some a') (hb : σ.resolve? b = some b') :
    pendingSize σ work < pendingSize σ ((a, b) :: work) := by
  have h := a'.size_pos
  simp only [pendingSize, appliedSize_of_resolve? ha, appliedSize_of_resolve? hb]
  omega

/-! ## The run -/

/-- Solve the pending equations from left to right, starting from `σ`, within a limit to how deeply
the substitution is applied; there may be none. -/
def unify (limit : Option Nat) (σ : Subst) (work : List (Ty × Ty)) : Attempt Subst :=
  match work with
  | [] => ⟨.ok σ, 0, []⟩
  | (a, b) :: work =>
      match _ha : σ.resolveWithin? limit a, _hb : σ.resolveWithin? limit b with
      | some a', some b' =>
          match _hm : move a' b' with
          | .skip => (unify limit σ work).tick
          | .split parts => (unify limit σ (parts ++ work)).tick
          | .clash c => ⟨.error (.conflict c), 1, []⟩
          | .bind i t =>
              match _he : σ.extendWithin? limit i t with
              | some σ' => ((unify limit σ' work).record i t).tick
              | none => ⟨.error .endless, 1, [(i, t)]⟩
      | _, _ => ⟨.error .endless, 1, []⟩
termination_by (openCount σ work, pendingSize σ work)
decreasing_by
  · rcases Nat.lt_or_eq_of_le (openCount_tail_le σ (a, b) work) with h | h
    · exact Prod.Lex.left _ _ h
    · rw [h]
      exact Prod.Lex.right _ (pendingSize_tail work (Subst.resolve?_of_resolveWithin? _ha)
        (Subst.resolve?_of_resolveWithin? _hb))
  · rcases Nat.lt_or_eq_of_le (openCount_le_of_split (Subst.resolve?_of_resolveWithin? _ha)
      (Subst.resolve?_of_resolveWithin? _hb) _hm) with h | h
    · exact Prod.Lex.left _ _ h
    · rw [h]
      exact Prod.Lex.right _ (pendingSize_split (Subst.resolve?_of_resolveWithin? _ha)
        (Subst.resolve?_of_resolveWithin? _hb) _hm)
  · exact Prod.Lex.left _ _ (openCount_lt_of_bind (Subst.resolve?_of_resolveWithin? _ha)
      (Subst.resolve?_of_resolveWithin? _hb) _hm (Subst.extend?_of_extendWithin? _he))

end Unify

end Monotype
