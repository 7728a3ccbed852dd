import Monotype.OrderedMap
import Monotype.Ty.Basic

/-!
# Substitutions

A substitution is a finite map from type variables to types, in insertion order.  Applying it
replaces mapped variables until none is left.  The values may mention mapped variables themselves,
so this ends exactly when no chain of replacements returns to a variable on it.

`Subst.expand` follows the chain below one variable.  A chain that meets more mapped variables than
the map has entries meets one of them twice and never ends, so `Subst.resolve?` allows as many
replacements along a chain as there are entries, and answers `none` beyond that.

An application may also be limited in how deeply it nests, through types and replacements together
(`Subst.fits`, `Subst.resolveWithin?`).

Main statements: what `resolve?` returns mentions no mapped variable (`get?_of_mem_vars_resolve?`),
and only variables of the type or of the values (`mem_vars_resolve?`); a type without mapped
variables is returned as it is (`resolve?_eq_self`).
-/

namespace Monotype

namespace Ty

/-! ## Grafts that may fail -/

/-- The variables of the grafts of several types come from what is grafted, if those of each do. -/
theorem mem_vars_bindAll? {f : Int → Option Ty} {ts us : List Ty} {j : Int}
    (hts : ∀ t ∈ ts, ∀ {u}, t.bind? f = some u → j ∈ u.vars →
      ∃ i ∈ t.vars, ∃ w, f i = some w ∧ j ∈ w.vars)
    (h : bindAll? f ts = some us) (hj : j ∈ us.flatMap vars) :
    ∃ i ∈ ts.flatMap vars, ∃ w, f i = some w ∧ j ∈ w.vars := by
  induction ts generalizing us with
  | nil =>
      rw [bindAll?] at h
      cases h
      simp at hj
  | cons t ts ih =>
      rw [bindAll?] at h
      cases ht : t.bind? f with
      | none => simp [ht] at h
      | some t' =>
          cases hrest : bindAll? f ts with
          | none => simp [ht, hrest] at h
          | some ts' =>
              simp only [ht, hrest, Option.some.injEq] at h
              subst h
              rw [List.flatMap_cons, List.mem_append] at hj
              rcases hj with hj | hj
              · obtain ⟨i, hi, hgraft⟩ := hts t (by simp) ht hj
                exact ⟨i, List.mem_append_left _ hi, hgraft⟩
              · obtain ⟨i, hi, hgraft⟩ := ih (fun u hu => hts u (by simp [hu])) hrest hj
                exact ⟨i, List.mem_append_right _ hi, hgraft⟩

/-- The variables of a graft come from what is grafted. -/
theorem mem_vars_bind? {f : Int → Option Ty} {t u : Ty} (h : t.bind? f = some u) {j : Int}
    (hj : j ∈ u.vars) : ∃ i ∈ t.vars, ∃ w, f i = some w ∧ j ∈ w.vars := by
  induction t generalizing u with
  | unknown =>
      rw [bind?] at h
      cases h
      simp at hj
  | var i => exact ⟨i, by simp, u, h, hj⟩
  | const c =>
      rw [bind?] at h
      cases h
      simp at hj
  | fn ps r ihp ihr =>
      rw [bind?] at h
      cases hps : bindAll? f ps with
      | none => simp [hps] at h
      | some qs =>
          cases hr : r.bind? f with
          | none => simp [hps, hr] at h
          | some s =>
              simp only [hps, hr, Option.some.injEq] at h
              subst h
              rw [vars_fn, List.mem_append] at hj
              simp only [vars_fn, List.mem_append]
              rcases hj with hj | hj
              · obtain ⟨i, hi, hgraft⟩ := mem_vars_bindAll? ihp hps hj
                exact ⟨i, Or.inl hi, hgraft⟩
              · obtain ⟨i, hi, hgraft⟩ := ihr hr hj
                exact ⟨i, Or.inr hi, hgraft⟩

theorem bindAll?_eq_self {f : Int → Option Ty} {ts : List Ty}
    (h : ∀ t ∈ ts, t.bind? f = some t) : bindAll? f ts = some ts := by
  induction ts with
  | nil => rfl
  | cons t ts ih => simp [bindAll?, h t (by simp), ih fun u hu => h u (by simp [hu])]

theorem bind?_eq_self {f : Int → Option Ty} {t : Ty} (h : ∀ i ∈ t.vars, f i = some (.var i)) :
    t.bind? f = some t := by
  induction t with
  | unknown => rfl
  | var i => exact h i (by simp)
  | const c => rfl
  | fn ps r ihp ihr =>
      have hps : bindAll? f ps = some ps := by
        refine bindAll?_eq_self fun p hp => ihp p hp fun i hi => h i ?_
        rw [vars_fn, List.mem_append]
        exact Or.inl (List.mem_flatMap.2 ⟨p, hp, hi⟩)
      have hr : r.bind? f = some r := ihr fun i hi => h i (by simp [hi])
      simp [bind?, hps, hr]

end Ty

abbrev Subst := OrderedMap Int Ty

namespace Subst

/-! ## Application -/

/-- The type that stands for variable `i` after all replacements, when no chain of replacements
needs more than `n` of them. -/
def expand (σ : Subst) : Nat → Int → Option Ty
  | 0, i =>
      match σ.get? i with
      | none => some (.var i)
      | some _ => none
  | n + 1, i =>
      match σ.get? i with
      | none => some (.var i)
      | some t => t.bind? (expand σ n)

/-- Replace every mapped variable, and those in the replacements, until none is left; `none` when
this never ends. -/
def resolve? (σ : Subst) (t : Ty) : Option Ty :=
  t.bind? (expand σ σ.size)

/-- Whether the application to a type nests no deeper than `n` levels.  A replacement and a result
are one level deeper than what they belong to, and a parameter, which stands in a list, is two. -/
def fits (σ : Subst) : Nat → Ty → Bool
  | 0, _ => false
  | n + 1, .var i =>
      match σ.get? i with
      | none => true
      | some t => fits σ n t
  | 1, .fn _ _ => false
  | n + 2, .fn ps r => ps.all (fits σ n) && fits σ (n + 1) r
  | _ + 1, _ => true

/-- Apply the substitution, if that nests no deeper than a limit; there may be none. -/
def resolveWithin? (limit : Option Nat) (σ : Subst) (t : Ty) : Option Ty :=
  if limit.all fun n => σ.fits n t then σ.resolve? t else none

@[simp] theorem resolveWithin?_none (σ : Subst) (t : Ty) :
    σ.resolveWithin? none t = σ.resolve? t := by
  simp [resolveWithin?]

/-- A limited application returns what an unlimited one does. -/
theorem resolve?_of_resolveWithin? {limit : Option Nat} {σ : Subst} {t u : Ty}
    (h : σ.resolveWithin? limit t = some u) : σ.resolve? t = some u := by
  unfold resolveWithin? at h
  split at h
  · exact h
  · cases h

def valueVars (σ : Subst) : List Int :=
  σ.entries.flatMap fun e => e.2.vars

theorem mem_valueVars_of_get? {σ : Subst} {i : Int} {t : Ty} (h : σ.get? i = some t) {j : Int}
    (hj : j ∈ t.vars) : j ∈ σ.valueVars := by
  have key : ∀ es : List (Int × Ty), es.lookup i = some t → j ∈ es.flatMap fun e => e.2.vars := by
    intro es
    induction es with
    | nil => intro h; simp at h
    | cons e es ih =>
        obtain ⟨k, v⟩ := e
        rw [Entries.lookup_cons]
        by_cases hk : i = k
        · simp only [hk, if_true, Option.some.injEq]
          rintro rfl
          simp [hj]
        · simp only [hk, if_false]
          intro h
          rw [List.flatMap_cons, List.mem_append]
          exact Or.inr (ih h)
  exact key σ.entries h

theorem expand_of_unmapped {σ : Subst} {i : Int} (h : σ.get? i = none) (n : Nat) :
    σ.expand n i = some (.var i) := by
  cases n <;> simp [expand, h]

/-- What is left after replacements is unmapped, and comes from the start or from a value. -/
theorem mem_vars_expand {σ : Subst} {n : Nat} {i : Int} {t : Ty} (h : σ.expand n i = some t)
    {j : Int} (hj : j ∈ t.vars) : σ.get? j = none ∧ (j = i ∨ j ∈ σ.valueVars) := by
  induction n generalizing i t with
  | zero =>
      cases hi : σ.get? i with
      | none =>
          simp only [expand, hi, Option.some.injEq] at h
          subst h
          rw [Ty.vars_var, List.mem_singleton] at hj
          subst hj
          exact ⟨hi, Or.inl rfl⟩
      | some u => simp [expand, hi] at h
  | succ n ih =>
      cases hi : σ.get? i with
      | none =>
          simp only [expand, hi, Option.some.injEq] at h
          subst h
          rw [Ty.vars_var, List.mem_singleton] at hj
          subst hj
          exact ⟨hi, Or.inl rfl⟩
      | some u =>
          simp only [expand, hi] at h
          -- The variable comes from the expansion of one in the value, one replacement further on.
          obtain ⟨k, hk, w, hw, hjw⟩ := Ty.mem_vars_bind? h hj
          obtain ⟨hn, hor⟩ := ih hw hjw
          refine ⟨hn, Or.inr ?_⟩
          rcases hor with rfl | hv
          · exact mem_valueVars_of_get? hi hk
          · exact hv

/-- No mapped variable is left in what application returns. -/
theorem get?_of_mem_vars_resolve? {σ : Subst} {t u : Ty} (h : σ.resolve? t = some u) {j : Int}
    (hj : j ∈ u.vars) : σ.get? j = none := by
  obtain ⟨_, _, _, hw, hjw⟩ := Ty.mem_vars_bind? h hj
  exact (mem_vars_expand hw hjw).1

/-- Application brings in variables of the values only. -/
theorem mem_vars_resolve? {σ : Subst} {t u : Ty} (h : σ.resolve? t = some u) {j : Int}
    (hj : j ∈ u.vars) : j ∈ t.vars ∨ j ∈ σ.valueVars := by
  obtain ⟨i, hi, _, hw, hjw⟩ := Ty.mem_vars_bind? h hj
  rcases (mem_vars_expand hw hjw).2 with rfl | hv
  · exact Or.inl hi
  · exact Or.inr hv

/-- A type without mapped variables is returned as it is. -/
theorem resolve?_eq_self {σ : Subst} {t : Ty} (h : ∀ i ∈ t.vars, σ.get? i = none) :
    σ.resolve? t = some t :=
  Ty.bind?_eq_self fun i hi => expand_of_unmapped (h i hi) _

/-! ## Construction -/

/-- Add `i := t` and replace `i` in the values that are there; `none` when the replacement never
ends, which needs `i` to occur in `t`. -/
def extend? (σ : Subst) (i : Int) (t : Ty) : Option Subst :=
  (OrderedMap.traverse (resolve? (OrderedMap.single i t)) σ).map fun σ' => σ'.insert i t

/-- First `σ`, then `τ`: `τ` is applied to the values of `σ`, and its own entries win. -/
def compose? (σ τ : Subst) : Option Subst :=
  (OrderedMap.traverse (resolve? τ) σ).map fun σ' => σ'.insertAll τ.entries

def extendWithin? (limit : Option Nat) (σ : Subst) (i : Int) (t : Ty) : Option Subst :=
  if limit.all fun n => σ.entries.all fun e => fits (OrderedMap.single i t) n e.2 then σ.extend? i t
  else none

@[simp] theorem extendWithin?_none (σ : Subst) (i : Int) (t : Ty) :
    σ.extendWithin? none i t = σ.extend? i t := by
  simp [extendWithin?]

/-- A limited extension returns what an unlimited one does. -/
theorem extend?_of_extendWithin? {limit : Option Nat} {σ σ' : Subst} {i : Int} {t : Ty}
    (h : σ.extendWithin? limit i t = some σ') : σ.extend? i t = some σ' := by
  unfold extendWithin? at h
  split at h
  · exact h
  · cases h

def composeWithin? (limit : Option Nat) (σ τ : Subst) : Option Subst :=
  if limit.all fun n => σ.entries.all fun e => fits τ n e.2 then σ.compose? τ else none

def sortedEntries (σ : Subst) : List (Int × Ty) :=
  σ.entries.mergeSort fun a b => a.1 ≤ b.1

section Extend

variable {σ σ' : Subst} {i j : Int} {t : Ty}

/-- Where one variable is replaced, new variables come from the replacement. -/
theorem mem_vars_resolve?_single {v w : Ty} (h : resolve? (OrderedMap.single i t) v = some w)
    (hj : j ∈ w.vars) : j ∈ v.vars ∨ j ∈ t.vars := by
  rcases mem_vars_resolve? h hj with hv | ht
  · exact Or.inl hv
  · exact Or.inr (by simpa [valueVars, OrderedMap.single] using ht)

/-- The same for a replacement in the values of all entries. -/
theorem mem_vars_traverse_single {es : List (Int × Ty)}
    {out : { out : List (Int × Ty) // Entries.keys out = Entries.keys es }}
    (h : Entries.traverse (resolve? (OrderedMap.single i t)) es = some out)
    (hj : j ∈ out.val.flatMap fun e => e.2.vars) :
    j ∈ es.flatMap (fun e => e.2.vars) ∨ j ∈ t.vars := by
  induction es with
  | nil =>
      simp only [Entries.traverse, Option.some.injEq] at h
      subst h
      simp at hj
  | cons e es ih =>
      obtain ⟨k, v⟩ := e
      rw [Entries.traverse] at h
      cases hv : resolve? (OrderedMap.single i t) v with
      | none => simp [hv] at h
      | some w =>
          cases hes : Entries.traverse (resolve? (OrderedMap.single i t)) es with
          | none => simp [hv, hes] at h
          | some rest =>
              simp only [hv, hes, Option.some.injEq] at h
              subst h
              simp only [List.flatMap_cons, List.mem_append] at hj ⊢
              rcases hj with hj | hj
              · exact (mem_vars_resolve?_single hv hj).imp_left Or.inl
              · exact (ih hes hj).imp_left Or.inr

/-- Writing an entry adds no variables but those of its value. -/
theorem mem_vars_put {es : List (Int × Ty)}
    (hj : j ∈ (Entries.put i t es).flatMap fun e => e.2.vars) :
    j ∈ es.flatMap (fun e => e.2.vars) ∨ j ∈ t.vars := by
  induction es with
  | nil => exact Or.inr (by simpa [Entries.put] using hj)
  | cons e es ih =>
      obtain ⟨k, v⟩ := e
      rw [Entries.put] at hj
      by_cases hk : k = i
      · simp only [hk, if_true, List.flatMap_cons, List.mem_append] at hj ⊢
        rcases hj with hj | hj
        · exact Or.inr hj
        · exact Or.inl (Or.inr hj)
      · simp only [hk, if_false, List.flatMap_cons, List.mem_append] at hj ⊢
        rcases hj with hj | hj
        · exact Or.inl (Or.inl hj)
        · exact (ih hj).imp_left Or.inr

/-- A new entry mentions no variables but its own and those that were mentioned before. -/
theorem mem_valueVars_extend? (h : σ.extend? i t = some σ') (hj : j ∈ σ'.valueVars) :
    j ∈ σ.valueVars ∨ j ∈ t.vars := by
  unfold extend? OrderedMap.traverse at h
  cases hes : Entries.traverse (resolve? (OrderedMap.single i t)) σ.entries with
  | none => simp [hes] at h
  | some out =>
      simp only [hes, Option.map_some, Option.some.injEq] at h
      subst h
      -- The entry is replaced in all values first, and then written.
      rcases mem_vars_put hj with hout | ht
      · exact mem_vars_traverse_single hes hout
      · exact Or.inr ht

end Extend

theorem get?_extend?_isSome {σ σ' : Subst} {i : Int} {t : Ty} (h : σ.extend? i t = some σ')
    (j : Int) : (σ'.get? j).isSome = (decide (j = i) || (σ.get? j).isSome) := by
  unfold extend? OrderedMap.traverse at h
  cases hes : Entries.traverse (resolve? (OrderedMap.single i t)) σ.entries with
  | none => simp [hes] at h
  | some out =>
      simp only [hes, Option.map_some, Option.some.injEq] at h
      subst h
      rw [OrderedMap.get?_insert]
      by_cases hj : j = i
      · simp [hj]
      · -- Replacing in the values leaves the keys alone.
        have hkeys : (out.val.lookup j).isSome = (σ.entries.lookup j).isSome := by
          rw [Bool.eq_iff_iff, ← Entries.mem_keys_iff, ← Entries.mem_keys_iff, out.property]
        simpa [hj, OrderedMap.get?] using hkeys

end Subst

end Monotype
