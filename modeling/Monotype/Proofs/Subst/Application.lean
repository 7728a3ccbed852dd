import Mathlib.Order.WellFounded
import Monotype.Proofs.Subst.Acyclic

/-!
# Where application ends

A mapped variable gives way to its value, and the mapped variables of the value give way in turn.
`Subst.resolve?` does this within a budget of one replacement per entry along every chain.  This
file compares it with the plain recursion, which counts nothing:

* `Subst.Applies σ t u` says that the recursion, started at `t`, ends with `u`;
* `Subst.Calls σ t u` says that the application to `t` asks for the application to `u`.

A type reaches a cycle if a variable of it leads, from key to key, to a key that leads back to
itself (`Subst.ReachesCycle`).  What reaches a cycle asks for something that reaches one too
(`ReachesCycle.exists_calls`), so the calls never end.  Otherwise the calls are well founded, and
the budget is enough.

Main statement: `Subst.resolve?_ends_iff_not_reachesCycle`.
-/

namespace Monotype

open Relation (TransGen ReflTransGen)

namespace Subst

/-- The recursion that replaces mapped variables ends at the type, with the given result. -/
inductive Applies (σ : Subst) : Ty → Ty → Prop where
  | unknown : Applies σ .unknown .unknown
  | const (c : String) : Applies σ (.const c) (.const c)
  | unmapped {i : Int} (h : σ.get? i = none) : Applies σ (.var i) (.var i)
  -- The value may hold mapped variables itself, so the recursion goes on with it.
  | mapped {i : Int} {t u : Ty} (h : σ.get? i = some t) (ht : Applies σ t u) : Applies σ (.var i) u
  | fn {ps : List Ty} {r s : Ty} {result : Ty → Ty} (hps : ∀ p ∈ ps, Applies σ p (result p))
      (hr : Applies σ r s) : Applies σ (.fn ps r) (.fn (ps.map result) s)

/-- The application to the first type asks for the application to the second. -/
inductive Calls (σ : Subst) : Ty → Ty → Prop where
  | value {i : Int} {t : Ty} (h : σ.get? i = some t) : Calls σ (.var i) t
  | param {ps : List Ty} {r p : Ty} (h : p ∈ ps) : Calls σ (.fn ps r) p
  | result {ps : List Ty} {r : Ty} : Calls σ (.fn ps r) r

/-- A variable of the type leads to a key that a chain of replacements leads back to. -/
def ReachesCycle (σ : Subst) (t : Ty) : Prop :=
  ∃ i ∈ t.vars, ∃ k, ReflTransGen σ.Edge i k ∧ TransGen σ.Edge k k

variable {σ : Subst} {t u : Ty}

/-! ## Cycles -/

/-- The way to a cycle has a first step, even from a variable on the cycle. -/
theorem exists_edge_of_cycle {i k : Int} (hik : ReflTransGen σ.Edge i k)
    (hk : TransGen σ.Edge k k) :
    ∃ j, σ.Edge i j ∧ ReflTransGen σ.Edge j k := by
  rcases ReflTransGen.cases_head_iff.1 hik with rfl | hstep
  · -- The variable is on the cycle itself, and goes once round.
    exact TransGen.head'_iff.1 hk
  · exact hstep

/-- What reaches a cycle asks for something that reaches one. -/
theorem ReachesCycle.exists_calls (h : σ.ReachesCycle t) : ∃ u, σ.Calls t u ∧ σ.ReachesCycle u := by
  obtain ⟨i, hi, k, hik, hk⟩ := h
  cases t with
  | unknown => simp at hi
  | var j =>
      obtain rfl : i = j := by simpa using hi
      obtain ⟨m, ⟨v, hv, hm, _⟩, hmk⟩ := exists_edge_of_cycle hik hk
      exact ⟨v, .value hv, m, hm, k, hmk, hk⟩
  | const c => simp at hi
  | fn ps r =>
      rcases Ty.mem_vars_fn.1 hi with ⟨p, hp, hip⟩ | hir
      · exact ⟨p, .param hp, i, hip, k, hik, hk⟩
      · exact ⟨r, .result, i, hir, k, hik, hk⟩

/-- Where the recursion ends, no cycle is within reach. -/
theorem not_reachesCycle_of_acc (h : Acc (fun u t => σ.Calls t u) t) : ¬ σ.ReachesCycle t := by
  induction h with
  | intro t _ ih =>
      intro hcycle
      obtain ⟨u, hcall, hu⟩ := hcycle.exists_calls
      exact ih u hcall hu

/-! ## The recursion -/

/-- Where the application has a result, its recursion ends. -/
theorem Applies.acc (h : σ.Applies t u) : Acc (fun u t => σ.Calls t u) t := by
  induction h with
  | unknown => exact ⟨_, fun _ hcall => by cases hcall⟩
  | const c => exact ⟨_, fun _ hcall => by cases hcall⟩
  | unmapped hi =>
      refine ⟨_, fun v hcall => ?_⟩
      cases hcall with
      | value hv => simp [hi] at hv
  | mapped hi _ ih =>
      refine ⟨_, fun v hcall => ?_⟩
      cases hcall with
      | value hv =>
          cases hi.symm.trans hv
          exact ih
  | fn _ _ ihps ihr =>
      refine ⟨_, fun v hcall => ?_⟩
      cases hcall with
      | param hp => exact ihps _ hp
      | result => exact ihr

/-- The application has at most one result. -/
theorem Applies.unique {u' : Ty} (h : σ.Applies t u) (h' : σ.Applies t u') : u = u' := by
  induction h generalizing u' with
  | unknown =>
      cases h'
      rfl
  | const c =>
      cases h'
      rfl
  | unmapped hi =>
      cases h' with
      | unmapped _ => rfl
      | mapped hi' _ => simp [hi] at hi'
  | mapped hi _ ih =>
      cases h' with
      | unmapped hi' => simp [hi] at hi'
      | mapped hi' ht =>
          cases hi.symm.trans hi'
          exact ih ht
  | fn _ _ ihps ihr =>
      cases h' with
      | fn hps hr => rw [List.map_congr_left fun p hp => ihps p hp (hps p hp), ihr hr]

/-- A graft of what the recursion makes of the variables is what it makes of the type. -/
theorem applies_bind {g : Int → Ty} (h : ∀ i ∈ t.vars, σ.Applies (.var i) (g i)) :
    σ.Applies t (t.bind g) := by
  induction t with
  | unknown => exact .unknown
  | var i => exact h i (by simp)
  | const c => exact .const c
  | fn ps r ihp ihr =>
      rw [Ty.bind_fn]
      refine .fn ?_ (ihr fun i hi => h i (Ty.mem_vars_fn.2 (Or.inr hi)))
      intro p hp
      exact ihp p hp fun i hi => h i (Ty.mem_vars_fn.2 (Or.inl ⟨p, hp, hi⟩))

/-- A graft of results of the application is a result of it. -/
theorem applies_of_bind? {f : Int → Option Ty} (hf : ∀ {i w}, f i = some w → σ.Applies (.var i) w)
    (h : t.bind? f = some u) : σ.Applies t u := by
  rw [← Ty.bind?_eq_bind_orElse h .unknown]
  apply applies_bind
  intro i hi
  have hsome : (t.bind? f).isSome := by simp [h]
  obtain ⟨w, hw⟩ := Option.isSome_iff_exists.1 (Ty.isSome_of_bind? hsome i hi)
  simpa [Ty.orElse, hw] using hf hw

theorem applies_of_expand {n : Nat} {i : Int} (h : σ.expand n i = some u) :
    σ.Applies (.var i) u := by
  induction n generalizing i u with
  | zero =>
      cases hi : σ.get? i with
      | none =>
          obtain rfl : Ty.var i = u := by simpa [expand, hi] using h
          exact .unmapped hi
      | some v => simp [expand, hi] at h
  | succ n ih =>
      cases hi : σ.get? i with
      | none =>
          obtain rfl : Ty.var i = u := by simpa [expand, hi] using h
          exact .unmapped hi
      | some v =>
          have hv : v.bind? (σ.expand n) = some u := by simpa [expand, hi] using h
          exact .mapped hi (applies_of_bind? ih hv)

/-- What applying a substitution returns is a result of the recursion. -/
theorem applies_of_resolve? (h : σ.resolve? t = some u) : σ.Applies t u :=
  applies_of_bind? applies_of_expand h

/-- Where no cycle is reached, the budget of one replacement per entry is enough. -/
theorem exists_resolve?_of_not_reachesCycle (h : ¬ σ.ReachesCycle t) :
    ∃ u, σ.resolve? t = some u := by
  refine ⟨t.bind (Ty.orElse (σ.expand σ.size) .unknown), Ty.bind?_eq_some_bind ?_⟩
  intro i hi
  have hcycle : ∀ k, ReflTransGen σ.Edge i k → ¬ TransGen σ.Edge k k :=
    fun k hik hk => h ⟨i, hi, k, hik, hk⟩
  obtain ⟨w, hw⟩ := Option.isSome_iff_exists.1
    (@isSome_expand σ σ.size i [] hcycle .nil (by simp) (by simp))
  simp [Ty.orElse, hw]

/-! ## Depth -/

/-- A mapped variable needs one level more than its value. -/
theorem fits_var_iff {n : Nat} {i : Int} {v : Ty} (hi : σ.get? i = some v) :
    σ.fits n (.var i) ↔ ∃ m, n = m + 1 ∧ σ.fits m v := by
  cases n with
  | zero => simp [fits]
  | succ n => simp [fits, hi]

/-- A function type needs two levels more than its parameters and one more than its result. -/
theorem fits_fn_iff {n : Nat} {ps : List Ty} {r : Ty} :
    σ.fits n (.fn ps r) ↔ ∃ m, n = m + 2 ∧ (∀ p ∈ ps, σ.fits m p) ∧ σ.fits (m + 1) r := by
  cases n with
  | zero => simp [fits]
  | succ n =>
      cases n with
      | zero => simp [fits]
      | succ n => simp [fits]

/-- A call needs fewer levels than the application that makes it. -/
theorem fits_of_calls {n : Nat} (h : σ.fits n t) (hcall : σ.Calls t u) : ∃ m < n, σ.fits m u := by
  cases hcall with
  | value hi =>
      obtain ⟨m, rfl, hm⟩ := (fits_var_iff hi).1 h
      exact ⟨m, by omega, hm⟩
  | param hp =>
      obtain ⟨m, rfl, hps, _⟩ := fits_fn_iff.1 h
      exact ⟨m, by omega, hps _ hp⟩
  | result =>
      obtain ⟨m, rfl, _, hr⟩ := fits_fn_iff.1 h
      exact ⟨m + 1, by omega, hr⟩

/-- Within finitely many levels the recursion ends. -/
theorem acc_of_fits {n : Nat} (h : σ.fits n t) : Acc (fun u t => σ.Calls t u) t := by
  induction n using Nat.strongRecOn generalizing t with
  | ind n ih =>
      refine ⟨_, fun u hcall => ?_⟩
      obtain ⟨m, hm, hu⟩ := fits_of_calls h hcall
      exact ih m hm hu

theorem fits_succ {n : Nat} (h : σ.fits n t) : σ.fits (n + 1) t := by
  induction n using Nat.strongRecOn generalizing t with
  | ind n ih =>
      cases t with
      | unknown => rfl
      | var i =>
          cases hi : σ.get? i with
          | none => simp [fits, hi]
          | some v =>
              obtain ⟨m, rfl, hm⟩ := (fits_var_iff hi).1 h
              exact (fits_var_iff hi).2 ⟨m + 1, rfl, ih m (by omega) hm⟩
      | const c => rfl
      | fn ps r =>
          obtain ⟨m, rfl, hps, hr⟩ := fits_fn_iff.1 h
          refine fits_fn_iff.2 ⟨m + 1, rfl, fun p hp => ih m (by omega) (hps p hp), ?_⟩
          exact ih (m + 1) (by omega) hr

/-- More levels never hurt. -/
theorem fits_of_le {m n : Nat} (hmn : m ≤ n) (h : σ.fits m t) : σ.fits n t := by
  induction hmn with
  | refl => exact h
  | step _ ih => exact fits_succ ih

/-- Finitely many types fit into levels that are enough for all of them. -/
theorem exists_fits_all {ts : List Ty} (h : ∀ t ∈ ts, ∃ n, σ.fits n t) :
    ∃ n, ∀ t ∈ ts, σ.fits n t := by
  induction ts with
  | nil => exact ⟨0, by simp⟩
  | cons t ts ih =>
      obtain ⟨m, hm⟩ := h t (by simp)
      obtain ⟨n, hn⟩ := ih fun u hu => h u (by simp [hu])
      refine ⟨max m n, List.forall_mem_cons.2 ⟨fits_of_le (Nat.le_max_left m n) hm, ?_⟩⟩
      exact fun u hu => fits_of_le (Nat.le_max_right m n) (hn u hu)

/-- A recursion that ends fits into finitely many levels. -/
theorem exists_fits_of_acc (h : Acc (fun u t => σ.Calls t u) t) : ∃ n, σ.fits n t := by
  induction h with
  | intro t _ ih =>
      cases t with
      | unknown => exact ⟨1, rfl⟩
      | var i =>
          cases hi : σ.get? i with
          | none => exact ⟨1, by simp [fits, hi]⟩
          | some v =>
              obtain ⟨n, hn⟩ := ih v (.value hi)
              exact ⟨n + 1, (fits_var_iff hi).2 ⟨n, rfl, hn⟩⟩
      | const c => exact ⟨1, rfl⟩
      | fn ps r =>
          obtain ⟨m, hm⟩ := exists_fits_all fun p hp => ih p (.param hp)
          obtain ⟨n, hn⟩ := ih r .result
          have hps : ∀ p ∈ ps, σ.fits (max m n) p :=
            fun p hp => fits_of_le (Nat.le_max_left m n) (hm p hp)
          have hr : σ.fits (max m n + 1) r := fits_succ (fits_of_le (Nat.le_max_right m n) hn)
          exact ⟨max m n + 2, fits_fn_iff.2 ⟨max m n, rfl, hps, hr⟩⟩

/-! ## Main statement -/

/-- Application ends exactly at the types from which no cycle is reached, with the result of the
plain recursion.  From the others the calls go on for ever, and no depth is enough.  What
application returns holds no key, so a second application returns it as it is. -/
theorem resolve?_ends_iff_not_reachesCycle (σ : Subst) (t : Ty) :
    ((∃ u, σ.resolve? t = some u) ↔ ¬ σ.ReachesCycle t) ∧
    (∀ u, σ.resolve? t = some u ↔ σ.Applies t u) ∧
    (σ.ReachesCycle t ↔ ∃ call : Nat → Ty, call 0 = t ∧ ∀ n, σ.Calls (call n) (call (n + 1))) ∧
    (σ.ReachesCycle t ↔ ∀ n, ¬ σ.fits n t) ∧
    ∀ u, σ.resolve? t = some u → (∀ i ∈ σ.keys, i ∉ u.vars) ∧ σ.resolve? u = some u := by
  have hends : (∃ u, σ.resolve? t = some u) ↔ ¬ σ.ReachesCycle t := by
    refine ⟨?_, exists_resolve?_of_not_reachesCycle⟩
    rintro ⟨u, hu⟩
    exact not_reachesCycle_of_acc (applies_of_resolve? hu).acc
  -- The calls end exactly if the type is accessible, which ties all the rest together.
  have hacc : Acc (fun u t => σ.Calls t u) t ↔ ¬ σ.ReachesCycle t := by
    refine ⟨not_reachesCycle_of_acc, fun h => ?_⟩
    obtain ⟨u, hu⟩ := hends.2 h
    exact (applies_of_resolve? hu).acc
  refine ⟨hends, fun u => ⟨applies_of_resolve?, ?_⟩, ?_, ?_, ?_⟩
  · intro h
    obtain ⟨u', hu'⟩ := hends.2 (not_reachesCycle_of_acc h.acc)
    rw [hu', h.unique (applies_of_resolve? hu')]
  · have hchain := @not_acc_iff_exists_descending_chain Ty (fun u t => σ.Calls t u) t
    rwa [hacc, not_not] at hchain
  · constructor
    · intro hcycle n hn
      exact not_reachesCycle_of_acc (acc_of_fits hn) hcycle
    · intro hfits
      by_contra hcycle
      obtain ⟨n, hn⟩ := exists_fits_of_acc (hacc.2 hcycle)
      exact hfits n hn
  · intro u hu
    have hunmapped : ∀ i ∈ u.vars, σ.get? i = none := fun i => get?_of_mem_vars_resolve? hu
    refine ⟨fun i hi hiu => ?_, resolve?_eq_self hunmapped⟩
    simp [OrderedMap.mem_keys_iff, hunmapped i hiu] at hi

/-- `t0 := (t1) -> Int, t1 := t2, t2 := (t1) -> Bool, t3 := t4, t4 := Int`: two of the keys stand on
a cycle, and one leads to it. -/
def partlyCyclic : Subst :=
  ⟨[(0, .fn [.var 1] .int), (1, .var 2), (2, .fn [.var 1] .bool), (3, .var 4), (4, .int)],
    by decide⟩

/-- Application ends at `(t3) -> t5`, which keeps away from the cycle, and not at `(t3) -> t0`. -/
theorem resolve?_of_partlyCyclic :
    partlyCyclic.resolve? (.fn [.var 3] (.var 5)) = some (.fn [.int] (.var 5)) ∧
      ¬ partlyCyclic.ReachesCycle (.fn [.var 3] (.var 5)) ∧
      partlyCyclic.resolve? (.fn [.int] (.var 5)) = some (.fn [.int] (.var 5)) ∧
      partlyCyclic.ReachesCycle (.fn [.var 3] (.var 0)) ∧
      ∀ n, ¬ partlyCyclic.fits n (.fn [.var 3] (.var 0)) := by
  have hends : partlyCyclic.resolve? (.fn [.var 3] (.var 5)) = some (.fn [.int] (.var 5)) := by
    decide
  have hnone : partlyCyclic.resolve? (.fn [.var 3] (.var 0)) = none := by decide
  have hwell := resolve?_ends_iff_not_reachesCycle partlyCyclic (.fn [.var 3] (.var 5))
  have hill := resolve?_ends_iff_not_reachesCycle partlyCyclic (.fn [.var 3] (.var 0))
  have hcycle : partlyCyclic.ReachesCycle (.fn [.var 3] (.var 0)) := by
    by_contra hcycle
    obtain ⟨u, hu⟩ := hill.1.2 hcycle
    simp [hnone] at hu
  exact ⟨hends, hwell.1.1 ⟨_, hends⟩, (hwell.2.2.2.2 _ hends).2, hcycle, hill.2.2.2.1.1 hcycle⟩

end Subst

end Monotype
