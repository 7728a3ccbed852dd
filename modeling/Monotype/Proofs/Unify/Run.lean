import Monotype.Proofs.Subst.Acyclic
import Monotype.Proofs.Unify.Closure

/-!
# Runs of the unifier

`Unify.Run` lists everything that a run can do, one constructor per outcome of a step, and `unify`
is exactly that relation read as a function (`run_unify`, `Run.outcome_eq`).  What follows is proved
by induction on runs.

* A run that ends well loses nothing and adds nothing: a unifying relation holds the bindings of the
  answer exactly when it holds those of the start and the pending equations (`Run.holds_iff`).
* A run that ends in a conflict has found a genuine one, for every unifying relation that holds the
  bindings of the start and the pending equations (`Run.genuine`).
* What every binding of an unmapped variable to a type of unmapped variables keeps, a run keeps
  (`Run.keeps`); so runs keep substitutions acyclic and resolved.
* Without a limit, a run from an acyclic substitution ends in one of the first two ways
  (`Run.ne_endless`).
-/

namespace Monotype

namespace Subst

/-- The relation holds between every mapped variable and its value. -/
def Holds (R : Ty → Ty → Prop) (σ : Subst) : Prop := ∀ i t, σ.get? i = some t → R (.var i) t

/-- `unknown` occurs in no value. -/
def Known (σ : Subst) : Prop := ∀ i t, σ.get? i = some t → t.Known

theorem holds_empty (R : Ty → Ty → Prop) : Holds R .empty := by
  intro i t h
  simp at h

theorem known_empty : Known .empty := by
  intro i t h
  simp at h

/-- Applying a known substitution to a known type gives a known type. -/
theorem Known.bind_assign {σ : Subst} (hσ : σ.Known) {t : Ty} (ht : t.Known) :
    (t.bind σ.assign).Known := by
  apply ht.bind
  intro i _
  cases hi : σ.get? i with
  | none => simpa [assign_of_unmapped hi] using Ty.Known.var i
  | some u => simpa [assign_of_get? hi] using hσ i u hi

/-- Binding a variable to a known type keeps a substitution known. -/
theorem Known.extend? {σ σ' : Subst} (hσ : σ.Known) {i : Int} {t : Ty} (hi : i ∉ t.vars)
    (ht : t.Known) (h : σ.extend? i t = some σ') : σ'.Known := by
  intro j u hj
  by_cases hji : j = i
  · have htu : t = u := by simpa [get?_extend? hi h, hji] using hj
    exact htu ▸ ht
  · obtain ⟨v, hv, rfl⟩ : ∃ v, σ.get? j = some v ∧ Ty.replace i t v = u := by
      simpa [get?_extend? hi h, hji] using hj
    apply (hσ j v hv).bind
    intro k _
    by_cases hki : k = i
    · simpa [hki] using ht
    · simpa [hki] using Ty.Known.var k

/-- A relation that links the keys to their values links them to all that replacements make of
them. -/
theorem Holds.expand {R : Ty → Ty → Prop} (hR : Ty.Unifying R) {σ : Subst} (hσ : σ.Holds R)
    {n : Nat} {i : Int} {u : Ty} (h : σ.expand n i = some u) : R (.var i) u := by
  have hunmapped : Ty.var i = u → R (.var i) u := fun hiu => hiu ▸ hR.refl _
  induction n generalizing i u with
  | zero =>
      cases hi : σ.get? i with
      | none => exact hunmapped (by simpa [Subst.expand, hi] using h)
      | some t => simp [Subst.expand, hi] at h
  | succ n ih =>
      cases hi : σ.get? i with
      | none => exact hunmapped (by simpa [Subst.expand, hi] using h)
      | some t =>
          have ht : t.bind? (σ.expand n) = some u := by simpa [Subst.expand, hi] using h
          have htu : R t u := hR.bind? (fun j w hw => ih hw fun hjw => hjw ▸ hR.refl _) ht
          exact hR.trans (hσ i t hi) htu

/-- A relation that holds the bindings holds between a type and what it resolves to. -/
theorem Holds.resolve? {R : Ty → Ty → Prop} (hR : Ty.Unifying R) {σ : Subst} (hσ : σ.Holds R)
    {t u : Ty} (h : σ.resolve? t = some u) : R t u :=
  hR.bind? (fun _ _ => hσ.expand hR) h

/-- The new binding has to be in the relation, too, and nothing else is asked. -/
theorem holds_extend?_iff {R : Ty → Ty → Prop} (hR : Ty.Unifying R) {σ σ' : Subst} {i : Int}
    {t : Ty} (hi : i ∉ t.vars) (hnone : σ.get? i = none) (h : σ.extend? i t = some σ') :
    σ'.Holds R ↔ σ.Holds R ∧ R (.var i) t := by
  constructor
  · intro hσ'
    have hit : R (.var i) t := hσ' i t (by simp [get?_extend? hi h])
    refine ⟨?_, hit⟩
    intro j u hj
    have hji : j ≠ i := by
      rintro rfl
      simp [hnone] at hj
    have hreplaced : R (.var j) (Ty.replace i t u) :=
      hσ' j _ (by simp [get?_extend? hi h, hji, hj])
    exact hR.trans hreplaced (hR.symm (hR.replace hit u))
  · rintro ⟨hσ, hit⟩ j u hj
    by_cases hji : j = i
    · have htu : t = u := by simpa [get?_extend? hi h, hji] using hj
      simpa [hji, htu] using hit
    · obtain ⟨v, hv, rfl⟩ : ∃ v, σ.get? j = some v ∧ Ty.replace i t v = u := by
        simpa [get?_extend? hi h, hji] using hj
      exact hR.trans (hσ j v hv) (hR.replace hit v)

end Subst

namespace Unify

/-! ## The moves -/

theorem eq_of_eliminate_skip {i : Int} {t : Ty} (h : eliminate i t = .skip) : t = .var i := by
  by_cases h₁ : t = .var i
  · exact h₁
  · by_cases h₂ : t.occurs i = true <;> simp [eliminate, h₁, h₂] at h

/-- A variable clashes with a type exactly because it occurs inside it. -/
theorem of_eliminate_clash {i : Int} {t : Ty} {c : Conflict} (h : eliminate i t = .clash c) :
    c = .infinite i t ∧ t ≠ .var i ∧ i ∈ t.vars := by
  by_cases h₁ : t = .var i
  · simp [eliminate, h₁] at h
  · by_cases h₂ : t.occurs i = true
    · have hc : Conflict.infinite i t = c := by simpa [eliminate, h₁, h₂] using h
      exact ⟨hc.symm, h₁, Ty.occurs_iff.1 h₂⟩
    · simp [eliminate, h₁, h₂] at h

theorem eq_of_move_skip {a b : Ty} (h : move a b = .skip) : a = b := by
  unfold move at h
  split at h
  · exact (eq_of_eliminate_skip h).symm
  · exact eq_of_eliminate_skip h
  · split at h
    · simp_all
    · cases h
  · split at h <;> cases h
  · cases h

section Relations

variable {R : Ty → Ty → Prop}

/-- Binding a variable is as good as the equation. -/
theorem rel_iff_of_move_bind (hR : Ty.Unifying R) {a b : Ty} {i : Int} {t : Ty}
    (h : move a b = .bind i t) : R a b ↔ R (.var i) t := by
  rcases (of_move_bind h).2 with ⟨rfl, rfl⟩ | ⟨rfl, rfl⟩
  · exact Iff.rfl
  · exact ⟨hR.symm, hR.symm⟩

/-- Splitting an equation is as good as the equation. -/
theorem rel_iff_of_move_split (hR : Ty.Unifying R) {a b : Ty} {parts : List (Ty × Ty)}
    (h : move a b = .split parts) : R a b ↔ ∀ e ∈ parts, R e.1 e.2 := by
  obtain ⟨ps, r, qs, s, rfl, rfl, hlen, rfl⟩ := of_move_split h
  constructor
  · intro hab e he
    rcases List.mem_append.1 he with he | he
    · exact hR.param hab hlen e.1 e.2 he
    · have hrs : e = (r, s) := by simpa using he
      simpa [hrs] using hR.result hab hlen
  · intro hparts
    refine hR.form hlen ?_ (hparts (r, s) (by simp))
    intro p q hpq
    exact hparts (p, q) (List.mem_append_left _ hpq)

/-- A clash between known types shows in every relation that holds the equation. -/
theorem genuine_of_move_clash (hR : Ty.Unifying R) {a b : Ty} (ha : a.Known) (hb : b.Known)
    {c : Conflict} (h : move a b = .clash c) (hab : R a b) : c.Genuine R := by
  unfold move at h
  split at h
  · obtain ⟨rfl, hne, hocc⟩ := of_eliminate_clash h
    exact ⟨hab, hne, hocc⟩
  · obtain ⟨rfl, hne, hocc⟩ := of_eliminate_clash h
    exact ⟨hR.symm hab, hne, hocc⟩
  · split at h
    · cases h
    · rename_i d e hde
      cases h
      exact ⟨hab, hde⟩
  · split at h
    · cases h
    · rename_i ps r qs s hlen
      cases h
      exact ⟨hlen, ps, r, qs, s, hab, rfl, rfl⟩
  · -- What is left are two types with different heads, and neither is a variable.
    rename_i hvar₁ hvar₂ hconst hfn
    cases h
    refine ⟨hab, ?_⟩
    cases ha with
    | var i => exact absurd rfl (hvar₁ i)
    | const d =>
        cases hb with
        | var j => exact absurd rfl (hvar₂ j)
        | const e => exact absurd rfl (hconst d e rfl)
        | fn _ _ => trivial
    | fn _ _ =>
        cases hb with
        | var j => exact absurd rfl (hvar₂ j)
        | const e => trivial
        | fn _ _ => exact absurd rfl (hfn _ _ _ _ rfl)

end Relations

namespace Attempt

variable {α : Type}

@[simp] theorem outcome_tick (r : Attempt α) : r.tick.outcome = r.outcome := rfl

@[simp] theorem outcome_record (i : Int) (t : Ty) (r : Attempt α) :
    (r.record i t).outcome = r.outcome := rfl

end Attempt

/-! ## Runs -/

/-- What a run from a substitution over pending equations does, step by step. -/
inductive Run (limit : Option Nat) : Subst → List (Ty × Ty) → Except Obstacle Subst → Prop where
  | done (σ : Subst) : Run limit σ [] (.ok σ)
  | skip {σ : Subst} {a b a' b' : Ty} {work : List (Ty × Ty)} {r : Except Obstacle Subst}
      (ha : σ.resolveWithin? limit a = some a') (hb : σ.resolveWithin? limit b = some b')
      (hm : move a' b' = .skip) (rest : Run limit σ work r) : Run limit σ ((a, b) :: work) r
  | split {σ : Subst} {a b a' b' : Ty} {parts work : List (Ty × Ty)} {r : Except Obstacle Subst}
      (ha : σ.resolveWithin? limit a = some a') (hb : σ.resolveWithin? limit b = some b')
      (hm : move a' b' = .split parts) (rest : Run limit σ (parts ++ work) r) :
      Run limit σ ((a, b) :: work) r
  | bind {σ σ' : Subst} {a b a' b' t : Ty} {i : Int} {work : List (Ty × Ty)}
      {r : Except Obstacle Subst} (ha : σ.resolveWithin? limit a = some a')
      (hb : σ.resolveWithin? limit b = some b') (hm : move a' b' = .bind i t)
      (he : σ.extendWithin? limit i t = some σ') (rest : Run limit σ' work r) :
      Run limit σ ((a, b) :: work) r
  | clash {σ : Subst} {a b a' b' : Ty} {c : Conflict} {work : List (Ty × Ty)}
      (ha : σ.resolveWithin? limit a = some a') (hb : σ.resolveWithin? limit b = some b')
      (hm : move a' b' = .clash c) : Run limit σ ((a, b) :: work) (.error (.conflict c))
  | unresolved {σ : Subst} {a b : Ty} {work : List (Ty × Ty)}
      (h : σ.resolveWithin? limit a = none ∨ σ.resolveWithin? limit b = none) :
      Run limit σ ((a, b) :: work) (.error .endless)
  | unextended {σ : Subst} {a b a' b' t : Ty} {i : Int} {work : List (Ty × Ty)}
      (ha : σ.resolveWithin? limit a = some a') (hb : σ.resolveWithin? limit b = some b')
      (hm : move a' b' = .bind i t) (he : σ.extendWithin? limit i t = none) :
      Run limit σ ((a, b) :: work) (.error .endless)

/-- The unifier runs as the relation tells. -/
theorem run_unify (limit : Option Nat) (σ : Subst) (work : List (Ty × Ty)) :
    Run limit σ work (unify limit σ work).outcome := by
  fun_induction unify limit σ work with
  | case1 σ => exact Run.done σ
  | case2 σ a b work a' b' ha hb hm ih => exact Run.skip ha hb hm ih
  | case3 σ a b work a' b' ha hb parts hm ih => exact Run.split ha hb hm ih
  | case4 σ a b work a' b' ha hb c hm => exact Run.clash ha hb hm
  | case5 σ a b work a' b' ha hb i t hm σ' he ih => exact Run.bind ha hb hm he ih
  | case6 σ a b work a' b' ha hb i t hm he => exact Run.unextended ha hb hm he
  | case7 σ a b work h =>
      apply Run.unresolved
      cases ha : σ.resolveWithin? limit a with
      | none => exact Or.inl rfl
      | some a' =>
          cases hb : σ.resolveWithin? limit b with
          | none => exact Or.inr rfl
          | some b' => exact (h a' b' ha hb).elim

/-- The step that `unify` makes on its first equation. -/
theorem unify_cons (limit : Option Nat) (σ : Subst) (a b : Ty) (work : List (Ty × Ty)) :
    unify limit σ ((a, b) :: work) =
      match σ.resolveWithin? limit a, σ.resolveWithin? limit b with
      | some a', some b' =>
          match move a' b' with
          | .skip => (unify limit σ work).tick
          | .split parts => (unify limit σ (parts ++ work)).tick
          | .clash c => ⟨.error (.conflict c), 1, []⟩
          | .bind i t =>
              match σ.extendWithin? limit i t with
              | some σ' => ((unify limit σ' work).record i t).tick
              | none => ⟨.error .endless, 1, [(i, t)]⟩
      | _, _ => ⟨.error .endless, 1, []⟩ := by
  -- The unifier tests its results together with proofs of them, for the sake of its termination.
  rw [unify]
  split
  · rename_i a' b' ha hb
    simp only [ha, hb]
    split
    · rename_i hm
      simp only [hm]
    · rename_i hm
      simp only [hm]
    · rename_i hm
      simp only [hm]
    · rename_i i t hm
      simp only [hm]
      split
      · rename_i he
        simp only [he]
      · rename_i he
        simp only [he]
  · rename_i h
    cases ha : σ.resolveWithin? limit a with
    | none => rfl
    | some a' =>
        cases hb : σ.resolveWithin? limit b with
        | none => rfl
        | some b' => exact (h a' b' ha hb).elim

namespace Run

/-- A run has one outcome, that of the unifier. -/
theorem outcome_eq {limit : Option Nat} {σ : Subst} {work : List (Ty × Ty)}
    {r : Except Obstacle Subst} (h : Run limit σ work r) : (unify limit σ work).outcome = r := by
  induction h with
  | done σ => simp [unify]
  | skip ha hb hm _ ih => simpa [unify_cons, ha, hb, hm] using ih
  | split ha hb hm _ ih => simpa [unify_cons, ha, hb, hm] using ih
  | bind ha hb hm he _ ih => simpa [unify_cons, ha, hb, hm, he] using ih
  | clash ha hb hm => simp [unify_cons, ha, hb, hm]
  | unresolved h => rcases h with h | h <;> simp [unify_cons, h]
  | unextended ha hb hm he => simp [unify_cons, ha, hb, hm, he]

/-- A run that ends within a limit ends the same way without one. -/
theorem unlimited {limit : Option Nat} {σ : Subst} {work : List (Ty × Ty)}
    {r : Except Obstacle Subst} (h : Run limit σ work r) (hr : r ≠ .error .endless) :
    Run none σ work r := by
  have hresolve : ∀ {σ : Subst} {t u : Ty}, σ.resolveWithin? limit t = some u →
      σ.resolveWithin? none t = some u := by
    intro σ t u htu
    simpa using Subst.resolve?_of_resolveWithin? htu
  induction h with
  | done σ => exact Run.done σ
  | skip ha hb hm _ ih => exact Run.skip (hresolve ha) (hresolve hb) hm (ih hr)
  | split ha hb hm _ ih => exact Run.split (hresolve ha) (hresolve hb) hm (ih hr)
  | bind ha hb hm he _ ih =>
      refine Run.bind (hresolve ha) (hresolve hb) hm ?_ (ih hr)
      simpa using Subst.extend?_of_extendWithin? he
  | clash ha hb hm => exact Run.clash (hresolve ha) (hresolve hb) hm
  | unresolved _ => exact absurd rfl hr
  | unextended _ _ _ _ => exact absurd rfl hr

end Run

/-! ## What a run keeps -/

/-- Within a limit or not, a flat substitution is applied by one graft. -/
theorem eq_bind_assign {limit : Option Nat} {σ : Subst} (hσ : σ.Resolved) {t u : Ty}
    (h : σ.resolveWithin? limit t = some u) : u = t.bind σ.assign := by
  have heq : some (t.bind σ.assign) = some u := by
    simpa [hσ.resolve?_eq] using Subst.resolve?_of_resolveWithin? h
  exact (Option.some.inj heq).symm

/-- A binding is made for an unmapped variable, and its type mentions unmapped variables only. -/
theorem unmapped_of_move_bind {limit : Option Nat} {σ : Subst} {a b a' b' t : Ty} {i : Int}
    (ha : σ.resolveWithin? limit a = some a') (hb : σ.resolveWithin? limit b = some b')
    (hm : move a' b' = .bind i t) : σ.get? i = none ∧ ∀ j ∈ t.vars, σ.get? j = none := by
  have hleft : ∀ j ∈ a'.vars, σ.get? j = none := fun j hj =>
    Subst.get?_of_mem_vars_resolve? (Subst.resolve?_of_resolveWithin? ha) hj
  have hright : ∀ j ∈ b'.vars, σ.get? j = none := fun j hj =>
    Subst.get?_of_mem_vars_resolve? (Subst.resolve?_of_resolveWithin? hb) hj
  rcases (of_move_bind hm).2 with ⟨rfl, rfl⟩ | ⟨rfl, rfl⟩
  · exact ⟨hleft i (by simp), hright⟩
  · exact ⟨hright i (by simp), hleft⟩

/-- Every binding of an unmapped variable to a type of unmapped variables keeps the property. -/
def KeptByBinding (P : Subst → Prop) : Prop :=
  ∀ {σ σ' : Subst} {i : Int} {t : Ty}, P σ → i ∉ t.vars → σ.get? i = none →
    (∀ j ∈ t.vars, σ.get? j = none) → σ.extend? i t = some σ' → P σ'

theorem keptByBinding_resolved : KeptByBinding Subst.Resolved :=
  fun hσ hi _ ht h => hσ.extend? hi ht h

theorem keptByBinding_acyclic : KeptByBinding Subst.Acyclic :=
  fun hσ hi _ ht h => hσ.extend? hi ht h

/-- The bindings that a move makes are among those that keep the property. -/
theorem KeptByBinding.move_bind {P : Subst → Prop} (hP : KeptByBinding P) {limit : Option Nat}
    {σ σ' : Subst} (hσ : P σ) {a b a' b' t : Ty} {i : Int}
    (ha : σ.resolveWithin? limit a = some a') (hb : σ.resolveWithin? limit b = some b')
    (hm : move a' b' = .bind i t) (he : σ.extendWithin? limit i t = some σ') : P σ' := by
  obtain ⟨hi, ht⟩ := unmapped_of_move_bind ha hb hm
  exact hP hσ (of_move_bind hm).1 hi ht (Subst.extend?_of_extendWithin? he)

namespace Run

variable {limit : Option Nat} {σ σ' : Subst} {work : List (Ty × Ty)} {r : Except Obstacle Subst}

/-- What every binding keeps, a whole run keeps. -/
theorem keeps {P : Subst → Prop} (h : Run limit σ work r) (hP : KeptByBinding P) (hσ : P σ)
    (hr : r = .ok σ') : P σ' := by
  induction h with
  | done σ =>
      cases hr
      exact hσ
  | skip _ _ _ _ ih => exact ih hσ hr
  | split _ _ _ _ ih => exact ih hσ hr
  | bind ha hb hm he _ ih => exact ih (hP.move_bind hσ ha hb hm he) hr
  | clash _ _ _ => cases hr
  | unresolved _ => cases hr
  | unextended _ _ _ _ => cases hr

theorem resolved (h : Run limit σ work r) (hσ : σ.Resolved) (hr : r = .ok σ') : σ'.Resolved :=
  h.keeps keptByBinding_resolved hσ hr

theorem acyclic (h : Run limit σ work r) (hσ : σ.Acyclic) (hr : r = .ok σ') : σ'.Acyclic :=
  h.keeps keptByBinding_acyclic hσ hr

/-- Without a limit no application goes on for ever. -/
theorem ne_endless (h : Run none σ work r) (hσ : σ.Acyclic) : r ≠ .error .endless := by
  induction h with
  | done σ => simp
  | skip _ _ _ _ ih => exact ih hσ
  | split _ _ _ _ ih => exact ih hσ
  | bind ha hb hm he _ ih => exact ih (keptByBinding_acyclic.move_bind hσ ha hb hm he)
  | clash _ _ _ => simp
  | unresolved h => simp [hσ.resolve?_eq] at h
  | @unextended σ _ _ _ _ _ _ _ _ _ hm he =>
      obtain ⟨σ', hσ'⟩ := σ.exists_extend? (of_move_bind hm).1
      simp [hσ'] at he

section Relations

variable {R : Ty → Ty → Prop}

/-- Under a relation that holds the bindings, a type may be read through the substitution. -/
theorem rel_iff_of_resolveWithin? (hR : Ty.Unifying R) (hH : σ.Holds R) {a b a' b' : Ty}
    (ha : σ.resolveWithin? limit a = some a') (hb : σ.resolveWithin? limit b = some b') :
    R a b ↔ R a' b' := by
  have hleft : R a a' := hH.resolve? hR (Subst.resolve?_of_resolveWithin? ha)
  have hright : R b b' := hH.resolve? hR (Subst.resolve?_of_resolveWithin? hb)
  constructor
  · intro hab
    exact hR.trans (hR.symm hleft) (hR.trans hab hright)
  · intro hab
    exact hR.trans hleft (hR.trans hab (hR.symm hright))

/-- A relation holds for the answer exactly if it holds for the start and for all pending
equations. -/
theorem holds_iff (h : Run limit σ work r) (hR : Ty.Unifying R) (hr : r = .ok σ') :
    σ'.Holds R ↔ σ.Holds R ∧ ∀ e ∈ work, R e.1 e.2 := by
  -- Every step trades the first equation for parts or for a binding, which the same relations hold.
  induction h with
  | done σ =>
      cases hr
      simp
  | @skip σ a b a' b' work _ ha hb hm _ ih =>
      rw [ih hr, List.forall_mem_cons]
      refine and_congr_right fun hH => ?_
      have hab : R a b := by
        rw [rel_iff_of_resolveWithin? hR hH ha hb, eq_of_move_skip hm]
        exact hR.refl b'
      simp [hab]
  | @split σ a b a' b' parts work _ ha hb hm _ ih =>
      rw [ih hr, List.forall_mem_cons, List.forall_mem_append]
      refine and_congr_right fun hH => and_congr_left fun _ => ?_
      rw [rel_iff_of_resolveWithin? hR hH ha hb, rel_iff_of_move_split hR hm]
  | @bind σ σ₁ a b a' b' t i work _ ha hb hm he _ ih =>
      have hnone : σ.get? i = none := (unmapped_of_move_bind ha hb hm).1
      rw [ih hr,
        Subst.holds_extend?_iff hR (of_move_bind hm).1 hnone (Subst.extend?_of_extendWithin? he),
        List.forall_mem_cons, and_assoc]
      refine and_congr_right fun hH => and_congr_left fun _ => ?_
      rw [rel_iff_of_resolveWithin? hR hH ha hb, rel_iff_of_move_bind hR hm]
  | clash _ _ _ => cases hr
  | unresolved _ => cases hr
  | unextended _ _ _ _ => cases hr

end Relations

/-! ## Runs over types without `unknown` -/

section Known

/-- The parts of known types are known. -/
theorem known_of_move_split {a b : Ty} {parts : List (Ty × Ty)} (ha : a.Known) (hb : b.Known)
    (h : move a b = .split parts) : ∀ e ∈ parts, e.1.Known ∧ e.2.Known := by
  obtain ⟨ps, r, qs, s, rfl, rfl, _, rfl⟩ := of_move_split h
  cases ha with
  | fn hps hr =>
      cases hb with
      | fn hqs hs =>
          intro e he
          rcases List.mem_append.1 he with he | he
          · have hmem := List.of_mem_zip (a := e.1) (b := e.2) he
            exact ⟨hps _ hmem.1, hqs _ hmem.2⟩
          · have hrs : e = (r, s) := by simpa using he
            simpa [hrs] using And.intro hr hs

theorem known_of_move_bind {a b t : Ty} {i : Int} (ha : a.Known) (hb : b.Known)
    (h : move a b = .bind i t) : t.Known := by
  rcases (of_move_bind h).2 with ⟨_, rfl⟩ | ⟨_, rfl⟩
  · exact hb
  · exact ha

theorem known_of_resolveWithin? (hσ : σ.Resolved) (hK : σ.Known) {t u : Ty} (ht : t.Known)
    (h : σ.resolveWithin? limit t = some u) : u.Known :=
  eq_bind_assign hσ h ▸ hK.bind_assign ht

/-- A binding from known types keeps a substitution known. -/
theorem known_of_extendWithin? (hσ : σ.Resolved) (hK : σ.Known) {a b a' b' t : Ty} {i : Int}
    (hab : a.Known ∧ b.Known) (ha : σ.resolveWithin? limit a = some a')
    (hb : σ.resolveWithin? limit b = some b') (hm : move a' b' = .bind i t)
    (he : σ.extendWithin? limit i t = some σ') : σ'.Known := by
  have ht : t.Known := known_of_move_bind (known_of_resolveWithin? hσ hK hab.1 ha)
    (known_of_resolveWithin? hσ hK hab.2 hb) hm
  exact hK.extend? (of_move_bind hm).1 ht (Subst.extend?_of_extendWithin? he)

/-- A run over known equations keeps a substitution known. -/
theorem known (h : Run limit σ work r) (hσ : σ.Resolved) (hK : σ.Known)
    (hwork : ∀ e ∈ work, e.1.Known ∧ e.2.Known) (hr : r = .ok σ') : σ'.Known := by
  induction h with
  | done σ =>
      cases hr
      exact hK
  | skip _ _ _ _ ih => exact ih hσ hK (List.forall_mem_cons.1 hwork).2 hr
  | split ha hb hm _ ih =>
      rcases List.forall_mem_cons.1 hwork with ⟨hab, hrest⟩
      have hparts := known_of_move_split (known_of_resolveWithin? hσ hK hab.1 ha)
        (known_of_resolveWithin? hσ hK hab.2 hb) hm
      exact ih hσ hK (List.forall_mem_append.2 ⟨hparts, hrest⟩) hr
  | bind ha hb hm he _ ih =>
      rcases List.forall_mem_cons.1 hwork with ⟨hab, hrest⟩
      exact ih (keptByBinding_resolved.move_bind hσ ha hb hm he)
        (known_of_extendWithin? hσ hK hab ha hb hm he) hrest hr
  | clash _ _ _ => cases hr
  | unresolved _ => cases hr
  | unextended _ _ _ _ => cases hr

/-- A conflict of a run shows in every relation that holds the start and the pending equations. -/
theorem genuine {R : Ty → Ty → Prop} (h : Run limit σ work r) (hR : Ty.Unifying R)
    (hσ : σ.Resolved) (hK : σ.Known) (hwork : ∀ e ∈ work, e.1.Known ∧ e.2.Known)
    (hH : σ.Holds R) (hrel : ∀ e ∈ work, R e.1 e.2) {c : Conflict}
    (hr : r = .error (.conflict c)) : c.Genuine R := by
  -- The relation holds what is pending and what is bound at every step, and so at the clash.
  induction h with
  | done σ => cases hr
  | skip _ _ _ _ ih =>
      exact ih hσ hK (List.forall_mem_cons.1 hwork).2 hH (List.forall_mem_cons.1 hrel).2 hr
  | split ha hb hm _ ih =>
      rcases List.forall_mem_cons.1 hwork with ⟨hab, hrest⟩
      rcases List.forall_mem_cons.1 hrel with ⟨hRab, hRrest⟩
      have hparts := known_of_move_split (known_of_resolveWithin? hσ hK hab.1 ha)
        (known_of_resolveWithin? hσ hK hab.2 hb) hm
      have hRparts := (rel_iff_of_move_split hR hm).1
        ((rel_iff_of_resolveWithin? hR hH ha hb).1 hRab)
      exact ih hσ hK (List.forall_mem_append.2 ⟨hparts, hrest⟩) hH
        (List.forall_mem_append.2 ⟨hRparts, hRrest⟩) hr
  | bind ha hb hm he _ ih =>
      rcases List.forall_mem_cons.1 hwork with ⟨hab, hrest⟩
      rcases List.forall_mem_cons.1 hrel with ⟨hRab, hRrest⟩
      have hRit := (rel_iff_of_move_bind hR hm).1
        ((rel_iff_of_resolveWithin? hR hH ha hb).1 hRab)
      have hH' := (Subst.holds_extend?_iff hR (of_move_bind hm).1
        (unmapped_of_move_bind ha hb hm).1 (Subst.extend?_of_extendWithin? he)).2 ⟨hH, hRit⟩
      exact ih (keptByBinding_resolved.move_bind hσ ha hb hm he)
        (known_of_extendWithin? hσ hK hab ha hb hm he) hrest hH' hRrest hr
  | clash ha hb hm =>
      cases hr
      rcases List.forall_mem_cons.1 hwork with ⟨hab, _⟩
      exact genuine_of_move_clash hR (known_of_resolveWithin? hσ hK hab.1 ha)
        (known_of_resolveWithin? hσ hK hab.2 hb) hm
        ((rel_iff_of_resolveWithin? hR hH ha hb).1 (List.forall_mem_cons.1 hrel).1)
  | unresolved _ => cases hr
  | unextended _ _ _ _ => cases hr

end Known

end Run

end Unify

end Monotype
