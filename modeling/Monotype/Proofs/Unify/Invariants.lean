import Monotype.Proofs.Unify.Solve

/-!
# What unification keeps

A call of the unifier starts from a substitution and, if it succeeds, returns a larger one.  From an
acyclic start the call always ends, and the answer

* is acyclic again, and resolved if the start was (`Run.acyclic`, `Run.resolved`);
* keeps the keys, and takes new keys and new variables from the two types and from the values that
  were there (`keptByBinding_keys`, `Run.confined`);
* refines the start: applying the start first makes no difference to it (`Run.refines`).

Main statement: `unify_ends_and_keeps_acyclic`, with the consequence that whatever is reached from
the empty substitution by successful calls is resolved.
-/

namespace Monotype

namespace Subst

/-- Applying both substitutions in turn ends, and gives what applying the second alone gives. -/
def Refines (σ' σ : Subst) : Prop :=
  ∀ t, ∃ u v, σ.resolve? t = some u ∧ σ'.resolve? u = some v ∧ σ'.resolve? t = some v

/-- An acyclic substitution satisfies its own bindings. -/
theorem Acyclic.holds_value {σ : Subst} (hσ : σ.Acyclic) : σ.Holds (Ty.EqualUnder σ.value) := by
  intro i t hi
  simpa [Ty.EqualUnder] using hσ.value_of_get? hi

/-- A substitution that satisfies another one refines it. -/
theorem Acyclic.refines_of_holds {σ σ' : Subst} (hσ : σ.Acyclic) (hσ' : σ'.Acyclic)
    (h : σ.Holds (Ty.EqualUnder σ'.value)) : σ'.Refines σ := by
  intro t
  have heq : t.bind σ'.value = (t.bind σ.value).bind σ'.value :=
    h.resolve? (Ty.unifying_equalUnder σ'.value) (hσ.resolve?_eq t)
  exact ⟨_, _, hσ.resolve?_eq t, hσ'.resolve?_eq _, heq ▸ hσ'.resolve?_eq t⟩

end Subst

namespace Unify

/-- A substitution that successful calls of the unifier make of the empty one. -/
inductive Reached : Subst → Prop where
  | start : Reached .empty
  | next {σ σ' : Subst} {limit : Option Nat} {a b : Ty} (before : Reached σ)
      (h : (unify limit σ [(a, b)]).outcome = .ok σ') : Reached σ'

/-- A binding never removes a key. -/
theorem keptByBinding_keys (is : List Int) : KeptByBinding fun σ => ∀ i ∈ is, i ∈ σ.keys := by
  intro σ σ' i t hσ _ _ _ h j hj
  have hmapped : (σ.get? j).isSome := OrderedMap.mem_keys_iff.1 (hσ j hj)
  rw [OrderedMap.mem_keys_iff, Subst.get?_extend?_isSome h, hmapped, Bool.or_true]

namespace Run

variable {limit : Option Nat} {σ σ' : Subst} {work : List (Ty × Ty)} {r : Except Obstacle Subst}

/-- A run stays among the variables that the pending equations and the values mention: it introduces
no other variable into a value, and maps no other variable that was not mapped. -/
theorem confined (h : Run limit σ work r) {old vs : List Int}
    (hmentioned : ∀ j, j ∈ pendingVars work ∨ j ∈ σ.valueVars → j ∈ vs)
    (hkeys : ∀ j ∈ σ.keys, j ∈ old ∨ j ∈ vs) (hr : r = .ok σ') :
    (∀ j ∈ σ'.valueVars, j ∈ vs) ∧ ∀ j ∈ σ'.keys, j ∈ old ∨ j ∈ vs := by
  -- Whatever a step adds to the values or to the keys was mentioned before it.
  induction h with
  | done σ =>
      cases hr
      exact ⟨fun j hj => hmentioned j (Or.inr hj), hkeys⟩
  | skip _ _ _ _ ih =>
      refine ih (fun j hj => hmentioned j ?_) hkeys hr
      exact hj.imp_left fun hj => by simp [pendingVars_cons, hj]
  | split ha hb hm _ ih =>
      refine ih (fun j hj => hmentioned j ?_) hkeys hr
      exact mentioned_of_split (Subst.resolve?_of_resolveWithin? ha)
        (Subst.resolve?_of_resolveWithin? hb) hm hj
  | @bind σ σ₁ a b a' b' t i work _ ha hb hm he _ ih =>
      have ha' := Subst.resolve?_of_resolveWithin? ha
      have hb' := Subst.resolve?_of_resolveWithin? hb
      have he' := Subst.extend?_of_extendWithin? he
      have hi : i ∈ vs :=
        hmentioned i (mentioned_of_resolve? ha' hb' (mem_vars_of_move_bind hm (Or.inl rfl)))
      refine ih (fun j hj => hmentioned j (mentioned_of_bind ha' hb' hm he' hj)) ?_ hr
      intro j hj
      rw [OrderedMap.mem_keys_iff, Subst.get?_extend?_isSome he', Bool.or_eq_true] at hj
      rcases hj with hj | hj
      · exact Or.inr (of_decide_eq_true hj ▸ hi)
      · exact hkeys j (OrderedMap.mem_keys_iff.2 hj)
  | clash _ _ _ => cases hr
  | unresolved _ => cases hr
  | unextended _ _ _ _ => cases hr

/-- The answer of a run refines the substitution that it starts from. -/
theorem refines (h : Run limit σ work r) (hσ : σ.Acyclic) (hr : r = .ok σ') : σ'.Refines σ := by
  have hσ' : σ'.Acyclic := h.acyclic hσ hr
  have hholds := (h.holds_iff (Ty.unifying_equalUnder σ'.value) hr).1 hσ'.holds_value
  exact hσ.refines_of_holds hσ' hholds.1

end Run

/-- Whatever the unifier builds from nothing is flat. -/
theorem Reached.resolved {σ : Subst} (h : Reached σ) : σ.Resolved := by
  induction h with
  | start => exact Subst.resolved_empty
  | next _ h ih => exact (run_unify _ _ _).resolved ih h

/-- From an acyclic substitution, unifying two types ends with an answer or a conflict.  An answer
is acyclic, and resolved if the start was; it keeps the keys, it takes new keys and new variables in
values from the two types and the values that were there, and it refines the start.  So every
substitution that successful calls make of the empty one is resolved, and so is every result of
solving. -/
theorem unify_ends_and_keeps_acyclic :
    (∀ (σ : Subst) (a b : Ty), σ.Acyclic →
      ((∃ σ', (unify none σ [(a, b)]).outcome = .ok σ') ∨
        ∃ c, (unify none σ [(a, b)]).outcome = .error (.conflict c)) ∧
      ∀ limit σ', (unify limit σ [(a, b)]).outcome = .ok σ' →
        σ'.Acyclic ∧ (σ.Resolved → σ'.Resolved) ∧
        (∀ i ∈ σ.keys, i ∈ σ'.keys) ∧
        (∀ i ∈ σ'.keys, i ∉ σ.keys → i ∈ a.vars ∨ i ∈ b.vars ∨ i ∈ σ.valueVars) ∧
        (∀ i ∈ σ'.valueVars, i ∈ a.vars ∨ i ∈ b.vars ∨ i ∈ σ.valueVars) ∧
        σ'.Refines σ) ∧
    (∀ σ, Reached σ → σ.Resolved) ∧
    ∀ limit es σ, (solve limit es).outcome = .ok σ → σ.Resolved := by
  refine ⟨?_, fun σ => Reached.resolved, fun limit es σ => resolved_of_solve⟩
  intro σ a b hσ
  constructor
  · have hends := (run_unify none σ [(a, b)]).ne_endless hσ
    cases hout : (unify none σ [(a, b)]).outcome with
    | ok σ' => exact Or.inl ⟨σ', rfl⟩
    | error o =>
        cases o with
        | conflict c => exact Or.inr ⟨c, rfl⟩
        | endless => exact absurd hout hends
  · intro limit σ' h
    have hrun := run_unify limit σ [(a, b)]
    -- What is mentioned at the start are the two types and the values.
    have hmentioned : ∀ j, j ∈ pendingVars [(a, b)] ∨ j ∈ σ.valueVars →
        j ∈ a.vars ++ b.vars ++ σ.valueVars := by
      intro j hj
      simpa [pendingVars, or_assoc] using hj
    have hconfined := hrun.confined hmentioned (fun j (hj : j ∈ σ.keys) => Or.inl hj) h
    simp only [List.mem_append, or_assoc] at hconfined
    refine ⟨hrun.acyclic hσ h, fun hres => hrun.resolved hres h,
      hrun.keeps (keptByBinding_keys σ.keys) (fun i hi => hi) h, ?_, hconfined.1, hrun.refines hσ h⟩
    intro i hi hnew
    exact (hconfined.2 i hi).resolve_left hnew

/-- From `t0 := (t1) -> Int, t1 := Bool`, which is acyclic and not resolved, `t0` and `(t2) -> t3`
unify. -/
theorem unify_of_unresolved_chain :
    let σ : Subst := ⟨[(0, .fn [.var 1] .int), (1, .bool)], by decide⟩
    σ.Acyclic ∧ ¬ σ.Resolved ∧
      ∃ σ', (unify none σ [(.var 0, .fn [.var 2] (.var 3))]).outcome = .ok σ' ∧ σ'.Acyclic ∧
        σ'.Refines σ := by
  intro σ
  have hedge : ∀ i j, σ.Edge i j → i < j := by
    rintro i j ⟨t, ht, hj, _⟩
    simp only [σ, OrderedMap.get?, Entries.lookup_cons] at ht
    by_cases h0 : i = 0
    · obtain rfl : Ty.fn [.var 1] .int = t := by simpa [h0] using ht
      have hj1 : j = 1 := by simpa [Ty.int] using hj
      omega
    · by_cases h1 : i = 1
      · obtain rfl : Ty.bool = t := by simpa [h1] using ht
        simp [Ty.bool] at hj
      · simp [h0, h1] at ht
  have hacyclic : σ.Acyclic := Subst.acyclic_of_edge_lt hedge
  have hresolved : ¬ σ.Resolved := by
    intro h
    have h1 := h 0 (.fn [.var 1] .int) (by decide) 1 (by decide)
    exact absurd h1 (by decide)
  obtain ⟨σ', hσ'⟩ : ∃ σ', (unify none σ [(.var 0, .fn [.var 2] (.var 3))]).outcome = .ok σ' := by
    exact ⟨⟨[(0, .fn [.var 1] .int), (1, .bool), (2, .bool), (3, .int)], by decide⟩, by cbv⟩
  have hkept := (unify_ends_and_keeps_acyclic.1 σ _ _ hacyclic).2 none σ' hσ'
  exact ⟨hacyclic, hresolved, σ', hσ', hkept.1, hkept.2.2.2.2.2⟩

end Unify

end Monotype
