import Monotype.Proofs.Subst.Application

/-!
# Composition of substitutions

`Subst.compose?` applies a second substitution to the values of a first one and adds the entries of
the second.  The result is applied until no key is left, so it is not obvious that it does what the
two do in turn: a replacement by the second could bring back a key of the first.  It cannot if the
second one *spares* the first, that is, if it neither maps a key of the first nor mentions one in a
value (`Subst.Spares`).

* Every edge of the composition is then an edge of one of the two (`Spares.edge_compose?`), and a
  chain of edges never passes from one to the other, so the composition is acyclic if both are.
* The two in turn satisfy the entries of the composition as equations, and there is only one graft
  that does (`Applies.eq_bind`).

Main statement: `Subst.resolve?_compose?_of_spares`.
-/

namespace Monotype

open Relation (TransGen)

/-! ## Writing one map over another -/

/-- New keys join the ones that are there, in their own order. -/
theorem Entries.keys_putAll {κ ν : Type} [DecidableEq κ] {base es : List (κ × ν)}
    (hnodup : (keys es).Nodup) (hnew : ∀ k ∈ keys es, k ∉ keys base) :
    keys (putAll base es) = keys base ++ keys es := by
  induction es generalizing base with
  | nil => simp [putAll]
  | cons e es ih =>
      rcases e with ⟨j, v⟩
      rw [keys_cons, List.nodup_cons] at hnodup
      have hkeys : keys (put j v base) = keys base ++ [j] := by
        rw [keys_put, if_neg (hnew j (by simp))]
      have hrest : ∀ k ∈ keys es, k ∉ keys (put j v base) := by
        intro k hk
        have hkj : k ≠ j := fun hkj => hnodup.1 (hkj ▸ hk)
        simp [hkeys, hkj, hnew k (by simp [hk])]
      have hput : putAll base ((j, v) :: es) = putAll (put j v base) es := rfl
      rw [hput, ih hnodup.2 hrest, hkeys]
      simp

/-- Entries that are written later win. -/
theorem OrderedMap.get?_insertAll {κ ν : Type} [DecidableEq κ] (m n : OrderedMap κ ν) (k : κ) :
    (m.insertAll n.entries).get? k = (n.get? k).or (m.get? k) := by
  have hput : (m.insertAll n.entries).get? k = (n.entries.reverse.lookup k).or (m.get? k) :=
    Entries.lookup_putAll m.entries n.entries k
  rw [hput, Entries.lookup_reverse (List.nodup_iff_count.1 n.nodup k)]
  rfl

namespace Subst

variable {σ τ ρ : Subst}

/-! ## Grafts that satisfy the entries -/

/-- What the recursion makes of a type is its graft by any assignment that satisfies the entries as
equations and leaves the other variables as they are. -/
theorem Applies.eq_bind {θ : Int → Ty} (hmapped : ∀ i t, σ.get? i = some t → θ i = t.bind θ)
    (hunmapped : ∀ i, σ.get? i = none → θ i = .var i) {t u : Ty} (h : σ.Applies t u) :
    u = t.bind θ := by
  induction h with
  | unknown => rfl
  | const c => rfl
  | unmapped hi => simp [hunmapped _ hi]
  | mapped hi _ ih => rw [ih, Ty.bind_var, hmapped _ _ hi]
  | fn _ _ ihps ihr => rw [Ty.bind_fn, List.map_congr_left ihps, ihr]

/-- A variable without a value stands for itself. -/
theorem value_of_unmapped {i : Int} (hi : σ.get? i = none) : σ.value i = .var i := by
  simp [value, expand_of_unmapped hi]

/-- What stands for a variable holds no key, and no variable but this one and those of the
values. -/
theorem Acyclic.mem_vars_value (hσ : σ.Acyclic) {i j : Int} (hj : j ∈ (σ.value i).vars) :
    σ.get? j = none ∧ (j = i ∨ j ∈ σ.valueVars) :=
  mem_vars_expand (hσ.expand_eq i) hj

/-- No key is mentioned in a value exactly if no key leads to another one. -/
theorem resolved_iff_not_edge : σ.Resolved ↔ ∀ i j, ¬ σ.Edge i j := by
  constructor
  · rintro hσ i j ⟨t, ht, hj, hmapped⟩
    simp [hσ i t ht j hj] at hmapped
  · intro hedge i t ht j hj
    by_contra hmapped
    exact hedge i j ⟨t, ht, hj, Option.isSome_iff_ne_none.2 hmapped⟩

/-! ## Entries of a composition -/

/-- Composition with a substitution without cycles always ends. -/
theorem exists_compose? (σ : Subst) (hτ : τ.Acyclic) : ∃ ρ, σ.compose? τ = some ρ := by
  obtain ⟨m, hm⟩ := OrderedMap.exists_traverse (m := σ) (f := τ.resolve?)
    fun e _ => by simp [hτ.resolve?_eq]
  exact ⟨m.insertAll τ.entries, by simp [compose?, hm]⟩

/-- The second substitution is applied to the values of the first, and its own entries win. -/
theorem get?_compose? (hτ : τ.Acyclic) (h : σ.compose? τ = some ρ) (i : Int) :
    ρ.get? i = (τ.get? i).or ((σ.get? i).map (Ty.bind τ.value)) := by
  cases hm : OrderedMap.traverse τ.resolve? σ with
  | none => simp [compose?, hm] at h
  | some m =>
      have hρ : m.insertAll τ.entries = ρ := by simpa [compose?, hm] using h
      have hget : m.get? i = (σ.get? i).map (Ty.bind τ.value) := by
        rw [OrderedMap.get?_traverse hm i]
        cases σ.get? i <;> simp [hτ.resolve?_eq]
      rw [← hρ, OrderedMap.get?_insertAll, hget]

/-- The second substitution neither maps a key of the first nor mentions one in a value. -/
structure Spares (τ σ : Subst) : Prop where
  keys : ∀ i ∈ σ.keys, i ∉ τ.keys
  values : ∀ i ∈ τ.valueVars, i ∉ σ.keys

namespace Spares

/-- The second substitution leaves the keys of the first alone. -/
theorem unmapped_of_first (h : τ.Spares σ) {i : Int} (hi : (σ.get? i).isSome) :
    τ.get? i = none := by
  have hkey : i ∉ τ.keys := h.keys i (OrderedMap.mem_keys_iff.2 hi)
  simpa [OrderedMap.mem_keys_iff] using hkey

theorem unmapped_of_second (h : τ.Spares σ) {i : Int} (hi : (τ.get? i).isSome) :
    σ.get? i = none := by
  have hkey : i ∉ σ.keys := fun hσ => h.keys i hσ (OrderedMap.mem_keys_iff.2 hi)
  simpa [OrderedMap.mem_keys_iff] using hkey

theorem unmapped_of_mentioned (h : τ.Spares σ) {i : Int} (hi : i ∈ τ.valueVars) :
    σ.get? i = none := by
  have hkey : i ∉ σ.keys := h.values i hi
  simpa [OrderedMap.mem_keys_iff] using hkey

/-- The keys of a composition are those of both, one after the other. -/
theorem keys_compose? (hspares : τ.Spares σ) (h : σ.compose? τ = some ρ) :
    ρ.keys = σ.keys ++ τ.keys := by
  cases hm : Entries.traverse τ.resolve? σ.entries with
  | none => simp [compose?, OrderedMap.traverse, hm] at h
  | some out =>
      have hentries : ρ.entries = Entries.putAll out.val τ.entries := by
        have hmap := congrArg (Option.map OrderedMap.entries) h
        simpa [compose?, OrderedMap.traverse, hm, OrderedMap.insertAll] using hmap.symm
      have hnew : ∀ k ∈ Entries.keys τ.entries, k ∉ Entries.keys out.val := by
        intro k hk hk'
        rw [out.property] at hk'
        exact hspares.keys k hk' hk
      rw [OrderedMap.keys, hentries, Entries.keys_putAll τ.nodup hnew, out.property]
      rfl

/-- A key of the composition has its entry from the one of the two that maps it. -/
theorem get?_compose?_cases (hspares : τ.Spares σ) (hτ : τ.Acyclic) (h : σ.compose? τ = some ρ)
    {i : Int} {t : Ty} (hi : ρ.get? i = some t) :
    τ.get? i = some t ∨ ∃ v, σ.get? i = some v ∧ t = v.bind τ.value := by
  rw [get?_compose? hτ h] at hi
  cases hσ : σ.get? i with
  | none => exact Or.inl (by simpa [hσ] using hi)
  | some v =>
      have hnone : τ.get? i = none := hspares.unmapped_of_first (by simp [hσ])
      exact Or.inr ⟨v, rfl, by simpa [hσ, hnone, eq_comm] using hi⟩

/-! ## Chains of replacements -/

/-- Composing adds no edge and makes none between the two. -/
theorem edge_compose? (hspares : τ.Spares σ) (hτ : τ.Acyclic) (h : σ.compose? τ = some ρ)
    {i j : Int} (hedge : ρ.Edge i j) : σ.Edge i j ∨ τ.Edge i j := by
  obtain ⟨t, ht, hj, hmapped⟩ := hedge
  rw [get?_compose? hτ h, Option.isSome_or, Option.isSome_map, Bool.or_eq_true] at hmapped
  rcases hspares.get?_compose?_cases hτ h ht with hi | ⟨v, hi, rfl⟩
  · -- The value is one of the second, and it mentions no key of the first.
    have hj' : σ.get? j = none := hspares.unmapped_of_mentioned (mem_valueVars_of_get? hi hj)
    exact Or.inr ⟨t, hi, hj, by simpa [hj'] using hmapped⟩
  · obtain ⟨k, hk, hjk⟩ := Ty.mem_vars_bind.1 hj
    obtain ⟨hnone, hjk'⟩ := hτ.mem_vars_value hjk
    have hj' : (σ.get? j).isSome := by simpa [hnone] using hmapped
    -- What the second puts in mentions no key of the first, so the key was there before.
    rcases hjk' with rfl | hvalue
    · exact Or.inl ⟨v, hi, hk, hj'⟩
    · simp [hspares.unmapped_of_mentioned hvalue] at hj'

/-- A chain of edges of the composition stays in one of the two. -/
theorem chain_compose? (hspares : τ.Spares σ) (hτ : τ.Acyclic) (h : σ.compose? τ = some ρ)
    {i j : Int} (hchain : TransGen ρ.Edge i j) : TransGen σ.Edge i j ∨ TransGen τ.Edge i j := by
  induction hchain with
  | single hedge => exact (hspares.edge_compose? hτ h hedge).imp .single .single
  | @tail j k _ hedge ih =>
      rcases ih with hσ | hτ' <;> rcases hspares.edge_compose? hτ h hedge with hσ' | hτ''
      · exact Or.inl (hσ.tail hσ')
      · -- The edge starts at a key of the second, where a chain of the first cannot have come.
        obtain ⟨_, _, _, _, _, hj⟩ := TransGen.tail'_iff.1 hσ
        obtain ⟨_, hj', _⟩ := hτ''
        simp [hspares.unmapped_of_first hj] at hj'
      · obtain ⟨_, _, _, _, _, hj⟩ := TransGen.tail'_iff.1 hτ'
        obtain ⟨_, hj', _⟩ := hσ'
        simp [hspares.unmapped_of_second hj] at hj'
      · exact Or.inr (hτ'.tail hτ'')

/-- Composition keeps substitutions free of cycles: a chain cannot lead back from the second to the
first. -/
theorem acyclic_compose? (hspares : τ.Spares σ) (hσ : σ.Acyclic) (hτ : τ.Acyclic)
    (h : σ.compose? τ = some ρ) : ρ.Acyclic := by
  intro i hi
  rcases hspares.chain_compose? hτ h hi with hcycle | hcycle
  · exact hσ i hcycle
  · exact hτ i hcycle

/-- Composition keeps values free of keys. -/
theorem resolved_compose? (hspares : τ.Spares σ) (hσ : σ.Resolved) (hτ : τ.Resolved)
    (h : σ.compose? τ = some ρ) : ρ.Resolved := by
  rw [resolved_iff_not_edge] at *
  intro i j hedge
  have hτ' : τ.Resolved := resolved_iff_not_edge.2 hτ
  rcases hspares.edge_compose? hτ'.acyclic h hedge with hedge | hedge
  · exact hσ i j hedge
  · exact hτ i j hedge

/-! ## Application -/

/-- The two in turn leave the variables of a value of the second to the second. -/
theorem bind_value_of_unmapped {t : Ty} (ht : ∀ j ∈ t.vars, σ.get? j = none) :
    (t.bind fun j => (σ.value j).bind τ.value) = t.bind τ.value := by
  apply Ty.bind_congr
  intro j hj
  rw [value_of_unmapped (ht j hj), Ty.bind_var]

/-- The two in turn do to the replacements by the second what they do to the variables replaced. -/
theorem bind_value_value (hspares : τ.Spares σ) (hτ : τ.Acyclic) (k : Int) :
    ((τ.value k).bind fun j => (σ.value j).bind τ.value) = (σ.value k).bind τ.value := by
  cases hk : τ.get? k with
  | none => rw [value_of_unmapped hk, Ty.bind_var]
  | some u =>
      have hσk : σ.get? k = none := hspares.unmapped_of_second (by simp [hk])
      have hclear : ∀ j ∈ (τ.value k).vars, τ.get? j = none ∧ σ.get? j = none := by
        intro j hj
        obtain ⟨hnone, rfl | hvalue⟩ := hτ.mem_vars_value hj
        · exact ⟨hnone, hσk⟩
        · exact ⟨hnone, hspares.unmapped_of_mentioned hvalue⟩
      calc ((τ.value k).bind fun j => (σ.value j).bind τ.value)
          = (τ.value k).bind τ.value := bind_value_of_unmapped fun j hj => (hclear j hj).2
        _ = τ.value k := Ty.bind_eq_self fun j hj => value_of_unmapped (hclear j hj).1
        _ = (σ.value k).bind τ.value := by rw [value_of_unmapped hσk, Ty.bind_var]

/-- The two in turn satisfy the entries of the composition as equations. -/
theorem value_of_get?_compose? (hspares : τ.Spares σ) (hσ : σ.Acyclic) (hτ : τ.Acyclic)
    (h : σ.compose? τ = some ρ) {i : Int} {t : Ty} (hρ : ρ.get? i = some t) :
    (σ.value i).bind τ.value = t.bind fun j => (σ.value j).bind τ.value := by
  rcases hspares.get?_compose?_cases hτ h hρ with hi | ⟨v, hi, rfl⟩
  · have hσi : σ.get? i = none := hspares.unmapped_of_second (by simp [hi])
    have hvalues : ∀ j ∈ t.vars, σ.get? j = none :=
      fun j hj => hspares.unmapped_of_mentioned (mem_valueVars_of_get? hi hj)
    rw [value_of_unmapped hσi, Ty.bind_var, hτ.value_of_get? hi, bind_value_of_unmapped hvalues]
  · calc (σ.value i).bind τ.value
        = (v.bind σ.value).bind τ.value := by rw [hσ.value_of_get? hi]
      _ = v.bind fun k => (σ.value k).bind τ.value := Ty.bind_bind _ _ _
      _ = v.bind fun k => (τ.value k).bind fun j => (σ.value j).bind τ.value :=
          Ty.bind_congr fun k _ => (hspares.bind_value_value hτ k).symm
      _ = (v.bind τ.value).bind fun j => (σ.value j).bind τ.value := (Ty.bind_bind _ _ _).symm

/-- What neither substitution maps stands for itself under both. -/
theorem value_of_unmapped_compose? (hτ : τ.Acyclic) (h : σ.compose? τ = some ρ) {i : Int}
    (hi : ρ.get? i = none) : (σ.value i).bind τ.value = .var i := by
  have hboth : τ.get? i = none ∧ σ.get? i = none := by simpa [get?_compose? hτ h] using hi
  rw [value_of_unmapped hboth.2, Ty.bind_var, value_of_unmapped hboth.1]

end Spares

/-! ## Main statement -/

/-- Two acyclic substitutions, the second of which spares the first, have a composition.  It is
acyclic, and resolved if both are; its keys are those of the first and then those of the second; and
applying it is applying the first and then the second.  A composition that is refused if it nests
too deeply is this one or none. -/
theorem resolve?_compose?_of_spares (σ τ : Subst) (hσ : σ.Acyclic) (hτ : τ.Acyclic)
    (hkeys : ∀ i ∈ σ.keys, i ∉ τ.keys) (hvalues : ∀ i ∈ τ.valueVars, i ∉ σ.keys) :
    ∃ ρ, σ.compose? τ = some ρ ∧ ρ.Acyclic ∧ ρ.keys = σ.keys ++ τ.keys ∧
      (∀ t, ∃ u v, σ.resolve? t = some u ∧ τ.resolve? u = some v ∧ ρ.resolve? t = some v) ∧
      (σ.Resolved → τ.Resolved → ρ.Resolved) ∧
      ∀ limit ρ', σ.composeWithin? limit τ = some ρ' → ρ' = ρ := by
  have hspares : τ.Spares σ := ⟨hkeys, hvalues⟩
  obtain ⟨ρ, h⟩ := exists_compose? σ hτ
  have hρ : ρ.Acyclic := hspares.acyclic_compose? hσ hτ h
  refine ⟨ρ, h, hρ, hspares.keys_compose? h, ?_,
    fun hσ' hτ' => hspares.resolved_compose? hσ' hτ' h, ?_⟩
  · intro t
    refine ⟨_, _, hσ.resolve?_eq t, hτ.resolve?_eq _, ?_⟩
    -- The plain recursion tells what application does, replacement by replacement.
    have happlies : ρ.Applies t (t.bind ρ.value) := applies_of_resolve? (hρ.resolve?_eq t)
    have hturn := happlies.eq_bind (fun _ _ => hspares.value_of_get?_compose? hσ hτ h)
      (fun _ => Spares.value_of_unmapped_compose? hτ h)
    rw [hρ.resolve?_eq, hturn, Ty.bind_bind]
  · intro limit ρ' h'
    unfold composeWithin? at h'
    split at h'
    · exact Option.some.inj (h'.symm.trans h)
    · cases h'

def earlierChain : Subst := ⟨[(3, .fn [.var 4] (.var 1)), (4, .var 0)], by decide⟩

/-- `t0 := (t1) -> t2, t1 := Bool`: a chain that goes on where the other one ends. -/
def laterChain : Subst := ⟨[(0, .fn [.var 1] (.var 2)), (1, .bool)], by decide⟩

/-- Neither chain is flattened, and neither is the composition; in turn they take `t3` to
`((Bool) -> t2) -> Bool`, and so does the composition. -/
theorem resolve?_compose?_of_laterChain :
    earlierChain.Acyclic ∧ laterChain.Acyclic ∧ (∀ i ∈ earlierChain.keys, i ∉ laterChain.keys) ∧
      (∀ i ∈ laterChain.valueVars, i ∉ earlierChain.keys) ∧
      ∃ ρ, earlierChain.compose? laterChain = some ρ ∧ ρ.Acyclic ∧ ¬ ρ.Resolved ∧
        ρ.keys = [3, 4, 0, 1] ∧
        ρ.resolve? (.var 3) = some (.fn [.fn [.bool] (.var 2)] .bool) := by
  have hσ : earlierChain.Acyclic := acyclic_of_entries_lt (by decide)
  have hτ : laterChain.Acyclic := acyclic_of_entries_lt (by decide)
  have hkeys : ∀ i ∈ earlierChain.keys, i ∉ laterChain.keys := by decide
  have hvalues : ∀ i ∈ laterChain.valueVars, i ∉ earlierChain.keys := by decide
  obtain ⟨ρ, h, hρ, hρkeys, hturn, _⟩ :=
    resolve?_compose?_of_spares earlierChain laterChain hσ hτ hkeys hvalues
  have hentry : ρ.get? 3 = some (.fn [.var 4] .bool) := by
    have hget := congrArg (Option.map fun ρ => OrderedMap.get? ρ 3) h
    have hcompose : (earlierChain.compose? laterChain).map (fun ρ => OrderedMap.get? ρ 3) =
        some (some (.fn [.var 4] .bool)) := by decide
    exact (Option.some.inj (hcompose.symm.trans hget)).symm
  refine ⟨hσ, hτ, hkeys, hvalues, ρ, h, hρ, ?_, hρkeys, ?_⟩
  · intro hresolved
    have hmapped : (4 : Int) ∈ ρ.keys := by
      rw [hρkeys]
      decide
    simp [OrderedMap.mem_keys_iff, hresolved 3 _ hentry 4 (by decide)] at hmapped
  · obtain ⟨u, v, hu, hv, hρv⟩ := hturn (.var 3)
    have hfirst : earlierChain.resolve? (.var 3) = some (.fn [.var 0] (.var 1)) := by decide
    have hsecond :
        laterChain.resolve? (.fn [.var 0] (.var 1)) = some (.fn [.fn [.bool] (.var 2)] .bool) := by
      decide
    cases hfirst.symm.trans hu
    rw [hρv, ← hv, hsecond]

end Subst

end Monotype
