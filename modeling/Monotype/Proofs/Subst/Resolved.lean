import Monotype.Proofs.Ty.Graft
import Monotype.Subst.Basic

/-!
# Resolved substitutions

A substitution is resolved when no mapped variable occurs in a value.  Applying a resolved
substitution always ends, and it is a single graft (`Resolved.resolve?_eq`).

Extending is described without looking at the entries: a binding `i := t` whose variable does not
occur in its type can always be added (`exists_extend?`), it replaces `i` in the values that are
there (`get?_extend?`), and it keeps the substitution resolved when `i` and the variables of `t` are
unmapped (`Resolved.extend?`).
-/

namespace Monotype

/-! ## Replacing all values of a map -/

namespace Entries

variable {κ ν μ : Type}

/-- Replacing all values replaces the one at each key. -/
theorem lookup_traverse [DecidableEq κ] {f : ν → Option μ} {es : List (κ × ν)}
    {out : { out : List (κ × μ) // keys out = keys es }} (h : traverse f es = some out) (k : κ) :
    out.val.lookup k = (es.lookup k).bind f := by
  induction es with
  | nil =>
      have hout : out.val = [] := by
        simpa [keys] using out.property
      simp [hout]
  | cons e es ih =>
      rcases e with ⟨k₁, v⟩
      cases hv : f v with
      | none => simp [traverse, hv] at h
      | some w =>
          cases hes : traverse f es with
          | none => simp [traverse, hv, hes] at h
          | some rest =>
              have hout : (k₁, w) :: rest.val = out.val := by
                simp only [traverse, hv, hes, Option.some.injEq] at h
                exact congrArg Subtype.val h
              by_cases hk : k = k₁
              · simp [← hout, hk, hv]
              · simpa [← hout, lookup_cons, hk] using ih hes

theorem isSome_traverse {f : ν → Option μ} {es : List (κ × ν)}
    (h : ∀ e ∈ es, (f e.2).isSome) : (traverse f es).isSome := by
  induction es with
  | nil => rfl
  | cons e es ih =>
      rcases e with ⟨k, v⟩
      obtain ⟨w, hw⟩ := Option.isSome_iff_exists.1 (h (k, v) (by simp))
      obtain ⟨rest, hrest⟩ := Option.isSome_iff_exists.1 (ih fun e he => h e (by simp [he]))
      simp only at hw
      simp [traverse, hw, hrest]

end Entries

namespace OrderedMap

variable {κ ν : Type}

/-- After a replacement, every key has its replaced value. -/
theorem get?_traverse [DecidableEq κ] {f : ν → Option ν} {m m' : OrderedMap κ ν}
    (h : m.traverse f = some m') (k : κ) : m'.get? k = (m.get? k).bind f := by
  cases hout : Entries.traverse f m.entries with
  | none => simp [traverse, hout] at h
  | some out =>
      have hm : m'.entries = out.val := by
        have := congrArg (Option.map entries) h
        simpa [traverse, hout] using this.symm
      simpa [get?, hm] using Entries.lookup_traverse hout k

/-- If every single value can be replaced, all can. -/
theorem exists_traverse {f : ν → Option ν} {m : OrderedMap κ ν}
    (h : ∀ e ∈ m.entries, (f e.2).isSome) : ∃ m', m.traverse f = some m' := by
  obtain ⟨out, hout⟩ := Option.isSome_iff_exists.1 (Entries.isSome_traverse h)
  exact ⟨_, by rw [traverse, hout]; rfl⟩

theorem get?_single [DecidableEq κ] (k : κ) (v : ν) (j : κ) :
    (single k v).get? j = if j = k then some v else none := by
  simp [get?, single, Entries.lookup_cons]

end OrderedMap

namespace Ty

def replace (i : Int) (t u : Ty) : Ty := u.bind fun j => if j = i then t else .var j

/-- A variable of a type after a replacement was there before, or comes from what was put in. -/
theorem mem_vars_replace {i j : Int} {t u : Ty} (h : j ∈ (replace i t u).vars) :
    (j ∈ u.vars ∧ j ≠ i) ∨ j ∈ t.vars := by
  rcases mem_vars_bind.1 h with ⟨k, hk, hj⟩
  by_cases hki : k = i
  · exact Or.inr (by simpa [hki] using hj)
  · have hjk : j = k := by simpa [hki] using hj
    exact Or.inl ⟨hjk ▸ hk, hjk ▸ hki⟩

end Ty

namespace Subst

/-- No mapped variable occurs in a value. -/
def Resolved (σ : Subst) : Prop :=
  ∀ i t, σ.get? i = some t → ∀ j ∈ t.vars, σ.get? j = none

/-- The type that a substitution gives to a variable; an unmapped variable stands for itself. -/
def assign (σ : Subst) (i : Int) : Ty := (σ.get? i).getD (.var i)

theorem assign_of_get? {σ : Subst} {i : Int} {t : Ty} (h : σ.get? i = some t) : σ.assign i = t := by
  simp [assign, h]

theorem assign_of_unmapped {σ : Subst} {i : Int} (h : σ.get? i = none) : σ.assign i = .var i := by
  simp [assign, h]

theorem resolved_empty : Resolved .empty := by
  intro i t h
  simp at h

/-- A single entry that does not mention its own key is flat. -/
theorem resolved_single {i : Int} {t : Ty} (hi : i ∉ t.vars) :
    Resolved (OrderedMap.single i t) := by
  intro j u hj k hk
  by_cases hji : j = i
  · have htu : t = u := by simpa [OrderedMap.get?_single, hji] using hj
    have hki : k ≠ i := fun hki => hi (by simpa [htu, ← hki] using hk)
    simp [OrderedMap.get?_single, hki]
  · simp [OrderedMap.get?_single, hji] at hj

/-! ## Application -/

/-- In a flat substitution one replacement is enough. -/
theorem expand_eq_assign {σ : Subst} (hσ : σ.Resolved) (i : Int) :
    σ.expand σ.size i = some (σ.assign i) := by
  cases hi : σ.get? i with
  | none => simp [expand_of_unmapped hi, assign_of_unmapped hi]
  | some t =>
      -- A mapped variable needs one replacement, and there is an entry to allow it.
      have hsize : σ.size ≠ 0 := by
        intro h
        have hentries : σ.entries = [] := List.length_eq_zero_iff.1 h
        simp [OrderedMap.get?, hentries] at hi
      obtain ⟨n, hn⟩ := Nat.exists_eq_succ_of_ne_zero hsize
      have ht : t.bind? (σ.expand n) = some t :=
        Ty.bind?_eq_self fun j hj => expand_of_unmapped (hσ i t hi j hj) n
      simp [hn, expand, hi, ht, assign_of_get? hi]

/-- Applying a flat substitution is one graft. -/
theorem Resolved.resolve?_eq {σ : Subst} (hσ : σ.Resolved) (t : Ty) :
    σ.resolve? t = some (t.bind σ.assign) :=
  Ty.bind?_eq_some_bind fun i _ => expand_eq_assign hσ i

theorem Resolved.resolve?_funext {σ : Subst} (hσ : σ.Resolved) :
    σ.resolve? = fun t => some (t.bind σ.assign) :=
  funext hσ.resolve?_eq

/-- What a flat substitution leaves behind is unmapped. -/
theorem Resolved.get?_of_mem_vars_bind {σ : Subst} (hσ : σ.Resolved) {t : Ty} {j : Int}
    (hj : j ∈ (t.bind σ.assign).vars) : σ.get? j = none :=
  get?_of_mem_vars_resolve? (hσ.resolve?_eq t) hj

/-- Applying a flat substitution twice changes nothing more. -/
theorem Resolved.assign_bind_assign {σ : Subst} (hσ : σ.Resolved) (i : Int) :
    (σ.assign i).bind σ.assign = σ.assign i := by
  apply Ty.bind_eq_self
  intro j hj
  exact assign_of_unmapped (hσ.get?_of_mem_vars_bind (t := .var i) (by simpa using hj))

/-- A single entry replaces its variable. -/
theorem resolve?_single {i : Int} {t : Ty} (hi : i ∉ t.vars) (u : Ty) :
    resolve? (OrderedMap.single i t) u = some (Ty.replace i t u) := by
  have hassign : assign (OrderedMap.single i t) = fun j => if j = i then t else .var j := by
    funext j
    by_cases hji : j = i <;> simp [assign, OrderedMap.get?_single, hji]
  simpa [Ty.replace, hassign] using (resolved_single hi).resolve?_eq u

/-! ## Extension -/

/-- An entry that does not mention its own key can always be added. -/
theorem exists_extend? (σ : Subst) {i : Int} {t : Ty} (hi : i ∉ t.vars) :
    ∃ σ', σ.extend? i t = some σ' := by
  obtain ⟨σ', hσ'⟩ := OrderedMap.exists_traverse (m := σ)
    (f := resolve? (OrderedMap.single i t)) fun e _ => by simp [resolve?_single hi]
  exact ⟨σ'.insert i t, by simp [extend?, hσ']⟩

/-- The new entry is there, and it is put into the values of all others. -/
theorem get?_extend? {σ σ' : Subst} {i : Int} {t : Ty} (hi : i ∉ t.vars)
    (h : σ.extend? i t = some σ') (j : Int) :
    σ'.get? j = if j = i then some t else (σ.get? j).map (Ty.replace i t) := by
  cases hm : OrderedMap.traverse (resolve? (OrderedMap.single i t)) σ with
  | none => simp [extend?, hm] at h
  | some m =>
      have hσ' : m.insert i t = σ' := by simpa [extend?, hm] using h
      have hget : m.get? j = (σ.get? j).map (Ty.replace i t) := by
        cases hj : σ.get? j with
        | none => simpa [hj] using OrderedMap.get?_traverse hm j
        | some u => simpa [hj, resolve?_single hi] using OrderedMap.get?_traverse hm j
      simp [← hσ', OrderedMap.get?_insert, hget]

/-- Adding an entry over unmapped variables keeps a substitution flat. -/
theorem Resolved.extend? {σ σ' : Subst} (hσ : σ.Resolved) {i : Int} {t : Ty} (hi : i ∉ t.vars)
    (ht : ∀ j ∈ t.vars, σ.get? j = none) (h : σ.extend? i t = some σ') : σ'.Resolved := by
  -- A variable that was unmapped before and is not `i` is unmapped after.
  have hunmapped : ∀ k, k ≠ i → σ.get? k = none → σ'.get? k = none := by
    intro k hki hk
    simp [get?_extend? hi h, hki, hk]
  have hfresh : ∀ k ∈ t.vars, σ'.get? k = none := by
    intro k hk
    exact hunmapped k (fun hki => hi (hki ▸ hk)) (ht k hk)
  intro j u hj k hk
  by_cases hji : j = i
  · have htu : t = u := by simpa [get?_extend? hi h, hji] using hj
    exact hfresh k (htu ▸ hk)
  · obtain ⟨v, hv, rfl⟩ : ∃ v, σ.get? j = some v ∧ Ty.replace i t v = u := by
      simpa [get?_extend? hi h, hji] using hj
    rcases Ty.mem_vars_replace hk with ⟨hkv, hki⟩ | hkt
    · exact hunmapped k hki (hσ j v hv k hkv)
    · exact hfresh k hkt

end Subst

end Monotype
