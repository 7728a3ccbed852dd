import Mathlib.Logic.Relation
import Monotype.Proofs.Subst.Resolved

/-!
# Acyclic substitutions

The mapped variables of a substitution form a graph, with an edge from each of them to the mapped
variables in its value.  A substitution is acyclic when this graph has no cycle; a resolved one has
no edge at all.

Applying an acyclic substitution always ends (`Acyclic.resolve?_eq`).  The budget of
`Subst.resolve?` is enough, since the mapped variables along a chain of replacements are different
keys (`isSome_expand`).  What comes out is a single graft by `Subst.value`, which satisfies the
entries as equations (`Acyclic.value_of_get?`).

A binding of an unmapped variable to a type of unmapped variables adds no edge, so it keeps a
substitution acyclic (`Acyclic.extend?`).
-/

namespace Monotype

open Relation (TransGen ReflTransGen)

/-- A graft that fails less often gives the same result where the other does not fail. -/
theorem Ty.bind?_mono {f g : Int → Option Ty} (hfg : ∀ i w, f i = some w → g i = some w) {t u : Ty}
    (h : t.bind? f = some u) : t.bind? g = some u := by
  have hsome : (t.bind? f).isSome := by simp [h]
  have hg : ∀ i ∈ t.vars, g i = some (orElse f .unknown i) := by
    intro i hi
    obtain ⟨w, hw⟩ := Option.isSome_iff_exists.1 (isSome_of_bind? hsome i hi)
    simpa [orElse, hw] using hfg i w hw
  rw [bind?_eq_some_bind hg, bind?_eq_bind_orElse h]

namespace Subst

/-- Both variables are mapped, and the value of the first mentions the second. -/
def Edge (σ : Subst) (i j : Int) : Prop :=
  ∃ t, σ.get? i = some t ∧ j ∈ t.vars ∧ (σ.get? j).isSome

/-- No chain of replacements returns to its start. -/
def Acyclic (σ : Subst) : Prop := ∀ i, ¬ TransGen σ.Edge i i

/-- In a substitution that mentions none of its keys there are no chains at all. -/
theorem Resolved.acyclic {σ : Subst} (hσ : σ.Resolved) : σ.Acyclic := by
  intro i hi
  obtain ⟨j, ⟨t, ht, hj, hmapped⟩, _⟩ := Relation.TransGen.head'_iff.1 hi
  simp [hσ i t ht j hj] at hmapped

/-- A chain of replacements cannot return where each of them leads to a larger variable. -/
theorem acyclic_of_edge_lt {σ : Subst} (h : ∀ i j, σ.Edge i j → i < j) : σ.Acyclic := by
  have hpath : ∀ i j, TransGen σ.Edge i j → i < j := by
    intro i j hij
    induction hij with
    | single hij => exact h _ _ hij
    | tail _ hjk ih => exact Int.lt_trans ih (h _ _ hjk)
  intro i hi
  exact Int.lt_irrefl i (hpath i i hi)

/-- Keys that only lead to greater keys never lead back. -/
theorem acyclic_of_entries_lt {σ : Subst}
    (h : ∀ e ∈ σ.entries, ∀ j ∈ e.2.vars, j ∈ σ.keys → e.1 < j) : σ.Acyclic := by
  apply acyclic_of_edge_lt
  rintro i j ⟨t, ht, hj, hmapped⟩
  obtain ⟨before, after, hentries, _⟩ := List.lookup_eq_some_iff.1 ht
  exact h (i, t) (by simp [hentries]) j hj (OrderedMap.mem_keys_iff.2 hmapped)

/-! ## Application -/

/-- The mapped variables on the way to a mapped variable, none of them twice, leave room for it
among the entries. -/
theorem length_lt_size {σ : Subst} {i : Int} {seen : List Int} (hmapped : (σ.get? i).isSome)
    (hcycle : ¬ TransGen σ.Edge i i) (hnodup : seen.Nodup)
    (hseen : ∀ s ∈ seen, s ∈ σ.keys ∧ TransGen σ.Edge s i) : seen.length < σ.size := by
  have hfresh : i ∉ seen := fun hi => hcycle (hseen i hi).2
  have hsub : i :: seen ⊆ σ.keys := by
    intro s hs
    rcases List.mem_cons.1 hs with rfl | hs
    · exact OrderedMap.mem_keys_iff.2 hmapped
    · exact (hseen s hs).1
  have hlen := (List.nodup_cons.2 ⟨hfresh, hnodup⟩).length_le_of_subset hsub
  simpa [OrderedMap.keys, Entries.keys, OrderedMap.size, Nat.succ_le_iff] using hlen

/-- From a variable that reaches no cycle, the replacements end within the budget that the mapped
variables on the way to it, `seen`, leave of one replacement per entry. -/
theorem isSome_expand {σ : Subst} {n : Nat} {i : Int} {seen : List Int}
    (hcycle : ∀ k, ReflTransGen σ.Edge i k → ¬ TransGen σ.Edge k k) (hnodup : seen.Nodup)
    (hseen : ∀ s ∈ seen, s ∈ σ.keys ∧ TransGen σ.Edge s i) (hbudget : σ.size ≤ seen.length + n) :
    (σ.expand n i).isSome := by
  have hself : ¬ TransGen σ.Edge i i := hcycle i .refl
  induction n generalizing i seen with
  | zero =>
      cases hi : σ.get? i with
      | none => simp [expand, hi]
      | some t =>
          -- All entries have been seen, and this one is one more.
          have hlen := length_lt_size (by simp [hi]) hself hnodup hseen
          omega
  | succ n ih =>
      cases hi : σ.get? i with
      | none => simp [expand, hi]
      | some t =>
          -- The variables of the value come after this one, which is now among those that were
          -- seen.
          have hparts : ∀ j ∈ t.vars, (σ.expand n j).isSome := by
            intro j hj
            cases hmapped : σ.get? j with
            | none => simp [expand_of_unmapped hmapped]
            | some u =>
                have hedge : σ.Edge i j := ⟨t, hi, hj, by simp [hmapped]⟩
                have hcycle' : ∀ k, ReflTransGen σ.Edge j k → ¬ TransGen σ.Edge k k :=
                  fun k hk => hcycle k (hk.head hedge)
                have hfresh : i ∉ seen := fun h => hself (hseen i h).2
                have hseen' : ∀ s ∈ i :: seen, s ∈ σ.keys ∧ TransGen σ.Edge s j := by
                  intro s hs
                  rcases List.mem_cons.1 hs with rfl | hs
                  · exact ⟨OrderedMap.mem_keys_iff.2 (by simp [hi]), .single hedge⟩
                  · exact ⟨(hseen s hs).1, (hseen s hs).2.tail hedge⟩
                have hbudget' : σ.size ≤ (i :: seen).length + n := by
                  simp only [List.length_cons]
                  omega
                exact ih hcycle' (List.nodup_cons.2 ⟨hfresh, hnodup⟩) hseen' hbudget'
                  (hcycle' j .refl)
          have hbind : t.bind? (σ.expand n) = some (t.bind (Ty.orElse (σ.expand n) .unknown)) := by
            apply Ty.bind?_eq_some_bind
            intro j hj
            obtain ⟨w, hw⟩ := Option.isSome_iff_exists.1 (hparts j hj)
            simp [Ty.orElse, hw]
          simp [expand, hi, hbind]

/-- Room for more replacements changes no result. -/
theorem expand_succ {σ : Subst} {n : Nat} {i : Int} {u : Ty} (h : σ.expand n i = some u) :
    σ.expand (n + 1) i = some u := by
  induction n generalizing i u with
  | zero =>
      cases hi : σ.get? i with
      | none => simpa [expand, hi] using h
      | some t => simp [expand, hi] at h
  | succ n ih =>
      cases hi : σ.get? i with
      | none => simpa [expand, hi] using h
      | some t =>
          have ht : t.bind? (σ.expand n) = some u := by simpa [expand, hi] using h
          have ht' : t.bind? (σ.expand (n + 1)) = some u := Ty.bind?_mono (fun _ _ => ih) ht
          simpa [expand, hi] using ht'

/-- The type that stands for a variable after all replacements, if they end. -/
def value (σ : Subst) (i : Int) : Ty := (σ.expand σ.size i).getD (.var i)

namespace Acyclic

variable {σ : Subst}

/-- Without cycles, as many replacements as there are entries are enough. -/
theorem expand_eq (hσ : σ.Acyclic) (i : Int) : σ.expand σ.size i = some (σ.value i) := by
  have hsome : (σ.expand σ.size i).isSome :=
    @isSome_expand σ σ.size i [] (fun k _ => hσ k) .nil (by simp) (by simp)
  obtain ⟨u, hu⟩ := Option.isSome_iff_exists.1 hsome
  simp [value, hu]

/-- Applying an acyclic substitution ends, and is a single graft. -/
theorem resolve?_eq (hσ : σ.Acyclic) (t : Ty) : σ.resolve? t = some (t.bind σ.value) :=
  Ty.bind?_eq_some_bind fun i _ => hσ.expand_eq i

/-- What stands for a mapped variable is what stands for its value. -/
theorem value_of_get? (hσ : σ.Acyclic) {i : Int} {t : Ty} (hi : σ.get? i = some t) :
    σ.value i = t.bind σ.value := by
  cases hsize : σ.size with
  | zero =>
      have hexpand := hσ.expand_eq i
      simp [hsize, expand, hi] at hexpand
  | succ n =>
      have hexpand : t.bind? (σ.expand n) = some (σ.value i) := by
        simpa [hsize, expand, hi] using hσ.expand_eq i
      -- One more replacement than the value needs does not change what stands for its variables.
      have hmore : t.bind? (σ.expand σ.size) = some (σ.value i) := by
        rw [hsize]
        exact Ty.bind?_mono (fun _ _ => expand_succ) hexpand
      have heq : some (t.bind σ.value) = some (σ.value i) := (hσ.resolve?_eq t).symm.trans hmore
      exact (Option.some.inj heq).symm

/-- A binding of an unmapped variable to a type of unmapped variables adds no edge. -/
theorem extend? {σ' : Subst} (hσ : σ.Acyclic) {i : Int} {t : Ty} (hi : i ∉ t.vars)
    (ht : ∀ j ∈ t.vars, σ.get? j = none) (h : σ.extend? i t = some σ') : σ'.Acyclic := by
  have hunmapped : ∀ j ∈ t.vars, ¬ (σ'.get? j).isSome := by
    intro j hj
    have hji : j ≠ i := fun hji => hi (hji ▸ hj)
    simp [get?_extend? hi h, hji, ht j hj]
  have hedges : ∀ j k, σ'.Edge j k → σ.Edge j k := by
    rintro j k ⟨u, hu, hk, hmapped⟩
    by_cases hji : j = i
    · have htu : t = u := by simpa [get?_extend? hi h, hji] using hu
      exact absurd hmapped (hunmapped k (htu ▸ hk))
    · obtain ⟨v, hv, rfl⟩ : ∃ v, σ.get? j = some v ∧ Ty.replace i t v = u := by
        simpa [get?_extend? hi h, hji] using hu
      rcases Ty.mem_vars_replace hk with ⟨hkv, hki⟩ | hkt
      · exact ⟨v, hv, hkv, by simpa [get?_extend? hi h, hki] using hmapped⟩
      · exact absurd hmapped (hunmapped k hkt)
  intro j hj
  exact hσ j (TransGen.mono hedges j j hj)

end Acyclic

end Subst

end Monotype
