import Monotype.Proofs.Subst.Resolved
import Monotype.Proofs.Ty.Rename

/-!
# Renaming substitutions

A substitution is renamed in its keys and in its values, and its entries keep their order.  No key
is repeated afterwards, since the renaming is injective.

All operations on substitutions commute with renaming: they compare variables with each other, and
never look at their numbers.  `Subst.resolveWithin?_rename` and `Subst.extendWithin?_rename` say so,
up to the limit to how deeply an application may nest.
-/

namespace Monotype

/-- A map is determined by its entries. -/
theorem OrderedMap.eq_of_entries_eq {κ ν : Type} {m n : OrderedMap κ ν}
    (h : m.entries = n.entries) :
    m = n := by
  cases m
  cases n
  cases h
  rfl

def renameEntry (ρ : Int → Int) (e : Int × Ty) : Int × Ty := (ρ e.1, e.2.rename ρ)

theorem keys_map_renameEntry (ρ : Int → Int) (es : List (Int × Ty)) :
    Entries.keys (es.map (renameEntry ρ)) = (Entries.keys es).map ρ := by
  simp [Entries.keys, renameEntry]

/-- An injective renaming keeps apart what is looked up. -/
theorem lookup_map_renameEntry (ρ : Int ↪ Int) (es : List (Int × Ty)) (i : Int) :
    (es.map (renameEntry ρ)).lookup (ρ i) = (es.lookup i).map (Ty.rename ρ) := by
  induction es with
  | nil => rfl
  | cons e es ih =>
      rcases e with ⟨j, t⟩
      by_cases hij : i = j
      · simp [renameEntry, hij]
      · simp [renameEntry, Entries.lookup_cons, hij, ih]

theorem put_map_renameEntry (ρ : Int ↪ Int) (i : Int) (t : Ty) (es : List (Int × Ty)) :
    Entries.put (ρ i) (t.rename ρ) (es.map (renameEntry ρ)) =
      (Entries.put i t es).map (renameEntry ρ) := by
  induction es with
  | nil => rfl
  | cons e es ih =>
      rcases e with ⟨j, u⟩
      by_cases hji : j = i
      · simp [Entries.put, renameEntry, hji]
      · have hne : ρ j ≠ ρ i := ρ.injective.ne hji
        simpa [Entries.put, renameEntry, hji, hne] using ih

/-- Replacing all values commutes with renaming, if every single replacement does. -/
theorem traverse_map_renameEntry {ρ : Int → Int} {f f' : Ty → Option Ty}
    (h : ∀ t, f' (t.rename ρ) = (f t).map (Ty.rename ρ)) (es : List (Int × Ty)) :
    (Entries.traverse f' (es.map (renameEntry ρ))).map Subtype.val =
      (Entries.traverse f es).map fun out => out.val.map (renameEntry ρ) := by
  induction es with
  | nil => rfl
  | cons e es ih =>
      rcases e with ⟨j, u⟩
      -- The type of the output depends on the list, which is therefore opened before anything else.
      change (Entries.traverse f' ((ρ j, u.rename ρ) :: es.map (renameEntry ρ))).map Subtype.val = _
      cases hu : f u with
      | none => simp [Entries.traverse, h, hu]
      | some w =>
          cases hes : Entries.traverse f es with
          | none =>
              rw [hes] at ih
              simp [Entries.traverse, h, hu, hes, Option.map_eq_none_iff.1 ih]
          | some out =>
              rw [hes] at ih
              obtain ⟨out', hout', hval⟩ := Option.map_eq_some_iff.1 ih
              simp [Entries.traverse, renameEntry, h, hu, hes, hout', hval]

namespace Subst

def rename (ρ : Int ↪ Int) (σ : Subst) : Subst where
  entries := σ.entries.map (renameEntry ρ)
  nodup := by
    rw [keys_map_renameEntry]
    exact List.Pairwise.map ρ (fun _ _ hne => ρ.injective.ne hne) σ.nodup

variable (ρ : Int ↪ Int)

@[simp] theorem size_rename (σ : Subst) : (σ.rename ρ).size = σ.size :=
  List.length_map ..

theorem rename_single (i : Int) (t : Ty) :
    rename ρ (OrderedMap.single i t) = OrderedMap.single (ρ i) (t.rename ρ) := rfl

/-- A renamed key has the renamed value. -/
@[simp] theorem get?_rename (σ : Subst) (i : Int) :
    (σ.rename ρ).get? (ρ i) = (σ.get? i).map (Ty.rename ρ) :=
  lookup_map_renameEntry ρ σ.entries i

/-- Replacements commute with renaming, step by step. -/
theorem expand_rename (σ : Subst) (n : Nat) (i : Int) :
    (σ.rename ρ).expand n (ρ i) = (σ.expand n i).map (Ty.rename ρ) := by
  induction n generalizing i with
  | zero => cases hi : σ.get? i <;> simp [expand, hi]
  | succ n ih =>
      cases hi : σ.get? i with
      | none => simp [expand, hi]
      | some t => simpa [expand, hi] using Ty.bind?_rename ih t

/-- Applying a substitution commutes with renaming. -/
theorem resolve?_rename (σ : Subst) (t : Ty) :
    (σ.rename ρ).resolve? (t.rename ρ) = (σ.resolve? t).map (Ty.rename ρ) := by
  rw [resolve?, size_rename]
  exact Ty.bind?_rename (expand_rename ρ σ σ.size) t

/-- Renaming does not change how deeply an application nests. -/
theorem fits_rename (σ : Subst) (n : Nat) (t : Ty) :
    (σ.rename ρ).fits n (t.rename ρ) = σ.fits n t := by
  induction n using Nat.strongRecOn generalizing t with
  | ind n ih =>
      cases n with
      | zero => rfl
      | succ n =>
          cases t with
          | unknown => rfl
          | var i =>
              cases hi : σ.get? i with
              | none => simp [fits, hi]
              | some t => simpa [fits, hi] using ih n (Nat.lt_succ_self n) t
          | const c => rfl
          | fn ps r =>
              cases n with
              | zero => simp [fits]
              | succ n =>
                  have hps : ∀ p, (σ.rename ρ).fits n (p.rename ρ) = σ.fits n p :=
                    ih n (Nat.lt_succ_of_lt (Nat.lt_succ_self n))
                  simp [fits, hps, ih (n + 1) (Nat.lt_succ_self _), Function.comp_def]

@[simp] theorem resolveWithin?_rename (limit : Option Nat) (σ : Subst) (t : Ty) :
    (σ.rename ρ).resolveWithin? limit (t.rename ρ) =
      (σ.resolveWithin? limit t).map (Ty.rename ρ) := by
  simp only [resolveWithin?, fits_rename, resolve?_rename]
  split <;> rfl

/-- Adding an entry commutes with renaming. -/
theorem extend?_rename (σ : Subst) (i : Int) (t : Ty) :
    (σ.rename ρ).extend? (ρ i) (t.rename ρ) = (σ.extend? i t).map (rename ρ) := by
  have hstep : ∀ u, resolve? (OrderedMap.single (ρ i) (t.rename ρ)) (u.rename ρ) =
      (resolve? (OrderedMap.single i t) u).map (Ty.rename ρ) :=
    resolve?_rename ρ (OrderedMap.single i t)
  have hentries := traverse_map_renameEntry hstep σ.entries
  cases hout : Entries.traverse (resolve? (OrderedMap.single i t)) σ.entries with
  | none =>
      rw [hout] at hentries
      simp [extend?, OrderedMap.traverse, hout, rename, Option.map_eq_none_iff.1 hentries]
  | some out =>
      rw [hout] at hentries
      obtain ⟨out', hout', hval⟩ := Option.map_eq_some_iff.1 hentries
      simp only [extend?, OrderedMap.traverse, hout, rename, hout', Option.map_some,
        Option.some.injEq]
      apply OrderedMap.eq_of_entries_eq
      simp only [OrderedMap.insert, hval, put_map_renameEntry]

@[simp] theorem extendWithin?_rename (limit : Option Nat) (σ : Subst) (i : Int) (t : Ty) :
    (σ.rename ρ).extendWithin? limit (ρ i) (t.rename ρ) =
      (σ.extendWithin? limit i t).map (rename ρ) := by
  have hfits :
      ∀ n, (σ.rename ρ).entries.all (fun e => fits (OrderedMap.single (ρ i) (t.rename ρ)) n e.2) =
      σ.entries.all fun e => fits (OrderedMap.single i t) n e.2 := by
    intro n
    have hentries : (σ.rename ρ).entries = σ.entries.map (renameEntry ρ) := rfl
    simp only [hentries, List.all_map, ← rename_single, Function.comp_def, renameEntry, fits_rename]
  simp only [extendWithin?, hfits, extend?_rename]
  split <;> rfl

end Subst

end Monotype
