import Mathlib.SetTheory.Cardinal.Arithmetic
import Monotype.Proofs.Ty.Normal

/-!
# Variants

Two types that are instances of each other differ by the names of their variables only.  The two
grafts are then renamings, each undoing the other (`Ty.exists_rename_of_instances`), and a renaming
that is injective where it is looked at keeps the normal form (`Ty.normal_rename_of_injOn`).  So
instances of each other have one normal form (`Ty.normal_eq_of_instances`).

The normal form is a variant too: different variables get different numbers, and the numbers come up
in their order (`Ty.distinctVars_normal`).

Main statement: types have one normal form exactly if they are variants, and the normal form is the
variant with the variables 0, 1, … in order of first occurrence
(`Ty.normal_eq_iff_renamed_and_numbered`).
-/

namespace Monotype

/-- A map that is injective on finitely many integers agrees there with a permutation. -/
theorem exists_perm_eqOn {s : Set Int} (hs : s.Finite) {f : Int → Int} (hf : Set.InjOn f s) :
    ∃ π : Int ≃ Int, ∀ i ∈ s, π i = f i := by
  have hcard : Cardinal.mk s < Cardinal.mk Int :=
    (Cardinal.lt_aleph0_iff_set_finite.2 hs).trans_le (Cardinal.aleph0_le_mk Int)
  obtain ⟨π, hπ⟩ := Cardinal.extend_function_of_lt
    (⟨fun i : s => f i, hf.injective⟩ : s ↪ Int) hcard ⟨Equiv.refl Int⟩
  exact ⟨π, fun i hi => hπ ⟨i, hi⟩⟩

namespace Ty

/-- A renaming that keeps the variables of a type apart does not change its normal form. -/
theorem normal_rename_of_injOn {ρ : Int → Int} {t : Ty} (hρ : Set.InjOn ρ {i | i ∈ t.vars}) :
    (t.rename ρ).normal = t.normal := by
  obtain ⟨π, hπ⟩ := exists_perm_eqOn (List.finite_toSet t.vars) hρ
  have hrename : t.rename ρ = t.rename π := rename_congr fun i hi => (hπ i hi).symm
  rw [hrename]
  exact normal_rename π.toEmbedding t

/-- A graft gives a variable only where it grafts one onto a variable. -/
theorem bind_eq_var_iff {f : Int → Ty} {t : Ty} {i : Int} :
    t.bind f = .var i ↔ ∃ j, t = .var j ∧ f j = .var i := by
  cases t <;> simp

/-- A graft that another one undoes is a renaming, and an injective one. -/
theorem exists_rename_of_instances {f g : Int → Ty} {t : Ty} (h : (t.bind f).bind g = t) :
    ∃ ρ : Int → Int, Set.InjOn ρ {i | i ∈ t.vars} ∧ t.bind f = t.rename ρ := by
  have hback : ∀ i ∈ t.vars, (f i).bind g = .var i := by
    rw [bind_bind] at h
    exact bind_eq_bind_iff.1 (h.trans (bind_var_eq_self t).symm)
  -- Only a variable is grafted into a variable, so every value of `f` that matters is one.
  have hvalues : ∀ i, ∃ j, i ∈ t.vars → f i = .var j ∧ g j = .var i := by
    intro i
    by_cases hi : i ∈ t.vars
    · obtain ⟨j, hj⟩ := bind_eq_var_iff.1 (hback i hi)
      exact ⟨j, fun _ => hj⟩
    · exact ⟨0, fun hi' => absurd hi' hi⟩
  choose ρ hρ using hvalues
  refine ⟨ρ, ?_, bind_congr fun i hi => (hρ i hi).1⟩
  intro i hi j hj hij
  have hsame : Ty.var i = Ty.var j := by
    calc
      Ty.var i = g (ρ i) := (hρ i hi).2.symm
      _ = g (ρ j) := by rw [hij]
      _ = Ty.var j := (hρ j hj).2
  exact Ty.var.inj hsame

/-- Types that are instances of each other have the same normal form. -/
theorem normal_eq_of_instances {f g : Int → Ty} {t u : Ty} (hf : t.bind f = u) (hg : u.bind g = t) :
    t.normal = u.normal := by
  have hundo : (t.bind f).bind g = t := by rw [hf, hg]
  obtain ⟨ρ, hρ, hrename⟩ := exists_rename_of_instances hundo
  rw [← hf, hrename, normal_rename_of_injOn hρ]

/-! ## Canonical forms -/

/-- First occurrences are not repeated. -/
theorem nodup_eraseDups (is : List Int) : is.eraseDups.Nodup := by
  -- As in `eraseDups_map`, what is left after the first element is only known to be shorter.
  induction hn : is.length using Nat.strongRecOn generalizing is with
  | ind n ih =>
      cases is with
      | nil => exact List.nodup_nil
      | cons i is =>
          have hlt : (is.filter fun j => !j == i).length < n :=
            hn ▸ Nat.lt_succ_of_le (List.length_filter_le _ _)
          rw [List.eraseDups_cons, List.nodup_cons]
          exact ⟨by simp, ih _ hlt _ rfl⟩

theorem mem_distinctVars {t : Ty} {i : Int} : i ∈ t.distinctVars ↔ i ∈ t.vars :=
  List.mem_eraseDups

/-- In a list without repetitions, the elements stand at the places 0, 1, … -/
theorem map_idxOf_eq_range {is : List Int} (h : is.Nodup) :
    is.map (fun i => (is.idxOf i : Int)) = (List.range is.length).map Int.ofNat := by
  apply List.ext_getElem
  · simp
  · intro n hn _
    have hn' : n < is.length := by simpa using hn
    simp [h.idxOf_getElem n hn']

/-- The normal form is a renaming of the type, and a permutation of all variables does it. -/
theorem exists_perm_rename_normal (t : Ty) :
    ∃ π : Int ≃ Int, t.rename π = t.normal ∧ ∀ i ∈ t.vars, π i = t.distinctVars.idxOf i := by
  have hinj : Set.InjOn (fun i => (t.distinctVars.idxOf i : Int)) {i | i ∈ t.vars} := by
    intro i hi j _ hij
    exact (List.idxOf_inj (mem_distinctVars.2 hi)).1 (Int.ofNat.inj hij)
  obtain ⟨π, hπ⟩ := exists_perm_eqOn (List.finite_toSet t.vars) hinj
  exact ⟨π, (rename_congr hπ).trans (normal_eq_rename t).symm, hπ⟩

/-- The distinct variables of a normal form are the numbers from 0 on. -/
theorem distinctVars_normal (t : Ty) :
    t.normal.distinctVars = (List.range t.distinctVars.length).map Int.ofNat := by
  obtain ⟨π, hπ, hnumbers⟩ := exists_perm_rename_normal t
  calc
    t.normal.distinctVars = t.distinctVars.map π := by
      rw [← hπ]
      exact distinctVars_rename π.toEmbedding t
    _ = t.distinctVars.map fun i => (t.distinctVars.idxOf i : Int) :=
      List.map_congr_left fun i hi => hnumbers i (mem_distinctVars.1 hi)
    _ = (List.range t.distinctVars.length).map Int.ofNat :=
      map_idxOf_eq_range (nodup_eraseDups t.vars)

/-- Types with one normal form are renamings of each other: go to the normal form and come back. -/
theorem exists_perm_rename_of_normal_eq {a b : Ty} (h : a.normal = b.normal) :
    ∃ π : Int ≃ Int, a.rename π = b := by
  obtain ⟨π, hπ, _⟩ := exists_perm_rename_normal a
  obtain ⟨π', hπ', _⟩ := exists_perm_rename_normal b
  refine ⟨π.trans π'.symm, ?_⟩
  calc
    a.rename (π.trans π'.symm) = (a.rename π).rename π'.symm := (rename_rename π π'.symm a).symm
    _ = (b.rename π').rename π'.symm := by rw [hπ, h, hπ']
    _ = b := by
      rw [rename_rename]
      exact bind_eq_self fun i _ => congrArg Ty.var (π'.symm_apply_apply i)

/-- Types have one normal form exactly if an injective renaming turns the one into the other; it is
enough that it is injective on the variables that occur.  The normal form is itself such a renaming
of the type: its variables, in order of first occurrence, are as many numbers from 0 on as the type
has variables, so that it is its own normal form. -/
theorem normal_eq_iff_renamed_and_numbered :
    (∀ a b : Ty, a.normal = b.normal ↔ ∃ ρ : Int ↪ Int, a.rename ρ = b) ∧
    (∀ a b : Ty, a.normal = b.normal ↔
      ∃ ρ : Int → Int, Set.InjOn ρ {i | i ∈ a.vars} ∧ a.rename ρ = b) ∧
    ∀ t : Ty, (∃ ρ : Int ↪ Int, t.rename ρ = t.normal) ∧
      t.normal.distinctVars = (List.range t.distinctVars.length).map Int.ofNat ∧
      t.normal.normal = t.normal := by
  refine ⟨?_, ?_, ?_⟩
  · intro a b
    constructor
    · intro h
      obtain ⟨π, hπ⟩ := exists_perm_rename_of_normal_eq h
      exact ⟨π.toEmbedding, hπ⟩
    · rintro ⟨ρ, rfl⟩
      exact (normal_rename ρ a).symm
  · intro a b
    constructor
    · intro h
      obtain ⟨π, hπ⟩ := exists_perm_rename_of_normal_eq h
      exact ⟨π, π.injective.injOn, hπ⟩
    · rintro ⟨ρ, hρ, rfl⟩
      exact (normal_rename_of_injOn hρ).symm
  · intro t
    obtain ⟨π, hπ, _⟩ := exists_perm_rename_normal t
    refine ⟨⟨π.toEmbedding, hπ⟩, distinctVars_normal t, ?_⟩
    have hkept : (t.rename π).normal = t.normal := normal_rename π.toEmbedding t
    rwa [hπ] at hkept

end Ty

end Monotype
