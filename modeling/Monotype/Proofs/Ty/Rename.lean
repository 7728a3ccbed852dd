import Mathlib.Logic.Embedding.Basic
import Monotype.Proofs.Ty.Graft

/-!
# Renaming type variables

Renaming is the graft of variables onto variables.  An injective renaming, an embedding of the
integers into themselves, forgets nothing: different types stay different (`Ty.rename_inj`), and the
variables keep their order of occurrence (`Ty.vars_rename`).

A graft that may fail commutes with a renaming that carries one family of values to the other
(`Ty.bind?_rename`).
-/

namespace Monotype

namespace Ty

variable {ρ ρ' : Int → Int}

@[simp] theorem rename_unknown (ρ : Int → Int) : rename ρ .unknown = .unknown := rfl
@[simp] theorem rename_var (ρ : Int → Int) (i : Int) : rename ρ (.var i) = .var (ρ i) := rfl
@[simp] theorem rename_const (ρ : Int → Int) (c : String) : rename ρ (.const c) = .const c := rfl
@[simp] theorem rename_fn (ρ : Int → Int) (ps : List Ty) (r : Ty) :
    rename ρ (.fn ps r) = .fn (ps.map (rename ρ)) (rename ρ r) :=
  bind_fn _ ps r

/-- Renamings that agree on the variables of a type rename it alike. -/
theorem rename_congr {t : Ty} (h : ∀ i ∈ t.vars, ρ i = ρ' i) : t.rename ρ = t.rename ρ' :=
  bind_congr fun i hi => congrArg Ty.var (h i hi)

theorem rename_rename (ρ ρ' : Int → Int) (t : Ty) :
    (t.rename ρ).rename ρ' = t.rename fun i => ρ' (ρ i) :=
  bind_bind _ _ t

/-- Renaming changes the variables of a type one by one. -/
theorem vars_rename (ρ : Int → Int) (t : Ty) : (t.rename ρ).vars = t.vars.map ρ := by
  induction t with
  | unknown => rfl
  | var i => rfl
  | const c => rfl
  | fn ps r ihp ihr =>
      have hps : (ps.map (rename ρ)).flatMap vars = (ps.flatMap vars).map ρ := by
        rw [List.flatMap_map, List.map_flatMap, List.flatMap_def, List.flatMap_def,
          List.map_congr_left ihp]
      simp only [rename_fn, vars_fn, List.map_append, hps, ihr]

/-- An injective renaming keeps types apart. -/
theorem rename_inj (ρ : Int ↪ Int) {t u : Ty} : t.rename ρ = u.rename ρ ↔ t = u := by
  refine ⟨?_, fun h => h ▸ rfl⟩
  intro h
  -- A left inverse of the embedding takes the renaming back.
  have hback : ∀ v : Ty, (v.rename ρ).rename (Function.invFun ρ) = v := by
    intro v
    rw [rename_rename]
    exact bind_eq_self fun i _ => congrArg Ty.var (Function.leftInverse_invFun ρ.injective i)
  rw [← hback t, h, hback]

theorem occurs_rename (ρ : Int ↪ Int) (i : Int) (t : Ty) :
    (t.rename ρ).occurs (ρ i) = t.occurs i := by
  rw [Bool.eq_iff_iff]
  simp [vars_rename]

/-! ## Grafts that may fail -/

theorem bindAll?_rename {f f' : Int → Option Ty} {ts : List Ty}
    (h : ∀ t ∈ ts, (t.rename ρ).bind? f' = (t.bind? f).map (rename ρ)) :
    bindAll? f' (ts.map (rename ρ)) = (bindAll? f ts).map (List.map (rename ρ)) := by
  induction ts with
  | nil => rfl
  | cons t ts ih =>
      have ht := h t (by simp)
      have hts := ih fun u hu => h u (by simp [hu])
      cases ht' : t.bind? f with
      | none => simp [bindAll?, ht, ht']
      | some u => cases hts' : bindAll? f ts <;> simp [bindAll?, ht, ht', hts, hts']

/-- A graft that may fail commutes with renaming, if it does so on variables. -/
theorem bind?_rename {f f' : Int → Option Ty} (h : ∀ i, f' (ρ i) = (f i).map (rename ρ)) (t : Ty) :
    (t.rename ρ).bind? f' = (t.bind? f).map (rename ρ) := by
  induction t with
  | unknown => rfl
  | var i => exact h i
  | const c => rfl
  | fn ps r ihp ihr =>
      have hps := bindAll?_rename ihp
      cases hps' : bindAll? f ps with
      | none => simp [bind?, hps, hps']
      | some qs => cases hr' : r.bind? f <;> simp [bind?, hps, hps', ihr, hr']

end Ty

end Monotype
