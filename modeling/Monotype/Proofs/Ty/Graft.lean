import Monotype.Ty.Basic

/-!
# The algebra of grafts

`Ty.bind f` puts `f i` in the place of every variable `i`.  This file proves the laws that the
theory of unification rests on:

* a graft depends on the variables of the type, and exactly on them (`bind_eq_bind_iff`);
* two grafts in a row are one graft (`bind_bind`);
* what is grafted onto a variable strictly inside a type is smaller than the whole
  (`size_lt_size_bind`), so that no graft solves an equation that the occurs check refuses;
* a graft that may fail is determined by the total grafts that extend it
  (`bind?_eq_bind?_of_orElse`).

`Ty.Known` singles out the types in which `unknown` does not occur.
-/

namespace Monotype

namespace Ty

/-! ## Parts of function types -/

theorem mem_vars_fn {ps : List Ty} {r : Ty} {i : Int} :
    i ∈ (Ty.fn ps r).vars ↔ (∃ p ∈ ps, i ∈ p.vars) ∨ i ∈ r.vars := by
  simp

theorem map_eq_map_iff_zip {f g : Ty → Ty} (ps qs : List Ty) (hlen : ps.length = qs.length) :
    ps.map f = qs.map g ↔ ∀ p q, (p, q) ∈ ps.zip qs → f p = g q := by
  induction ps generalizing qs with
  | nil =>
      have hqs : qs = [] := List.length_eq_zero_iff.1 hlen.symm
      simp [hqs]
  | cons p ps ih =>
      cases qs with
      | nil => simp at hlen
      | cons q qs =>
          have hrest := ih qs (by simpa using hlen)
          simp only [List.map_cons, List.cons.injEq, List.zip_cons_cons, List.mem_cons, hrest]
          constructor
          · rintro ⟨hhead, htail⟩ p' q' (h | h)
            · cases h
              exact hhead
            · exact htail p' q' h
          · intro h
            exact ⟨h p q (Or.inl rfl), fun p' q' h' => h p' q' (Or.inr h')⟩

theorem size_le_sizeAll {t : Ty} {ts : List Ty} (h : t ∈ ts) : t.size ≤ sizeAll ts := by
  induction ts with
  | nil => cases h
  | cons u ts ih =>
      rcases List.mem_cons.1 h with rfl | h
      · exact Nat.le_add_right _ _
      · exact Nat.le_trans (ih h) (Nat.le_add_left _ _)

/-! ## Total grafts -/

/-- A graft depends on the variables of the type only. -/
theorem bind_congr {f g : Int → Ty} {t : Ty} (h : ∀ i ∈ t.vars, f i = g i) :
    t.bind f = t.bind g := by
  induction t with
  | unknown => rfl
  | var i => exact h i (by simp)
  | const c => rfl
  | fn ps r ihp ihr =>
      have hps : ps.map (bind f) = ps.map (bind g) := by
        apply List.map_congr_left
        intro p hp
        exact ihp p hp fun i hi => h i (mem_vars_fn.2 (Or.inl ⟨p, hp, hi⟩))
      have hr : r.bind f = r.bind g := ihr fun i hi => h i (mem_vars_fn.2 (Or.inr hi))
      simp [hps, hr]

/-- A graft can be read off from its result. -/
theorem bind_eq_bind_iff {f g : Int → Ty} {t : Ty} :
    t.bind f = t.bind g ↔ ∀ i ∈ t.vars, f i = g i := by
  refine ⟨?_, bind_congr⟩
  induction t with
  | unknown => simp
  | var i => simp
  | const c => simp
  | fn ps r ihp ihr =>
      intro h i hi
      have hparts : ps.map (bind f) = ps.map (bind g) ∧ r.bind f = r.bind g := by
        simpa using h
      rcases mem_vars_fn.1 hi with ⟨p, hp, hip⟩ | hir
      · exact ihp p hp (List.map_inj_left.1 hparts.1 p hp) i hip
      · exact ihr hparts.2 i hir

/-- Two grafts in a row are one. -/
theorem bind_bind (f g : Int → Ty) (t : Ty) :
    (t.bind f).bind g = t.bind fun i => (f i).bind g := by
  induction t with
  | unknown => rfl
  | var i => rfl
  | const c => rfl
  | fn ps r ihp ihr =>
      have hps : (ps.map (bind f)).map (bind g) = ps.map (bind fun i => (f i).bind g) := by
        simpa using ihp
      simp only [bind_fn, hps, ihr]

theorem bind_var_eq_self (t : Ty) : t.bind Ty.var = t := by
  induction t with
  | unknown => rfl
  | var i => rfl
  | const c => rfl
  | fn ps r ihp ihr =>
      have hps : ps.map (bind Ty.var) = ps :=
        (List.map_congr_left ihp).trans (List.map_id ps)
      simp [hps, ihr]

/-- A graft that leaves the variables of a type alone leaves the type alone. -/
theorem bind_eq_self {f : Int → Ty} {t : Ty} (h : ∀ i ∈ t.vars, f i = .var i) : t.bind f = t :=
  (bind_congr h).trans (bind_var_eq_self t)

/-- The variables after a graft come from the grafts of the variables before. -/
theorem mem_vars_bind {f : Int → Ty} {t : Ty} {j : Int} :
    j ∈ (t.bind f).vars ↔ ∃ i ∈ t.vars, j ∈ (f i).vars := by
  induction t with
  | unknown => simp
  | var i => simp
  | const c => simp
  | fn ps r ihp ihr =>
      simp only [bind_fn, mem_vars_fn, List.mem_map]
      constructor
      · rintro (⟨_, ⟨p, hp, rfl⟩, hj⟩ | hj)
        · rcases (ihp p hp).1 hj with ⟨i, hi, hji⟩
          exact ⟨i, Or.inl ⟨p, hp, hi⟩, hji⟩
        · rcases ihr.1 hj with ⟨i, hi, hji⟩
          exact ⟨i, Or.inr hi, hji⟩
      · rintro ⟨i, ⟨p, hp, hi⟩ | hi, hji⟩
        · exact Or.inl ⟨p.bind f, ⟨p, hp, rfl⟩, (ihp p hp).2 ⟨i, hi, hji⟩⟩
        · exact Or.inr (ihr.2 ⟨i, hi, hji⟩)

/-! ## Sizes -/

/-- What is grafted onto a variable of a type is no larger than the whole. -/
theorem size_le_size_bind {f : Int → Ty} {t : Ty} {i : Int} (hi : i ∈ t.vars) :
    (f i).size ≤ (t.bind f).size := by
  induction t with
  | unknown => simp at hi
  | var j =>
      have hij : i = j := by simpa using hi
      simp [hij]
  | const c => simp at hi
  | fn ps r ihp ihr =>
      simp only [bind_fn, size]
      rcases mem_vars_fn.1 hi with ⟨p, hp, hip⟩ | hir
      · have hsize := ihp p hp hip
        have hmem := size_le_sizeAll (List.mem_map_of_mem (f := bind f) hp)
        omega
      · have hsize := ihr hir
        omega

/-- What is grafted onto a proper part is smaller than the whole. -/
theorem size_lt_size_bind {f : Int → Ty} {t : Ty} {i : Int} (hi : i ∈ t.vars) (hne : t ≠ .var i) :
    (f i).size < (t.bind f).size := by
  cases t with
  | unknown => simp at hi
  | var j =>
      have hij : i = j := by simpa using hi
      exact absurd (by simp [hij]) hne
  | const c => simp at hi
  | fn ps r =>
      simp only [bind_fn, size]
      rcases mem_vars_fn.1 hi with ⟨p, hp, hip⟩ | hir
      · have hsize := size_le_size_bind (f := f) hip
        have hmem := size_le_sizeAll (List.mem_map_of_mem (f := bind f) hp)
        omega
      · have hsize := size_le_size_bind (f := f) hir
        omega

/-! ## Grafts that may fail -/

theorem bindAll?_eq_some_map {f : Int → Option Ty} {g : Ty → Ty} {ts : List Ty}
    (h : ∀ t ∈ ts, t.bind? f = some (g t)) : bindAll? f ts = some (ts.map g) := by
  induction ts with
  | nil => rfl
  | cons t ts ih =>
      have ht : t.bind? f = some (g t) := h t (by simp)
      have hts : bindAll? f ts = some (ts.map g) := ih fun u hu => h u (by simp [hu])
      simp [bindAll?, ht, hts]

/-- On a type at whose variables it does not fail, a graft that may fail is a total one. -/
theorem bind?_eq_some_bind {f : Int → Option Ty} {g : Int → Ty} {t : Ty}
    (h : ∀ i ∈ t.vars, f i = some (g i)) : t.bind? f = some (t.bind g) := by
  induction t with
  | unknown => rfl
  | var i => exact h i (by simp)
  | const c => rfl
  | fn ps r ihp ihr =>
      have hps : bindAll? f ps = some (ps.map (bind g)) :=
        bindAll?_eq_some_map fun p hp =>
          ihp p hp fun i hi => h i (mem_vars_fn.2 (Or.inl ⟨p, hp, hi⟩))
      have hr : r.bind? f = some (r.bind g) := ihr fun i hi => h i (mem_vars_fn.2 (Or.inr hi))
      simp [bind?, hps, hr]

theorem isSome_of_bindAll? {f : Int → Option Ty} {ts us : List Ty}
    (h : bindAll? f ts = some us) : ∀ t ∈ ts, (t.bind? f).isSome := by
  induction ts generalizing us with
  | nil => simp
  | cons t ts ih =>
      cases ht : t.bind? f with
      | none => simp [bindAll?, ht] at h
      | some t' =>
          cases hts : bindAll? f ts with
          | none => simp [bindAll?, ht, hts] at h
          | some ts' =>
              intro u hu
              rcases List.mem_cons.1 hu with rfl | hu
              · simp [ht]
              · exact ih hts u hu

/-- A graft that succeeds has succeeded on every variable of the type. -/
theorem isSome_of_bind? {f : Int → Option Ty} {t : Ty} (h : (t.bind? f).isSome) :
    ∀ i ∈ t.vars, (f i).isSome := by
  induction t with
  | unknown => simp
  | var i => simpa [bind?] using h
  | const c => simp
  | fn ps r ihp ihr =>
      cases hps : bindAll? f ps with
      | none => simp [bind?, hps] at h
      | some qs =>
          cases hr : r.bind? f with
          | none => simp [bind?, hps, hr] at h
          | some s =>
              intro i hi
              rcases mem_vars_fn.1 hi with ⟨p, hp, hip⟩ | hir
              · exact ihp p hp (isSome_of_bindAll? hps p hp) i hip
              · exact ihr (by simp [hr]) i hir

def orElse (f : Int → Option Ty) (d : Ty) (i : Int) : Ty := (f i).getD d

/-- A graft that succeeds does not depend on what stands in for its failures. -/
theorem bind?_eq_bind_orElse {f : Int → Option Ty} {t u : Ty} (h : t.bind? f = some u) (d : Ty) :
    t.bind (orElse f d) = u := by
  have hsome : (t.bind? f).isSome := by simp [h]
  have hdef : ∀ i ∈ t.vars, f i = some (orElse f d i) := by
    intro i hi
    obtain ⟨w, hw⟩ := Option.isSome_iff_exists.1 (isSome_of_bind? hsome i hi)
    simp [orElse, hw]
  have heq : t.bind? f = some (t.bind (orElse f d)) := bind?_eq_some_bind hdef
  simpa [h] using heq.symm

/-- Two different fillers give the same result exactly where nothing is filled in. -/
theorem isSome_bind?_iff (f : Int → Option Ty) (t : Ty) :
    (t.bind? f).isSome ↔ t.bind (orElse f .unknown) = t.bind (orElse f .int) := by
  rw [bind_eq_bind_iff]
  constructor
  · intro h i hi
    obtain ⟨w, hw⟩ := Option.isSome_iff_exists.1 (isSome_of_bind? h i hi)
    simp [orElse, hw]
  · intro h
    have hdef : ∀ i ∈ t.vars, f i = some (orElse f .unknown i) := by
      intro i hi
      have hi' := h i hi
      cases hf : f i with
      | none => simp [orElse, hf, int] at hi'
      | some w => simp [orElse, hf]
    simp [bind?_eq_some_bind hdef]

/-- Two types that agree under every stand-in agree in failing, too. -/
theorem bind?_eq_bind?_of_orElse {f : Int → Option Ty} {t u : Ty}
    (h : ∀ d, t.bind (orElse f d) = u.bind (orElse f d)) : t.bind? f = u.bind? f := by
  have hsome : (t.bind? f).isSome ↔ (u.bind? f).isSome := by
    simp only [isSome_bind?_iff, h]
  cases ht : t.bind? f with
  | none =>
      cases hu : u.bind? f with
      | none => rfl
      | some u' => simp [ht, hu] at hsome
  | some t' =>
      obtain ⟨u', hu⟩ := Option.isSome_iff_exists.1 (hsome.1 (by simp [ht]))
      have heq : t' = u' := by
        calc
          t' = t.bind (orElse f .unknown) := (bind?_eq_bind_orElse ht _).symm
          _ = u.bind (orElse f .unknown) := h _
          _ = u' := bind?_eq_bind_orElse hu _
      simp [hu, heq]

/-! ## Types without `unknown` -/

/-- `unknown` does not occur in the type. -/
inductive Known : Ty → Prop where
  | var (i : Int) : Known (.var i)
  | const (c : String) : Known (.const c)
  | fn {ps : List Ty} {r : Ty} (hps : ∀ p ∈ ps, Known p) (hr : Known r) : Known (.fn ps r)

/-- A graft of known types onto a known type is known. -/
theorem Known.bind {f : Int → Ty} {t : Ty} (ht : t.Known) (hf : ∀ i ∈ t.vars, (f i).Known) :
    (t.bind f).Known := by
  induction ht with
  | var i => exact hf i (by simp)
  | const c => exact Known.const c
  | fn hps hr ihp ihr =>
      rw [bind_fn]
      refine Known.fn ?_ (ihr fun i hi => hf i (mem_vars_fn.2 (Or.inr hi)))
      intro q hq
      rcases List.mem_map.1 hq with ⟨p, hp, rfl⟩
      exact ihp p hp fun i hi => hf i (mem_vars_fn.2 (Or.inl ⟨p, hp, hi⟩))

theorem known_fn {ps : List Ty} {r : Ty} : (Ty.fn ps r).Known ↔ (∀ p ∈ ps, p.Known) ∧ r.Known := by
  constructor
  · intro h
    cases h with
    | fn hps hr => exact ⟨hps, hr⟩
  · rintro ⟨hps, hr⟩
    exact .fn hps hr

mutual

def decKnown : (t : Ty) → Decidable t.Known
  | .unknown => isFalse nofun
  | .var i => isTrue (.var i)
  | .const c => isTrue (.const c)
  | .fn ps r =>
      match decKnownAll ps, decKnown r with
      | isTrue hps, isTrue hr => isTrue (.fn hps hr)
      | isFalse h, _ => isFalse fun hk => h (known_fn.1 hk).1
      | _, isFalse h => isFalse fun hk => h (known_fn.1 hk).2

def decKnownAll : (ts : List Ty) → Decidable (∀ t ∈ ts, t.Known)
  | [] => isTrue nofun
  | t :: ts =>
      match decKnown t, decKnownAll ts with
      | isTrue ht, isTrue hts => isTrue (List.forall_mem_cons.2 ⟨ht, hts⟩)
      | isFalse h, _ => isFalse fun hk => h (List.forall_mem_cons.1 hk).1
      | _, isFalse h => isFalse fun hk => h (List.forall_mem_cons.1 hk).2

end

instance : DecidablePred Known := decKnown

end Ty

end Monotype
