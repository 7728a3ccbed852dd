import Monotype.Equation
import Monotype.Proofs.Subst.Resolved
import Monotype.Unify.Basic

/-!
# What equations imply

A solution `θ` relates two types when it makes them equal.  Such a relation is an equivalence,
function types respect it, and it passes from two function types with equally many parameters to
their parts: it is *unifying*.  The least unifying relation that holds the equations of a list says
what they imply (`Derivable`), so whatever is derivable holds under every solution
(`Derivable.holds`).

A conflict is genuine for a relation when that relation holds an equation that no solution
satisfies: two types with different heads, two function types with different numbers of parameters,
or a variable and a larger type that mentions it.  No solution has a genuine conflict
(`Conflict.not_genuine_graft`).
-/

namespace Monotype

namespace Ty

/-- The relation is an equivalence that function types respect, and that passes to the parts of
function types with equally many parameters. -/
structure Unifying (R : Ty → Ty → Prop) : Prop where
  refl : ∀ t, R t t
  symm : ∀ {a b}, R a b → R b a
  trans : ∀ {a b c}, R a b → R b c → R a c
  form : ∀ {ps qs r s}, ps.length = qs.length → (∀ p q, (p, q) ∈ ps.zip qs → R p q) → R r s →
    R (.fn ps r) (.fn qs s)
  param : ∀ {ps qs r s}, R (.fn ps r) (.fn qs s) → ps.length = qs.length →
    ∀ p q, (p, q) ∈ ps.zip qs → R p q
  result : ∀ {ps qs r s}, R (.fn ps r) (.fn qs s) → ps.length = qs.length → R r s

def EqualUnder (θ : Int → Ty) (a b : Ty) : Prop := a.bind θ = b.bind θ

/-- The types that a graft makes equal form such a relation. -/
theorem unifying_equalUnder (θ : Int → Ty) : Unifying (EqualUnder θ) where
  refl := fun _ => rfl
  symm := Eq.symm
  trans := Eq.trans
  form := by
    intro ps qs r s hlen hps hr
    have hmap : ps.map (bind θ) = qs.map (bind θ) := (map_eq_map_iff_zip ps qs hlen).2 hps
    have hres : r.bind θ = s.bind θ := hr
    simp [EqualUnder, hmap, hres]
  param := by
    intro ps qs r s h hlen
    have hparts : ps.map (bind θ) = qs.map (bind θ) ∧ r.bind θ = s.bind θ := by
      simpa [EqualUnder] using h
    exact (map_eq_map_iff_zip ps qs hlen).1 hparts.1
  result := by
    intro ps qs r s h _
    have hparts : ps.map (bind θ) = qs.map (bind θ) ∧ r.bind θ = s.bind θ := by
      simpa [EqualUnder] using h
    exact hparts.2

namespace Unifying

variable {R : Ty → Ty → Prop}

/-- A relation that links variables to their grafts links types to theirs. -/
theorem bind (hR : Unifying R) {f : Int → Ty} {t : Ty} (h : ∀ i ∈ t.vars, R (.var i) (f i)) :
    R t (t.bind f) := by
  induction t with
  | unknown => exact hR.refl _
  | var i => exact h i (by simp)
  | const c => exact hR.refl _
  | fn ps r ihp ihr =>
      have hps : ∀ p q, (p, q) ∈ ps.zip (ps.map (Ty.bind f)) → R p q := by
        intro p q hpq
        have hp : p ∈ ps := (List.of_mem_zip hpq).1
        have hq : p.bind f = q :=
          (map_eq_map_iff_zip (g := id) ps _ (by simp)).1 (by simp) p q hpq
        exact hq ▸ ihp p hp fun i hi => h i (mem_vars_fn.2 (Or.inl ⟨p, hp, hi⟩))
      have hr : R r (r.bind f) := ihr fun i hi => h i (mem_vars_fn.2 (Or.inr hi))
      simpa using hR.form (by simp) hps hr

theorem bind? (hR : Unifying R) {f : Int → Option Ty} (hf : ∀ i w, f i = some w → R (.var i) w)
    {t u : Ty} (h : t.bind? f = some u) : R t u := by
  have hsome : (t.bind? f).isSome := by simp [h]
  rw [← bind?_eq_bind_orElse h .unknown]
  apply hR.bind
  intro i hi
  obtain ⟨w, hw⟩ := Option.isSome_iff_exists.1 (isSome_of_bind? hsome i hi)
  simpa [orElse, hw] using hf i w hw

/-- A relation that links a variable to a type allows the replacement. -/
theorem replace (hR : Unifying R) {i : Int} {t : Ty} (h : R (.var i) t) (u : Ty) :
    R u (Ty.replace i t u) := by
  apply hR.bind
  intro j _
  by_cases hji : j = i
  · simpa [hji] using h
  · simpa [hji] using hR.refl (.var j)

end Unifying

end Ty

/-! ## Derivable equations -/

namespace Equation

/-- The graft makes both sides equal. -/
def Holds (θ : Int → Ty) (e : Equation) : Prop := e.left.bind θ = e.right.bind θ

/-- Some graft makes both sides of every equation equal. -/
def Unifiable (es : List Equation) : Prop := ∃ θ : Int → Ty, ∀ e ∈ es, e.Holds θ

/-- `unknown` occurs on neither side. -/
def Known (e : Equation) : Prop := e.left.Known ∧ e.right.Known

instance : DecidablePred Known := fun _ => inferInstanceAs (Decidable (_ ∧ _))

/-- The equation follows from those of a list: by equivalence, by forming function types, or by
taking apart function types with equally many parameters. -/
inductive Derivable (es : List Equation) : Ty → Ty → Prop where
  | given {e : Equation} (h : e ∈ es) : Derivable es e.left e.right
  | refl (t : Ty) : Derivable es t t
  | symm {a b : Ty} (h : Derivable es a b) : Derivable es b a
  | trans {a b c : Ty} (h₁ : Derivable es a b) (h₂ : Derivable es b c) : Derivable es a c
  | form {ps qs : List Ty} {r s : Ty} (hlen : ps.length = qs.length)
      (hps : ∀ p q, (p, q) ∈ ps.zip qs → Derivable es p q) (hr : Derivable es r s) :
      Derivable es (.fn ps r) (.fn qs s)
  | param {ps qs : List Ty} {r s p q : Ty} (h : Derivable es (.fn ps r) (.fn qs s))
      (hlen : ps.length = qs.length) (hpq : (p, q) ∈ ps.zip qs) : Derivable es p q
  | result {ps qs : List Ty} {r s : Ty} (h : Derivable es (.fn ps r) (.fn qs s))
      (hlen : ps.length = qs.length) : Derivable es r s

/-- What follows from equations forms such a relation. -/
theorem unifying_derivable (es : List Equation) : Ty.Unifying (Derivable es) where
  refl := Derivable.refl
  symm := Derivable.symm
  trans := Derivable.trans
  form := Derivable.form
  param := fun h hlen _ _ hpq => Derivable.param h hlen hpq
  result := Derivable.result

namespace Derivable

/-- `Derivable es` is the least unifying relation that holds the equations. -/
theorem least {es : List Equation} {R : Ty → Ty → Prop} (hR : Ty.Unifying R)
    (hes : ∀ e ∈ es, R e.left e.right) {a b : Ty} (h : Derivable es a b) : R a b := by
  induction h with
  | given he => exact hes _ he
  | refl t => exact hR.refl t
  | symm _ ih => exact hR.symm ih
  | trans _ _ ih₁ ih₂ => exact hR.trans ih₁ ih₂
  | form hlen _ _ ihp ihr => exact hR.form hlen ihp ihr
  | param _ hlen hpq ih => exact hR.param ih hlen _ _ hpq
  | result _ hlen ih => exact hR.result ih hlen

/-- What is derivable holds under every solution. -/
theorem holds {es : List Equation} {θ : Int → Ty} (hθ : ∀ e ∈ es, e.Holds θ) {a b : Ty}
    (h : Derivable es a b) : a.bind θ = b.bind θ :=
  h.least (Ty.unifying_equalUnder θ) hθ

end Derivable

end Equation

/-! ## Genuine conflicts -/

def Ty.Clash : Ty → Ty → Prop
  | .const c, .const d => c ≠ d
  | .const _, .fn _ _ => True
  | .fn _ _, .const _ => True
  | _, _ => False

/-- No graft repairs a clash. -/
theorem Ty.Clash.bind_ne {a b : Ty} (h : Ty.Clash a b) (θ : Int → Ty) : a.bind θ ≠ b.bind θ := by
  intro heq
  cases a with
  | unknown => cases b <;> exact h
  | var i => cases b <;> exact h
  | const c =>
      cases b with
      | unknown => exact h
      | var j => exact h
      | const d => exact h (by simpa using heq)
      | fn qs s => simp at heq
  | fn ps r =>
      cases b with
      | unknown => exact h
      | var j => exact h
      | const d => simp at heq
      | fn qs s => exact h

namespace Conflict

/-- The relation holds an equation that shows the conflict. -/
def Genuine (R : Ty → Ty → Prop) : Conflict → Prop
  | .mismatch a b => R a b ∧ Ty.Clash a b
  | .arity m n => m ≠ n ∧
      ∃ ps r qs s, R (.fn ps r) (.fn qs s) ∧ ps.length = m ∧ qs.length = n
  | .infinite i t => R (.var i) t ∧ t ≠ .var i ∧ i ∈ t.vars

/-- A conflict that a relation shows, a larger one shows too. -/
theorem Genuine.mono {R S : Ty → Ty → Prop} (hRS : ∀ a b, R a b → S a b) {c : Conflict}
    (h : c.Genuine R) : c.Genuine S := by
  cases c with
  | mismatch a b => exact ⟨hRS a b h.1, h.2⟩
  | arity m n =>
      rcases h with ⟨hne, ps, r, qs, s, hR, hps, hqs⟩
      exact ⟨hne, ps, r, qs, s, hRS _ _ hR, hps, hqs⟩
  | infinite i t => exact ⟨hRS _ _ h.1, h.2⟩

/-- No graft makes two types equal that are in genuine conflict. -/
theorem not_genuine_graft (θ : Int → Ty) (c : Conflict) : ¬ c.Genuine (Ty.EqualUnder θ) := by
  intro h
  cases c with
  | mismatch a b =>
      rcases h with ⟨heq, hclash⟩
      exact hclash.bind_ne θ heq
  | arity m n =>
      rcases h with ⟨hne, ps, r, qs, s, heq, hps, hqs⟩
      have hmap : ps.map (Ty.bind θ) = qs.map (Ty.bind θ) := by
        have hparts : ps.map (Ty.bind θ) = qs.map (Ty.bind θ) ∧ r.bind θ = s.bind θ := by
          simpa [Ty.EqualUnder] using heq
        exact hparts.1
      have hlen : ps.length = qs.length := by simpa using congrArg List.length hmap
      exact hne (by simpa [hps, hqs] using hlen)
  | infinite i t =>
      rcases h with ⟨heq, hne, hi⟩
      have hlt : (θ i).size < (t.bind θ).size := Ty.size_lt_size_bind hi hne
      have hsize : (θ i).size = (t.bind θ).size := congrArg Ty.size heq
      exact absurd hsize (Nat.ne_of_lt hlt)

end Conflict

end Monotype
