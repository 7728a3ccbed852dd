import Monotype.Infer
import Monotype.Proofs.Unify.Run

/-!
# Solving lists of equations

Solving takes the equations in order and threads one substitution through their runs.  The facts
about runs carry over: a unifying relation holds the bindings of the answer exactly when it holds
the equations (`holds_iff_of_solve`), and an equation that cannot be solved shows a genuine
conflict.  What inference answers for a whole term is read off the outcome
(`Generated.rootType_of_ok`, `Generated.rootType_of_error`).

Main statements: solving computes a most general solution exactly when there is a solution
(`solve_ok_iff_unifiable_and_mostGeneral`), and a fault names the first equation that cannot be
solved together with the earlier ones, with a conflict that these equations imply
(`solve_error_first_genuine`).
-/

namespace Monotype

open Equation (Derivable Unifiable)
open Unify (Run run_unify)

namespace Subst

/-- Applying the substitution to both sides ends, with the same type. -/
def Equates (θ : Subst) (e : Equation) : Prop :=
  ∃ u, θ.resolve? e.left = some u ∧ θ.resolve? e.right = some u

/-- A flat substitution makes sides equal exactly as its graft does. -/
theorem Resolved.equates_iff {σ : Subst} (hσ : σ.Resolved) (e : Equation) :
    σ.Equates e ↔ e.Holds σ.assign := by
  simp only [Equates, hσ.resolve?_eq, Option.some.injEq, Equation.Holds]
  constructor
  · rintro ⟨u, hl, hr⟩
    exact hl.trans hr.symm
  · intro h
    exact ⟨_, h, rfl⟩

/-- A resolved substitution satisfies its own bindings. -/
theorem Resolved.holds_assign {σ : Subst} (hσ : σ.Resolved) : σ.Holds (Ty.EqualUnder σ.assign) := by
  intro i t hi
  have hassign : σ.assign i = t := assign_of_get? hi
  simpa [Ty.EqualUnder, hassign] using (hσ.assign_bind_assign i).symm

end Subst

/-! ## Runs over a list of equations -/

/-- A list of equations is solved one after the other. -/
theorem solveFrom_cons_ok {limit : Option Nat} {σ σ' : Subst} {e : Equation} {es : List Equation} :
    (solveFrom limit σ (e :: es)).outcome = .ok σ' ↔
      ∃ σ₁, (Unify.unify limit σ [(e.left, e.right)]).outcome = .ok σ₁ ∧
        (solveFrom limit σ₁ es).outcome = .ok σ' := by
  cases h : (Unify.unify limit σ [(e.left, e.right)]).outcome with
  | error o => simp [solveFrom, h]
  | ok σ₁ => simp [solveFrom, h]

/-- Solving looks at the sides of the equations, and not at the terms that they come from. -/
theorem solveFrom_ok_of_sides {limit : Option Nat} {σ σ' : Subst} {es : List Equation}
    {sides : List (Ty × Ty)} (h : es.map (fun e => (e.left, e.right)) = sides)
    (hsides : (solveFrom limit σ (sides.map fun (a, b) => ⟨a, b, none⟩)).outcome = .ok σ') :
    (solveFrom limit σ es).outcome = .ok σ' := by
  subst h
  induction es generalizing σ with
  | nil => exact hsides
  | cons e es ih =>
      obtain ⟨σ₁, hfirst, hrest⟩ := solveFrom_cons_ok.1 hsides
      exact solveFrom_cons_ok.2 ⟨σ₁, hfirst, ih hrest⟩

/-- A fault comes from the first run that ends in one. -/
theorem solveFrom_error {limit : Option Nat} {σ : Subst} {es : List Equation} {u : Unsolved}
    (h : (solveFrom limit σ es).outcome = .error u) :
    ∃ before after σ₁, es = before ++ u.equation :: after ∧
      (solveFrom limit σ before).outcome = .ok σ₁ ∧
      (Unify.unify limit σ₁ [(u.equation.left, u.equation.right)]).outcome = .error u.obstacle := by
  induction es generalizing σ with
  | nil => simp [solveFrom] at h
  | cons e es ih =>
      cases he : (Unify.unify limit σ [(e.left, e.right)]).outcome with
      | error o =>
          have hu : (⟨o, e⟩ : Unsolved) = u := by simpa [solveFrom, he] using h
          subst hu
          exact ⟨[], es, σ, rfl, rfl, he⟩
      | ok σ₁ =>
          have hrest : (solveFrom limit σ₁ es).outcome = .error u := by
            simpa [solveFrom, he] using h
          obtain ⟨before, after, σ₂, hes, hbefore, hrun⟩ := ih hrest
          exact ⟨e :: before, after, σ₂, by simp [hes], solveFrom_cons_ok.2 ⟨σ₁, he, hbefore⟩, hrun⟩

section Invariants

variable {limit : Option Nat} {σ σ' : Subst} {es : List Equation}

/-- Solving keeps a substitution flat. -/
theorem resolved_of_solveFrom (hσ : σ.Resolved) (h : (solveFrom limit σ es).outcome = .ok σ') :
    σ'.Resolved := by
  induction es generalizing σ with
  | nil =>
      have hσσ' : σ = σ' := by simpa [solveFrom] using h
      exact hσσ' ▸ hσ
  | cons e es ih =>
      obtain ⟨σ₁, hrun, hrest⟩ := solveFrom_cons_ok.1 h
      exact ih ((run_unify limit σ _).resolved hσ hrun) hrest

theorem known_of_solveFrom (hσ : σ.Resolved) (hK : σ.Known) (hes : ∀ e ∈ es, e.Known)
    (h : (solveFrom limit σ es).outcome = .ok σ') : σ'.Known := by
  induction es generalizing σ with
  | nil =>
      have hσσ' : σ = σ' := by simpa [solveFrom] using h
      exact hσσ' ▸ hK
  | cons e es ih =>
      obtain ⟨σ₁, hrun, hrest⟩ := solveFrom_cons_ok.1 h
      rcases List.forall_mem_cons.1 hes with ⟨he, hes⟩
      have hK₁ : σ₁.Known :=
        (run_unify limit σ _).known hσ hK (by simpa [Equation.Known] using he) hrun
      exact ih ((run_unify limit σ _).resolved hσ hrun) hK₁ hes hrest

/-- A relation holds for the solution exactly if it holds for the start and for all equations. -/
theorem holds_iff_of_solveFrom {R : Ty → Ty → Prop} (hR : Ty.Unifying R)
    (h : (solveFrom limit σ es).outcome = .ok σ') :
    σ'.Holds R ↔ σ.Holds R ∧ ∀ e ∈ es, R e.left e.right := by
  induction es generalizing σ with
  | nil =>
      have hσσ' : σ = σ' := by simpa [solveFrom] using h
      simp [hσσ']
  | cons e es ih =>
      obtain ⟨σ₁, hrun, hrest⟩ := solveFrom_cons_ok.1 h
      have hfirst : σ₁.Holds R ↔ σ.Holds R ∧ R e.left e.right := by
        simpa using (run_unify limit σ _).holds_iff hR hrun
      rw [ih hrest, hfirst, List.forall_mem_cons, and_assoc]

end Invariants

section Solve

variable {limit : Option Nat} {σ : Subst} {es : List Equation}

theorem resolved_of_solve (h : (solve limit es).outcome = .ok σ) : σ.Resolved :=
  resolved_of_solveFrom Subst.resolved_empty h

/-- A relation holds for the solution exactly if it holds for all equations. -/
theorem holds_iff_of_solve {R : Ty → Ty → Prop} (hR : Ty.Unifying R)
    (h : (solve limit es).outcome = .ok σ) : σ.Holds R ↔ ∀ e ∈ es, R e.left e.right := by
  simpa [Subst.holds_empty] using holds_iff_of_solveFrom hR h

/-- The answer satisfies the equations. -/
theorem holds_of_solve (h : (solve limit es).outcome = .ok σ) : ∀ e ∈ es, e.Holds σ.assign :=
  (holds_iff_of_solve (Ty.unifying_equalUnder σ.assign) h).1 (resolved_of_solve h).holds_assign

/-- Every solution factors through the answer. -/
theorem bind_assign_bind_of_solve (h : (solve limit es).outcome = .ok σ) {θ : Int → Ty}
    (hθ : ∀ e ∈ es, e.Holds θ) (t : Ty) : (t.bind σ.assign).bind θ = t.bind θ := by
  have hR := Ty.unifying_equalUnder θ
  have hσ : σ.Holds (Ty.EqualUnder θ) := (holds_iff_of_solve hR h).2 hθ
  exact (hσ.resolve? hR ((resolved_of_solve h).resolve?_eq t)).symm

end Solve

/-! ## The type of a whole term -/

namespace Generated

variable {limit : Option Nat} {g : Generated TypedTerm}

/-- An equation that cannot be solved is the fault of the whole term. -/
theorem rootType_of_error {u : Unsolved} (h : (solve limit g.equations).outcome = .error u) :
    g.rootType limit = .error u.toInfer := by
  simp only [rootType, h]

/-- The answer to the equations is applied to the type of the whole term. -/
theorem rootType_of_ok {σ : Subst} (h : (solve limit g.equations).outcome = .ok σ) :
    g.rootType limit = (σ.resolveWithin? limit g.trees.type).elim (.error .endless) .ok := by
  simp only [rootType, h]
  cases σ.resolveWithin? limit g.trees.type <;> rfl

/-- Without a limit the answer can always be applied. -/
theorem rootType_none_of_ok {σ : Subst} (h : (solve none g.equations).outcome = .ok σ) :
    g.rootType none = .ok (g.trees.type.bind σ.assign) := by
  rw [rootType_of_ok h, Subst.resolveWithin?_none, (resolved_of_solve h).resolve?_eq]
  rfl

end Generated

namespace Term

variable {Γ : Scope} {t : Term} {s : Supply}

theorem principalType_of_generated {g : Generated TypedTerm}
    (h : t.generateFrom Γ .initial = (.ok g, s)) : t.principalType Γ = g.rootType none := by
  simp only [principalType, h]

theorem principalType_of_fault {e : ScopeFault} (h : t.generateFrom Γ .initial = (.error e, s)) :
    t.principalType Γ = .error e.toInfer := by
  simp only [principalType, h]

theorem checkType_of_generated {g : Generated TypedTerm}
    (h : (t.generateWithin Γ .initial).1 = .ok g) :
    t.checkType Γ = g.rootType (some Ty.depthLimit) := by
  simp only [checkType, h]

theorem checkType_of_fault {f : InferFault} (h : (t.generateWithin Γ .initial).1 = .error f) :
    t.checkType Γ = .error f := by
  simp only [checkType, h]

end Term

/-! ## Unsolvable lists -/

theorem Equation.Unifiable.mono {es fs : List Equation} (hsub : ∀ e ∈ es, e ∈ fs)
    (h : Unifiable fs) : Unifiable es := by
  rcases h with ⟨θ, hθ⟩
  exact ⟨θ, fun e he => hθ e (hsub e he)⟩

/-- Equations from which a genuine conflict follows have no solution. -/
theorem not_unifiable_of_genuine {es : List Equation} {c : Conflict}
    (h : c.Genuine (Derivable es)) :
    ¬ Unifiable es := by
  rintro ⟨θ, hθ⟩
  exact c.not_genuine_graft θ (h.mono fun a b hab => hab.holds hθ)

/-- Without a limit, only a conflict stands in the way. -/
theorem exists_conflict_of_solve_error {es : List Equation} {u : Unsolved}
    (h : (solve none es).outcome = .error u) : ∃ c, u.obstacle = .conflict c := by
  obtain ⟨before, after, σ, _, hbefore, hrun⟩ := solveFrom_error h
  cases ho : u.obstacle with
  | conflict c => exact ⟨c, rfl⟩
  | endless =>
      have hend : Run none σ [(u.equation.left, u.equation.right)] (.error .endless) :=
        ho ▸ hrun ▸ run_unify none σ _
      exact absurd rfl (hend.ne_endless (resolved_of_solve hbefore).acyclic)

/-- The equation of a fault is the first that conflicts with the ones before it, and these imply the
conflict that is reported. -/
theorem genuine_of_solve_error {limit : Option Nat} {es : List Equation} (hes : ∀ e ∈ es, e.Known)
    {u : Unsolved} (h : (solve limit es).outcome = .error u) {c : Conflict}
    (hc : u.obstacle = .conflict c) :
    ∃ before after, es = before ++ u.equation :: after ∧ Unifiable before ∧
      c.Genuine (Derivable (before ++ [u.equation])) := by
  obtain ⟨before, after, σ, hsplit, hbefore, hrun⟩ := solveFrom_error h
  refine ⟨before, after, hsplit, ⟨σ.assign, holds_of_solve hbefore⟩, ?_⟩
  have hknown : ∀ e ∈ before, e.Known := fun e he => hes e (by simp [hsplit, he])
  have hlast : u.equation.Known := hes u.equation (by simp [hsplit])
  have hR := Equation.unifying_derivable (before ++ [u.equation])
  -- The bindings so far are derivable from the equations before.
  have hbindings : σ.Holds (Derivable (before ++ [u.equation])) :=
    (holds_iff_of_solve hR hbefore).2 fun e he => Derivable.given (by simp [he])
  have hpending : Derivable (before ++ [u.equation]) u.equation.left u.equation.right :=
    Derivable.given (by simp)
  refine (run_unify limit σ _).genuine hR (resolved_of_solve hbefore)
    (known_of_solveFrom Subst.resolved_empty Subst.known_empty hknown hbefore)
    ?_ hbindings ?_ (hc ▸ hrun)
  · simpa [Equation.Known] using hlast
  · simpa using hpending

/-- Known equations that some graft satisfies are solved: otherwise there would be a genuine
conflict. -/
theorem exists_solve_ok_of_unifiable {es : List Equation} (hes : ∀ e ∈ es, e.Known)
    (h : Unifiable es) : ∃ σ, (solve none es).outcome = .ok σ := by
  cases hout : (solve none es).outcome with
  | ok σ => exact ⟨σ, rfl⟩
  | error u =>
      obtain ⟨c, hc⟩ := exists_conflict_of_solve_error hout
      obtain ⟨before, after, hsplit, _, hgenuine⟩ := genuine_of_solve_error hes hout hc
      have hfirst : Unifiable (before ++ [u.equation]) :=
        h.mono fun e he => by
          rcases List.mem_append.1 he with he | he
          · simp [hsplit, he]
          · have heq : e = u.equation := by simpa using he
            simp [hsplit, heq]
      exact absurd hfirst (not_unifiable_of_genuine hgenuine)

/-! ## Finite maps as solutions -/

section FiniteMaps

variable {θ : Subst}

/-- A substitution that satisfies an equation gives a graft that does, whatever stands in for what
never ends. -/
theorem Subst.Equates.holds_orElse {e : Equation} (h : θ.Equates e) (d : Ty) :
    e.Holds (Ty.orElse (θ.expand θ.size) d) := by
  rcases h with ⟨u, hl, hr⟩
  exact (Ty.bind?_eq_bind_orElse hl d).trans (Ty.bind?_eq_bind_orElse hr d).symm

/-- A substitution that satisfies the equations factors through their solution. -/
theorem resolve?_bind_assign_of_solve {limit : Option Nat} {σ : Subst} {es : List Equation}
    (h : (solve limit es).outcome = .ok σ) (hθ : ∀ e ∈ es, θ.Equates e) (t : Ty) :
    θ.resolve? (t.bind σ.assign) = θ.resolve? t := by
  apply Ty.bind?_eq_bind?_of_orElse
  intro d
  exact bind_assign_bind_of_solve h (fun e he => (hθ e he).holds_orElse d) t

end FiniteMaps

/-! ## Main statements -/

/-- Solving succeeds exactly when the equations have a solution, be it a graft or a finite map, and
then the answer is a solution through which every solution factors. -/
theorem solve_ok_iff_unifiable_and_mostGeneral (es : List Equation) (hes : ∀ e ∈ es, e.Known) :
    ((∃ σ, (solve none es).outcome = .ok σ) ↔ ∃ θ : Int → Ty, ∀ e ∈ es, e.Holds θ) ∧
    ((∃ σ, (solve none es).outcome = .ok σ) ↔ ∃ θ : Subst, ∀ e ∈ es, θ.Equates e) ∧
    ∀ limit σ, (solve limit es).outcome = .ok σ →
      (∀ e ∈ es, σ.Equates e) ∧
      (∀ θ : Int → Ty, (∀ e ∈ es, e.Holds θ) →
        ∀ t, ∃ u, σ.resolve? t = some u ∧ u.bind θ = t.bind θ) ∧
      (∀ θ : Subst, (∀ e ∈ es, θ.Equates e) →
        ∀ t, ∃ u, σ.resolve? t = some u ∧ θ.resolve? u = θ.resolve? t) := by
  have hequates : ∀ {limit σ}, (solve limit es).outcome = .ok σ → ∀ e ∈ es, σ.Equates e := by
    intro limit σ h e he
    exact ((resolved_of_solve h).equates_iff e).2 (holds_of_solve h e he)
  refine ⟨⟨?_, exists_solve_ok_of_unifiable hes⟩, ⟨?_, ?_⟩, ?_⟩
  · rintro ⟨σ, h⟩
    exact ⟨σ.assign, holds_of_solve h⟩
  · rintro ⟨σ, h⟩
    exact ⟨σ, hequates h⟩
  · rintro ⟨θ, hθ⟩
    exact exists_solve_ok_of_unifiable hes ⟨_, fun e he => (hθ e he).holds_orElse .unknown⟩
  · intro limit σ h
    have hresolve := (resolved_of_solve h).resolve?_eq
    refine ⟨hequates h, ?_, ?_⟩
    · intro θ hθ t
      exact ⟨_, hresolve t, bind_assign_bind_of_solve h hθ t⟩
    · intro θ hθ t
      exact ⟨_, hresolve t, resolve?_bind_assign_of_solve h hθ t⟩

/-- The equations `t0 = (t1) -> Int` and `t1 = Bool` are solved. -/
theorem solve_ok_of_chain :
    (∀ e ∈ [⟨.var 0, .fn [.var 1] .int, none⟩, ⟨.var 1, .bool, none⟩], Equation.Known e) ∧
      ∃ σ, (solve none [⟨.var 0, .fn [.var 1] .int, none⟩, ⟨.var 1, .bool, none⟩]).outcome =
        .ok σ := by
  have hes : ∀ e ∈ [⟨.var 0, .fn [.var 1] .int, none⟩, ⟨.var 1, .bool, none⟩],
      Equation.Known e := by decide
  refine ⟨hes, (solve_ok_iff_unifiable_and_mostGeneral _ hes).1.2 ?_⟩
  refine ⟨fun i => if i = 0 then .fn [.bool] .int else .bool, ?_⟩
  intro e he
  rcases List.mem_cons.1 he with rfl | he
  · simp [Equation.Holds, Ty.int]
  · rcases List.mem_singleton.1 he with rfl
    simp [Equation.Holds, Ty.bool]

/-- A fault blames the one equation that the earlier ones are compatible with on their own and
incompatible with together, as it was given; the conflict that it reports follows from the equations
up to that one.  Within a limit, the limit may be the reason instead. -/
theorem solve_error_first_genuine (limit : Option Nat) (es : List Equation)
    (hes : ∀ e ∈ es, e.Known) (u : Unsolved) (h : (solve limit es).outcome = .error u) :
    (limit ≠ none ∧ u.obstacle = .endless) ∨
      ∃ c i, u.obstacle = .conflict c ∧ es[i]? = some u.equation ∧
        (∀ j, Unifiable (es.take j) ∧ ¬ Unifiable (es.take (j + 1)) ↔ j = i) ∧
        c.Genuine (Derivable (es.take (i + 1))) := by
  cases ho : u.obstacle with
  | endless =>
      left
      refine ⟨?_, rfl⟩
      rintro rfl
      obtain ⟨c, hc⟩ := exists_conflict_of_solve_error h
      simp [ho] at hc
  | conflict c =>
      right
      obtain ⟨before, after, hsplit, hbefore, hgenuine⟩ := genuine_of_solve_error hes h ho
      have htake : es.take before.length = before := by simp [hsplit]
      have htake' : es.take (before.length + 1) = before ++ [u.equation] := by
        simp [hsplit, List.take_append, List.take_of_length_le]
      have hnot : ¬ Unifiable (es.take (before.length + 1)) :=
        htake' ▸ not_unifiable_of_genuine hgenuine
      -- Unifiability is lost at one place only, since shorter lists ask for less.
      have hmono : ∀ {m n : Nat}, m ≤ n → Unifiable (es.take n) → Unifiable (es.take m) := by
        intro m n hmn hn
        exact hn.mono fun e he => (List.take_subset_take_left es hmn) he
      refine ⟨c, before.length, rfl, by simp [hsplit], ?_, htake' ▸ hgenuine⟩
      intro j
      constructor
      · rintro ⟨hj, hj'⟩
        rcases Nat.lt_trichotomy j before.length with hlt | heq | hgt
        · exact absurd (hmono hlt (htake.symm ▸ hbefore)) hj'
        · exact heq
        · exact absurd (hmono hgt hj) hnot
      · rintro rfl
        exact ⟨htake.symm ▸ hbefore, hnot⟩

/-- Of `t0 = Int` and `(t0) -> t1 = (Bool) -> t1`, the second is blamed, for the conflict between
`Int` and `Bool` that only the two together imply. -/
theorem solve_error_of_later_parameter :
    (solve none [⟨.var 0, .int, none⟩,
        ⟨.fn [.var 0] (.var 1), .fn [.bool] (.var 1), none⟩]).outcome =
      .error ⟨.conflict (.mismatch .int .bool),
        ⟨.fn [.var 0] (.var 1), .fn [.bool] (.var 1), none⟩⟩ ∧
    Unifiable [⟨.var 0, .int, none⟩] ∧
    (Conflict.mismatch .int .bool).Genuine (Derivable [⟨.var 0, .int, none⟩,
      ⟨.fn [.var 0] (.var 1), .fn [.bool] (.var 1), none⟩]) := by
  have herror : (solve none [⟨.var 0, .int, none⟩,
        ⟨.fn [.var 0] (.var 1), .fn [.bool] (.var 1), none⟩]).outcome =
      .error ⟨.conflict (.mismatch .int .bool),
        ⟨.fn [.var 0] (.var 1), .fn [.bool] (.var 1), none⟩⟩ := by cbv
  have hes : ∀ e ∈ [⟨.var 0, .int, none⟩,
      ⟨.fn [.var 0] (.var 1), .fn [.bool] (.var 1), none⟩], Equation.Known e := by decide
  rcases solve_error_first_genuine none _ hes _ herror with ⟨hlimit, _⟩ |
    ⟨c, i, hc, hi, hfirst, hgenuine⟩
  · exact absurd rfl hlimit
  · cases hc
    -- The equation that is blamed is the second one.
    cases i with
    | zero => simp at hi
    | succ i =>
        cases i with
        | zero => exact ⟨herror, ((hfirst 1).2 rfl).1, hgenuine⟩
        | succ i => simp at hi

end Monotype
