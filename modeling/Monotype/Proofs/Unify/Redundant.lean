import Monotype.Proofs.Unify.Solve

/-!
# Redundant equations

An equation that a solution satisfies already is redundant.  Solving it afterwards changes nothing:
the answer keeps its entries, with their values and in their order, and no variable is bound on the
way.

The reason is in the single step.  A resolved substitution turns both sides of a redundant equation
into one type, and against itself a type without `unknown` is skipped or split into its parts, each
against itself.  So a redundant equation is skipped or replaced by redundant ones
(`Unify.move_of_redundant`), however deeply its sides nest.

Main statement: `solve_append_redundant`.  Only a limit can still stop the run.
-/

namespace Monotype

namespace Unify

variable {limit : Option Nat} {σ : Subst}

/-- Both sides are known, and the substitution makes them equal. -/
def Redundant (σ : Subst) (e : Ty × Ty) : Prop :=
  (e.1.Known ∧ e.2.Known) ∧ e.1.bind σ.assign = e.2.bind σ.assign

/-- The parts of a type against itself are redundant. -/
theorem redundant_of_mem_parts {ps : List Ty} {r : Ty} (h : (Ty.fn ps r).Known) {e : Ty × Ty}
    (he : e ∈ ps.zip ps ++ [(r, r)]) : Redundant σ e := by
  obtain ⟨hps, hr⟩ := Ty.known_fn.1 h
  rcases List.mem_append.1 he with he | he
  · obtain ⟨p, hp, rfl⟩ : ∃ p ∈ ps, (p, p) = e := by
      simpa [List.zip_eq_zipWith, List.zipWith_self] using he
    exact ⟨⟨hps p hp, hps p hp⟩, rfl⟩
  · obtain rfl : e = (r, r) := by simpa using he
    exact ⟨⟨hr, hr⟩, rfl⟩

/-- The step on a redundant equation leaves nothing, or redundant equations. -/
theorem move_of_redundant (hσ : σ.Resolved) (hK : σ.Known) {a b a' b' : Ty}
    (hab : Redundant σ (a, b)) (ha : σ.resolveWithin? limit a = some a')
    (hb : σ.resolveWithin? limit b = some b') :
    move a' b' = .skip ∨ ∃ parts, move a' b' = .split parts ∧ ∀ e ∈ parts, Redundant σ e := by
  obtain ⟨⟨hknown, _⟩, heq⟩ := hab
  have hknown' : a'.Known := Run.known_of_resolveWithin? hσ hK hknown ha
  have hsame : b' = a' := by rw [eq_bind_assign hσ ha, eq_bind_assign hσ hb, heq]
  subst hsame
  cases hknown' with
  | var i => exact Or.inl (by simp [move, eliminate])
  | const c => exact Or.inl (by simp [move])
  | @fn ps r hps hr =>
      refine Or.inr ⟨ps.zip ps ++ [(r, r)], by simp [move], ?_⟩
      intro e he
      exact redundant_of_mem_parts (.fn hps hr) he

/-- A run over redundant equations binds nothing and returns what it started from, unless a limit
stops it. -/
theorem unify_of_redundant (limit : Option Nat) (hσ : σ.Resolved) (hK : σ.Known)
    {work : List (Ty × Ty)} (hwork : ∀ e ∈ work, Redundant σ e) :
    (unify limit σ work).bindings = [] ∧
      ((unify limit σ work).outcome = .ok σ ∨
        (limit ≠ none ∧ (unify limit σ work).outcome = .error .endless)) := by
  fun_induction unify limit σ work with
  | case1 σ => exact ⟨rfl, Or.inl rfl⟩
  | case2 σ a b work a' b' ha hb hm ih => exact ih hσ hK (List.forall_mem_cons.1 hwork).2
  | case3 σ a b work a' b' ha hb parts hm ih =>
      obtain ⟨hab, hrest⟩ := List.forall_mem_cons.1 hwork
      rcases move_of_redundant hσ hK hab ha hb with hskip | ⟨parts', hsplit, hparts⟩
      · cases hm.symm.trans hskip
      · cases hm.symm.trans hsplit
        exact ih hσ hK (List.forall_mem_append.2 ⟨hparts, hrest⟩)
  -- Neither a clash nor a binding comes from a redundant equation.
  | case4 σ a b work a' b' ha hb c hm =>
      rcases move_of_redundant hσ hK (List.forall_mem_cons.1 hwork).1 ha hb with hskip |
        ⟨_, hsplit, _⟩
      · cases hm.symm.trans hskip
      · cases hm.symm.trans hsplit
  | case5 σ a b work a' b' ha hb i t hm σ' he ih =>
      rcases move_of_redundant hσ hK (List.forall_mem_cons.1 hwork).1 ha hb with hskip |
        ⟨_, hsplit, _⟩
      · cases hm.symm.trans hskip
      · cases hm.symm.trans hsplit
  | case6 σ a b work a' b' ha hb i t hm he =>
      rcases move_of_redundant hσ hK (List.forall_mem_cons.1 hwork).1 ha hb with hskip |
        ⟨_, hsplit, _⟩
      · cases hm.symm.trans hskip
      · cases hm.symm.trans hsplit
  | case7 σ a b work h =>
      refine ⟨rfl, Or.inr ⟨?_, rfl⟩⟩
      -- Without a limit, a resolved substitution can be applied to both sides.
      rintro rfl
      exact h _ _ (by simpa using hσ.resolve?_eq a) (by simpa using hσ.resolve?_eq b)

end Unify

/-! ## Solving -/

section Solving

variable {limit : Option Nat} {σ σ' : Subst} {es ds : List Equation}

/-- If the first equations are solved, solving goes on with the others from there. -/
theorem solveFrom_append_of_ok (ds : List Equation) (h : (solveFrom limit σ es).outcome = .ok σ') :
    (solveFrom limit σ (es ++ ds)).outcome = (solveFrom limit σ' ds).outcome ∧
      (solveFrom limit σ (es ++ ds)).bindings =
        (solveFrom limit σ es).bindings ++ (solveFrom limit σ' ds).bindings := by
  induction es generalizing σ with
  | nil =>
      obtain rfl : σ = σ' := by simpa [solveFrom] using h
      exact ⟨rfl, rfl⟩
  | cons e es ih =>
      obtain ⟨σ₁, hrun, hrest⟩ := solveFrom_cons_ok.1 h
      obtain ⟨houtcome, hbindings⟩ := ih hrest
      simp only [List.cons_append, solveFrom, hrun]
      exact ⟨houtcome, by rw [hbindings, List.append_assoc]⟩

/-- Redundant equations bind nothing; they are passed over, or the limit stops at one of them. -/
theorem solveFrom_of_redundant (limit : Option Nat) (hσ : σ.Resolved) (hK : σ.Known)
    (hds : ∀ d ∈ ds, d.Known ∧ σ.Equates d) :
    (solveFrom limit σ ds).bindings = [] ∧
      ((solveFrom limit σ ds).outcome = .ok σ ∨
        (limit ≠ none ∧ ∃ d ∈ ds, (solveFrom limit σ ds).outcome = .error ⟨.endless, d⟩)) := by
  induction ds with
  | nil => exact ⟨rfl, Or.inl rfl⟩
  | cons d ds ih =>
      obtain ⟨⟨hknown, hequates⟩, hrest⟩ := List.forall_mem_cons.1 hds
      have hredundant : ∀ e ∈ [(d.left, d.right)], Unify.Redundant σ e := by
        intro e he
        obtain rfl : e = (d.left, d.right) := by simpa using he
        exact ⟨hknown, (hσ.equates_iff d).1 hequates⟩
      -- The first equation leaves the substitution as it is, so the rest starts from the same one.
      obtain ⟨hbindings, hrun⟩ := Unify.unify_of_redundant limit hσ hK hredundant
      rcases hrun with hok | ⟨hlimit, hend⟩
      · obtain ⟨hbindings', houtcome⟩ := ih hrest
        simp only [solveFrom, hok, hbindings, List.nil_append]
        refine ⟨hbindings', houtcome.imp_right ?_⟩
        rintro ⟨hlimit, d', hd', hend⟩
        exact ⟨hlimit, d', List.mem_cons_of_mem _ hd', hend⟩
      · simp only [solveFrom, hend]
        exact ⟨hbindings, Or.inr ⟨hlimit, d, List.mem_cons_self, rfl⟩⟩

end Solving

/-- Equations that the answer satisfies already can be added at the end: the answer stays what it
is, entry by entry, and no binding is made; so a list may be repeated.  Within a limit, the limit
may stop the run at one of the added equations instead. -/
theorem solve_append_redundant (es : List Equation) (hes : ∀ e ∈ es, e.Known) :
    (∀ σ, (solve none es).outcome = .ok σ →
      (∀ ds, (∀ d ∈ ds, d.Known ∧ σ.Equates d) → (solve none (es ++ ds)).outcome = .ok σ) ∧
      (solve none (es ++ es)).outcome = .ok σ) ∧
    ∀ limit σ ds, (solve limit es).outcome = .ok σ → (∀ d ∈ ds, d.Known ∧ σ.Equates d) →
      (solve limit (es ++ ds)).bindings = (solve limit es).bindings ∧
      ((solve limit (es ++ ds)).outcome = .ok σ ∨
        (limit ≠ none ∧ ∃ d ∈ ds, (solve limit (es ++ ds)).outcome = .error ⟨.endless, d⟩)) := by
  have hgeneral :
      ∀ limit σ ds, (solve limit es).outcome = .ok σ → (∀ d ∈ ds, d.Known ∧ σ.Equates d) →
      (solve limit (es ++ ds)).bindings = (solve limit es).bindings ∧
      ((solve limit (es ++ ds)).outcome = .ok σ ∨
        (limit ≠ none ∧ ∃ d ∈ ds, (solve limit (es ++ ds)).outcome = .error ⟨.endless, d⟩)) := by
    intro limit σ ds h hds
    have hσ : σ.Resolved := resolved_of_solve h
    have hK : σ.Known := known_of_solveFrom Subst.resolved_empty Subst.known_empty hes h
    obtain ⟨houtcome, hbindings⟩ := solveFrom_append_of_ok ds h
    obtain ⟨hnone, hends⟩ := solveFrom_of_redundant limit hσ hK hds
    simp only [solve, houtcome, hbindings, hnone, List.append_nil]
    exact ⟨trivial, hends⟩
  -- Without a limit nothing stops the run.
  have hunlimited : ∀ σ ds, (solve none es).outcome = .ok σ → (∀ d ∈ ds, d.Known ∧ σ.Equates d) →
      (solve none (es ++ ds)).outcome = .ok σ := by
    intro σ ds h hds
    rcases (hgeneral none σ ds h hds).2 with hok | ⟨hlimit, _⟩
    · exact hok
    · exact absurd rfl hlimit
  refine ⟨?_, hgeneral⟩
  intro σ h
  refine ⟨fun ds => hunlimited σ ds h, hunlimited σ es h ?_⟩
  intro e he
  exact ⟨hes e he, ((resolved_of_solve h).equates_iff e).2 (holds_of_solve h e he)⟩

def nested : List Equation :=
  [⟨.var 0, .fn [.var 1] (.var 2), none⟩, ⟨.var 2, .fn [] (.var 1), none⟩]

/-- `(t0) -> t2 = ((t1) -> () -> t1) -> () -> t1`, with what the first two equations say about `t0`
and `t2`. -/
def consequence : Equation :=
  ⟨.fn [.var 0] (.var 2), .fn [.fn [.var 1] (.fn [] (.var 1))] (.fn [] (.var 1)), none⟩

/-- The consequence is split twice and leaves the two entries in place; so does the whole list, when
it comes again. -/
theorem solve_append_redundant_of_nested :
    ∃ σ : Subst, σ.entries = [(0, .fn [.var 1] (.fn [] (.var 1))), (2, .fn [] (.var 1))] ∧
      (∀ e ∈ nested, e.Known) ∧ (solve none nested).outcome = .ok σ ∧
      (consequence.Known ∧ σ.Equates consequence) ∧
      (solve none (nested ++ [consequence])).outcome = .ok σ ∧
      (solve none (nested ++ nested)).outcome = .ok σ := by
  let σ : Subst := ⟨[(0, .fn [.var 1] (.fn [] (.var 1))), (2, .fn [] (.var 1))], by decide⟩
  have hes : ∀ e ∈ nested, e.Known := by decide
  have hsolve : (solve none nested).outcome = .ok σ := by cbv
  have hconsequence : consequence.Known ∧ σ.Equates consequence :=
    ⟨by decide, .fn [.fn [.var 1] (.fn [] (.var 1))] (.fn [] (.var 1)), by decide, by decide⟩
  obtain ⟨hadded, hrepeated⟩ := (solve_append_redundant nested hes).1 σ hsolve
  refine ⟨σ, rfl, hes, hsolve, hconsequence, hadded [consequence] ?_, hrepeated⟩
  intro d hd
  obtain rfl : d = consequence := by simpa using hd
  exact hconsequence

end Monotype
