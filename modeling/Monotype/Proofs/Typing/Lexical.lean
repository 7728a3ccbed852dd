import Monotype.Fault
import Monotype.Proofs.Typing.Parallel

/-!
# Inference respects lexical scope

Bound names do not matter, and neither does what a scope says about names that are not used: walks
over α-equivalent terms, in scopes that agree on the free names, come to the same types in the same
places, to the same equations in the same order and to the same supply, or to the same fault
(`Term.sameWalk_of_alpha`).  What follows depends on the equations alone, so the answer is the same,
and a fault is reported the same way.

Main statement: `Term.answers_eq_of_alpha`.  A scope may have more layers than are looked at; then
one of the answers may be that limit instead.
-/

namespace Monotype

/-! ## Equations with the same sides -/

/-- Reports show the sides of an equation and the form of the term that it comes from, and no
more. -/
theorem Report.attach_congr {e e' : Equation} (h : Equation.Alike Eq e e') (r : Report) :
    r.attach e = r.attach e' := by
  simp only [Report.attach, Equation.text, h.left, h.right, h.origin]

/-- Equations with the same sides have the same solution, or stop at the same place for the same
reason. -/
theorem solveFrom_alike {es es' : List Equation} (h : List.Forall₂ (Equation.Alike Eq) es es')
    (limit : Option Nat) (σ : Subst) :
    (∃ σ', (solveFrom limit σ es).outcome = .ok σ' ∧ (solveFrom limit σ es').outcome = .ok σ') ∨
      ∃ o e e', (solveFrom limit σ es).outcome = .error ⟨o, e⟩ ∧
        (solveFrom limit σ es').outcome = .error ⟨o, e'⟩ ∧ Equation.Alike Eq e e' := by
  induction h generalizing σ with
  | nil => exact Or.inl ⟨σ, rfl, rfl⟩
  | @cons e e' es es' he _ ih =>
      have hunify :
          Unify.unify limit σ [(e'.left, e'.right)] = Unify.unify limit σ [(e.left, e.right)] := by
        rw [he.left, he.right]
      cases hout : (Unify.unify limit σ [(e.left, e.right)]).outcome with
      | error o =>
          right
          exact ⟨o, e, e', by simp [solveFrom, hout], by simp [solveFrom, hunify, hout], he⟩
      | ok σ₁ => simpa [solveFrom, hunify, hout] using ih σ₁

namespace Generated

/-- The type of the whole term, or the report of the fault. -/
def reported (limit : Option Nat) (g : Generated TypedTerm) : Except Report Ty :=
  (g.rootType limit).mapError InferFault.report

/-- What is reported does not depend on the names in the terms. -/
theorem reported_congr {g g' : Generated TypedTerm}
    (h : Generated.Alike (TypedTerm.Alike Eq) Eq g g') (limit : Option Nat) :
    g.reported limit = g'.reported limit := by
  rcases solveFrom_alike h.equations limit .empty with ⟨σ, hσ, hσ'⟩ | ⟨o, e, e', ho, ho', he⟩
  · rw [reported, reported, rootType_of_ok hσ, rootType_of_ok hσ', h.trees.type]
  · rw [reported, reported, rootType_of_error ho, rootType_of_error ho']
    cases o with
    | conflict c => exact congrArg Except.error (Report.attach_congr he _)
    | endless => rfl

end Generated

namespace Term

/-! ## Walks -/

/-- From one supply, the walks come to trees and equations with the same types and to the same
supply, or to the same fault and the same supply. -/
def SameWalk (Γ Γ' : Scope) (t t' : Term) (s : Supply) : Prop :=
  (∃ g g' s', t.generateFrom Γ s = (.ok g, s') ∧ t'.generateFrom Γ' s = (.ok g', s') ∧
    Generated.Alike (TypedTerm.Alike Eq) Eq g g') ∨
  ∃ e s', t.generateFrom Γ s = (.error e, s') ∧ t'.generateFrom Γ' s = (.error e, s')

def SameEntry (Γ Γ' : Scope) (x y : Text) : Prop := x = y ∧ Γ.lookup x = Γ'.lookup y

theorem parallel_sameEntry (Γ Γ' : Scope) : Scope.Parallel Eq (SameEntry Γ Γ') Γ Γ' := by
  rintro x y ⟨rfl, hx⟩
  refine ⟨?_, fun _ => rfl⟩
  rw [hx]
  cases Γ'.lookup x with
  | none => exact .none
  | some τ => exact .some rfl

variable {Γ Γ' : Scope} {t t' : Term}

/-- Terms that differ in bound names only, in scopes that agree on the others, have the same
walks. -/
theorem sameWalk_of_alpha (h : Alpha (SameEntry Γ Γ') t t') (s : Supply) :
    SameWalk Γ Γ' t t' s := by
  have hwalks : WalksParallel Eq 0 Γ Γ' t t' :=
    parallel_generate Ty.congruence_eq h (fun _ _ => rfl) (parallel_sameEntry Γ Γ')
  have hs : s.Ahead Eq 0 := by
    intro i _
    rw [Int.add_zero]
  have hshift : ∀ s : Supply, s.shift 0 = s := fun s => congrArg Supply.mk (Int.add_zero s.next)
  rcases hrun : (generate Γ t).eval s with ⟨e | g, s'⟩
  · have hrun' := hwalks.error hs hrun
    rw [hshift, hshift] at hrun'
    exact Or.inr ⟨e, s', hrun, hrun'⟩
  · obtain ⟨_, g', hrun', hg⟩ := hwalks.ok hs hrun
    rw [hshift, hshift] at hrun'
    exact Or.inl ⟨g, g', s', hrun, hrun', hg⟩

/-! ## Answers -/

/-- The same walks lead to the same answer, or to the same report. -/
theorem SameWalk.principalType_eq (h : SameWalk Γ Γ' t t' .initial) :
    (t.principalType Γ).mapError InferFault.report =
      (t'.principalType Γ').mapError InferFault.report := by
  rcases h with ⟨g, g', s', hg, hg', halike⟩ | ⟨e, s', he, he'⟩
  · rw [principalType_of_generated hg, principalType_of_generated hg']
    exact Generated.reported_congr halike none
  · rw [principalType_of_fault he, principalType_of_fault he']

/-- With scopes that are looked at as a whole, the answers within the limits are the same too. -/
theorem checkType_eq_of_alpha (h : Alpha (SameEntry Γ Γ') t t') (hΓ : Γ.layers.length ≤ layerLimit)
    (hΓ' : Γ'.layers.length ≤ layerLimit) :
    (t.checkType Γ).mapError InferFault.report = (t'.checkType Γ').mapError InferFault.report := by
  have hwalk := sameWalk_of_alpha h.visible .initial
  simp only [checkType, generateWithin_eq, Scope.nearest_eq_self hΓ, Scope.nearest_eq_self hΓ',
    h.depth_eq]
  rcases hwalk with ⟨g, g', s', hg, hg', halike⟩ | ⟨e, s', he, he'⟩
  · simp only [hg, hg']
    exact Generated.reported_congr halike (some Ty.depthLimit)
  · cases e with
    | unbound x => simp only [he, he', hΓ, hΓ']
    | hole => simp only [he, he']

/-- With scopes of any depth, the answers within the limits are the same unless one of them is a
limit. -/
theorem SameWalk.checkType_eq_or_tooDeep (h : SameWalk Γ Γ' t t' .initial) :
    (t.checkType Γ).mapError InferFault.report = (t'.checkType Γ').mapError InferFault.report ∨
      t.checkType Γ = .error .tooDeep ∨ t'.checkType Γ' = .error .tooDeep := by
  rcases h with ⟨g, g', s', hg, hg', halike⟩ | ⟨e, s', he, he'⟩
  · rcases checkType_of_generateFrom_ok hg with hcheck | ⟨hdeep, _⟩
    · rcases checkType_of_generateFrom_ok hg' with hcheck' | ⟨hdeep', _⟩
      · left
        rw [hcheck, hcheck']
        exact Generated.reported_congr halike (some Ty.depthLimit)
      · exact Or.inr (Or.inr hdeep')
    · exact Or.inr (Or.inl hdeep)
  · rcases checkType_of_generateFrom_error he with hcheck | ⟨hdeep, _⟩
    · rcases checkType_of_generateFrom_error he' with hcheck' | ⟨hdeep', _⟩
      · left
        rw [hcheck, hcheck']
      · exact Or.inr (Or.inr hdeep')
    · exact Or.inr (Or.inl hdeep)

/-- Walks over α-equivalent terms, in scopes that agree on the free names, do the same; so the
answers are the same type, or faults with the same report.  Within the limits this holds too, unless
a scope has more layers than are looked at and one of the answers is that limit. -/
theorem answers_eq_of_alpha (Γ Γ' : Scope) (t t' : Term) (h : Alpha Eq t t')
    (hΓ : ∀ x ∈ t.freeNames, Γ.lookup x = Γ'.lookup x) :
    (∀ s, SameWalk Γ Γ' t t' s) ∧
    (t.principalType Γ).mapError InferFault.report =
      (t'.principalType Γ').mapError InferFault.report ∧
    ((t.checkType Γ).mapError InferFault.report = (t'.checkType Γ').mapError InferFault.report ∨
      ((layerLimit < Γ.layers.length ∨ layerLimit < Γ'.layers.length) ∧
        (t.checkType Γ = .error .tooDeep ∨ t'.checkType Γ' = .error .tooDeep))) := by
  have halpha : Alpha (SameEntry Γ Γ') t t' := by
    refine h.congr ?_
    rintro x _ hx rfl
    exact ⟨rfl, hΓ x hx⟩
  have hwalks := sameWalk_of_alpha halpha
  refine ⟨hwalks, (hwalks .initial).principalType_eq, ?_⟩
  by_cases hnear : Γ.layers.length ≤ layerLimit ∧ Γ'.layers.length ≤ layerLimit
  · exact Or.inl (checkType_eq_of_alpha halpha hnear.1 hnear.2)
  · rcases (hwalks .initial).checkType_eq_or_tooDeep with heq | hdeep
    · exact Or.inl heq
    · have hlayers : layerLimit < Γ.layers.length ∨ layerLimit < Γ'.layers.length := by
        omega
      exact Or.inr ⟨hlayers, hdeep⟩

/-- A repeated parameter, and a `let` whose value stands outside of it:
`fun x x -> let y = x in add y x`. -/
def repeatedName : Term :=
  .lam [⟨"x", none⟩, ⟨"x", none⟩]
    (.letIn [⟨"y", none, .var "x"⟩] (.app (.var "add") [.var "y", .var "x"]))

/-- The same function with other names, one of which is bound again: `fun a b -> let a = b in add a
b`. -/
def otherNames : Term :=
  .lam [⟨"a", none⟩, ⟨"b", none⟩]
    (.letIn [⟨"a", none, .var "b"⟩] (.app (.var "add") [.var "a", .var "b"]))

/-- The function has the same type under other names, also where the names of the first version
stand for something else. -/
theorem answers_eq_of_otherNames :
    let Γ' : Scope := Scope.builtin.extend [("x", .bool), ("y", .unknown)]
    Alpha Eq repeatedName otherNames ∧
      (∀ x ∈ repeatedName.freeNames, Scope.builtin.lookup x = Γ'.lookup x) ∧
      repeatedName.principalType .builtin = .ok (.fn [.var 0, .int] .int) ∧
      otherNames.principalType Γ' = .ok (.fn [.var 0, .int] .int) := by
  intro Γ'
  -- Under the parameters the last place counts; under the `let`, names that it does not bind keep
  -- their place.
  have houter : Under Eq ["x", "x"] ["a", "b"] "x" "b" := ⟨rfl, by simp⟩
  have hinner : Under (Under Eq ["x", "x"] ["a", "b"]) ["y"] ["a"] "x" "b" := ⟨rfl, fun _ => houter⟩
  have hbound : Under (Under Eq ["x", "x"] ["a", "b"]) ["y"] ["a"] "y" "a" := ⟨rfl, by simp⟩
  have hadd : Under (Under Eq ["x", "x"] ["a", "b"]) ["y"] ["a"] "add" "add" :=
    ⟨rfl, fun _ => ⟨rfl, fun _ => rfl⟩⟩
  have halpha : Alpha Eq repeatedName otherNames := by
    refine .lam rfl (.letIn rfl ?_ (.app (.var hadd) rfl ?_))
    · intro v v' hv
      obtain ⟨rfl, rfl⟩ : v = .var "x" ∧ v' = .var "b" := by simpa using hv
      exact .var houter
    · intro a a' ha
      have hcases : (a = .var "y" ∧ a' = .var "a") ∨ (a = .var "x" ∧ a' = .var "b") := by
        simpa using ha
      rcases hcases with ⟨rfl, rfl⟩ | ⟨rfl, rfl⟩
      · exact .var hbound
      · exact .var hinner
  have hfree : repeatedName.freeNames = ["add"] := by decide
  have hΓ : ∀ x ∈ repeatedName.freeNames, Scope.builtin.lookup x = Γ'.lookup x := by
    intro x hx
    obtain rfl : x = "add" := by simpa [hfree] using hx
    rfl
  obtain ⟨g, s, hfrom, htype, e, hequations, hleft, hright⟩ : ∃ g s,
      repeatedName.generateFrom .builtin .initial = (.ok g, s) ∧
        g.trees.type = .fn [.var 0, .var 1] (.var 2) ∧ ∃ e, g.equations = [e] ∧
          e.left = .fn [.int, .int] .int ∧ e.right = .fn [.var 1, .var 1] (.var 2) :=
    ⟨_, _, rfl, rfl, _, rfl, rfl, rfl⟩
  have hsolve : (solve none g.equations).outcome = .ok ⟨[(1, .int), (2, .int)], by decide⟩ := by
    simp only [hequations, solve, solveFrom, hleft, hright]
    cbv
  have hT : repeatedName.principalType .builtin = .ok (.fn [.var 0, .int] .int) := by
    rw [principalType_of_solve hfrom hsolve, htype]
    rfl
  have hanswers := (answers_eq_of_alpha .builtin Γ' repeatedName otherNames halpha hΓ).2.1
  refine ⟨halpha, hΓ, hT, ?_⟩
  rw [hT] at hanswers
  cases hT' : otherNames.principalType Γ' with
  | ok T' =>
      rw [hT'] at hanswers
      exact congrArg Except.ok (Except.ok.inj hanswers).symm
  | error f =>
      rw [hT'] at hanswers
      cases hanswers

end Term

end Monotype
