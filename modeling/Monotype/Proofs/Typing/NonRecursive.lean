import Monotype.Fault
import Monotype.Proofs.Typing.Answers
import Monotype.Proofs.Typing.Parallel
import Monotype.Proofs.Unify.Defined

/-!
# Bindings that are not recursive

A `letrec` whose values do not mention its names is a `let`.  The walk over it takes one variable
per name before anything else, a place that the name stands for; so its other variables are those of
the `let`, shifted past the places, and each equation between a place and its value is a definition.
The values do not see the places, and the body sees a place where the body of the `let` sees the
type of the value.  Hence the equations of the `letrec` are those of the `let` with definitions
(`Term.defines_letRec`), and definitions change nothing.

Main statement: `Term.sameAnswer_letRec`.
-/

namespace Monotype

/-! ## Places -/

def shiftPast (n : Nat) : Int ↪ Int where
  toFun i := if 0 ≤ i then i + n else i
  inj' := by
    intro i j h
    simp only at h
    split at h <;> split at h <;> omega

/-- Variables from zero on are moved behind the new ones. -/
theorem shiftPast_of_nonneg {n : Nat} {i : Int} (hi : 0 ≤ i) : shiftPast n i = i + n := if_pos hi

/-- The room for new variables is free. -/
theorem notMem_range_shiftPast {n : Nat} {p : Int} (h₀ : 0 ≤ p) (hn : p < n) :
    p ∉ Set.range (shiftPast n) := by
  rintro ⟨i, hi⟩
  by_cases h : 0 ≤ i
  · rw [shiftPast_of_nonneg h] at hi
    omega
  · have hneg : shiftPast n i = i := if_neg h
    omega

def Supply.taken (s : Supply) : Nat → List Int
  | 0 => []
  | n + 1 => s.next :: s.advance.taken n

namespace Supply

theorem length_taken (s : Supply) (n : Nat) : (s.taken n).length = n := by
  induction n generalizing s with
  | zero => rfl
  | succ n ih => simp [taken, ih]

theorem mem_taken {s : Supply} {n : Nat} {i : Int} (h : i ∈ s.taken n) :
    s.next ≤ i ∧ i < s.next + n := by
  induction n generalizing s with
  | zero => cases h
  | succ n ih =>
      rcases List.mem_cons.1 h with rfl | h
      · omega
      · have hi := ih h
        simp only [advance] at hi
        omega

/-- A supply hands out no variable twice. -/
theorem nodup_taken (s : Supply) (n : Nat) : (s.taken n).Nodup := by
  induction n generalizing s with
  | zero => exact List.nodup_nil
  | succ n ih =>
      refine List.nodup_cons.2 ⟨fun h => ?_, ih s.advance⟩
      have hi := (mem_taken h).1
      simp only [advance] at hi
      omega

end Supply

/-- One fresh variable per element, from the supply on. -/
theorem Walk.eval_freshAll {α : Type} (as : List α) (s : Supply) :
    (Walk.freshAll as).eval s = (.ok ((s.taken as.length).map .var), s.shift as.length) := by
  induction as generalizing s with
  | nil => simp [Walk.freshAll, Walk.eval_pure, Supply.taken, Supply.shift]
  | cons a as ih =>
      have hshift : s.advance.shift as.length = s.shift (a :: as).length := by
        simp only [Supply.shift, Supply.advance, List.length_cons, Supply.mk.injEq]
        omega
      refine Walk.eval_bind_ok.2 ⟨_, _, Walk.eval_fresh s, ?_⟩
      refine Walk.eval_bind_ok.2 ⟨_, _, ih s.advance, ?_⟩
      rw [hshift]
      rfl

def defineAll (θ : Int → Ty) : List Int → List Ty → Int → Ty
  | p :: ps, τ :: τs => defineAll (Function.update θ p τ) ps τs
  | _, _ => θ

theorem defineAll_of_notMem {ps : List Int} {j : Int} (hj : j ∉ ps) (θ : Int → Ty) (τs : List Ty) :
    defineAll θ ps τs j = θ j := by
  induction ps generalizing θ τs with
  | nil => rfl
  | cons p ps ih =>
      cases τs with
      | nil => rfl
      | cons τ τs =>
          simp only [List.mem_cons, not_or] at hj
          rw [defineAll, ih hj.2, Function.update_of_ne hj.1]

/-- Each new variable gets its own type. -/
theorem map_defineAll {ps : List Int} {τs : List Ty} (hlen : ps.length = τs.length) (hps : ps.Nodup)
    (θ : Int → Ty) : ps.map (defineAll θ ps τs) = τs := by
  induction ps generalizing θ τs with
  | nil =>
      cases τs with
      | nil => rfl
      | cons τ τs => simp at hlen
  | cons p ps ih =>
      cases τs with
      | nil => simp at hlen
      | cons τ τs =>
          obtain ⟨hp, hps⟩ := List.nodup_cons.1 hps
          rw [List.map_cons, defineAll, defineAll_of_notMem hp, Function.update_self,
            ih (by simpa using hlen) hps]

/-! ## Types that stand for others -/

/-- The second type is the renamed first one, once definitions are put in. -/
def Ty.Stands (ρ : Int ↪ Int) (θ : Int → Ty) (a b : Ty) : Prop := b.bind θ = a.rename ρ

section Stands

variable {ρ : Int ↪ Int} {θ : Int → Ty}

theorem Ty.congruence_stands : Ty.Congruence (Ty.Stands ρ θ) where
  const := fun _ => rfl
  fn := by
    intro ps qs r s hps hr
    have hparams : qs.map (Ty.bind θ) = ps.map (Ty.rename ρ) := by
      induction hps with
      | nil => rfl
      | cons h _ ih => rw [List.map_cons, List.map_cons, h, ih]
    rw [Ty.Stands, Ty.bind_fn, Ty.rename_fn, hparams, hr]

theorem Ty.Stands.eq {a b : Ty} (h : Ty.Stands ρ .var a b) : b = a.rename ρ :=
  (Ty.bind_var_eq_self b).symm.trans h

/-- What stands for a type without definitions does so with them. -/
theorem Ty.Stands.weaken (hθ : ∀ i, θ (ρ i) = .var (ρ i)) {a b : Ty} (h : Ty.Stands ρ .var a b) :
    Ty.Stands ρ θ a b := by
  rw [Ty.Stands, h.eq, Ty.bind_rename]
  exact Ty.bind_congr fun i _ => hθ i

/-- Equations that stand for each other need no definitions. -/
theorem defines_of_alike {es es' : List Equation}
    (h : List.Forall₂ (Equation.Alike (Ty.Stands ρ θ)) es es') : Defines ρ θ es es' θ :=
  defines_of_standsFor (h.imp fun _ _ he => ⟨he.left, he.right⟩)

/-- A place stands for the type of its value. -/
theorem stands_defineAll (ρ : Int ↪ Int) {ps : List Int} {τs : List Ty}
    (hlen : ps.length = τs.length) (hps : ps.Nodup) (θ : Int → Ty) :
    List.Forall₂ (Ty.Stands ρ (defineAll θ ps (τs.map (Ty.rename ρ)))) τs (ps.map .var) := by
  have hmap : ps.map (defineAll θ ps (τs.map (Ty.rename ρ))) = τs.map (Ty.rename ρ) :=
    map_defineAll (hlen.trans (List.length_map _).symm) hps θ
  rw [← List.forall₂_eq_eq_eq, List.forall₂_map_left_iff, List.forall₂_map_right_iff] at hmap
  rw [List.forall₂_map_right_iff]
  exact hmap.flip

end Stands

/-- From the start on, the second supply is behind the room for new variables. -/
theorem Supply.ahead_initial (n : Nat) : Supply.initial.Ahead (Ty.Stands (shiftPast n) .var) n := by
  intro i hi
  rw [Ty.Stands, Ty.bind_var, Ty.rename_var, shiftPast_of_nonneg hi]

/-! ## The walks -/

namespace Scope

variable {R : Ty → Ty → Prop} {Γ : Scope}

theorem parallel_self (hR : Ty.Congruence R) (hΓ : Γ.All Ty.Ground) : Parallel R Eq Γ Γ := by
  rintro x _ rfl
  refine ⟨?_, fun _ => rfl⟩
  cases hx : Γ.lookup x with
  | none => exact .none
  | some τ => exact .some (hR.ground (hΓ x τ hx))

/-- Names that are not bound anew keep their types. -/
theorem parallel_extend_of_notMem (hR : Ty.Congruence R) (hΓ : Γ.All Ty.Ground) {names : List Text}
    {τs : List Ty} (hlen : τs.length = names.length) :
    Parallel R (fun x y => x = y ∧ x ∉ names) Γ (Γ.extend (names.zip τs)) := by
  rintro x _ ⟨rfl, hx⟩
  have hnone : (names.zip τs).reverse.lookup x = none := by
    have hsome := isSome_lookup_zip hlen x
    simpa [hx] using hsome
  rw [lookup_extend, hnone, Option.none_or]
  exact parallel_self hR hΓ x x rfl

end Scope

namespace Term

open Walk

variable {ρ : Int ↪ Int} {d : Int} {Γ Γ' : Scope} {bs : List (Binding Term)} {b : Term}

/-- Where values have related types, the equations of a `letrec` between them and their places are
definitions of the places. -/
theorem defines_generateRecursive (origin origin' : Term) {ps : List Int}
    (hlen : ps.length = bs.length) (hps : ps.Nodup) (hnew : ∀ p ∈ ps, p ∉ Set.range ρ)
    (hdeclared : ∀ a, some a ∈ bs.map Binding.declared → a.Ground)
    (hvalues : ∀ x ∈ bs, WalksParallel (Ty.Stands ρ .var) d Γ Γ' x.value x.value) :
    Walk.Parallel (Ty.Stands ρ .var) d
      (fun g g' => g.trees.length = bs.length ∧
        ∀ θ : Int → Ty, (∀ i, θ (ρ i) = .var (ρ i)) → (∀ p ∈ ps, θ p = .var p) →
          Defines ρ θ g.equations g'.equations
            (defineAll θ ps ((g.trees.map TypedTerm.type).map (Ty.rename ρ))))
      (generateValues Γ origin bs) (generateRecursive Γ' origin' (ps.map .var) bs) := by
  induction bs generalizing ps with
  | nil =>
      cases ps with
      | nil => exact parallel_pure ⟨rfl, fun θ _ _ => .done θ⟩
      | cons p ps => simp at hlen
  | cons x bs ih =>
      cases ps with
      | nil => simp at hlen
      | cons p ps =>
          obtain ⟨hp, hps⟩ := List.nodup_cons.1 hps
          refine (hvalues x (by simp)).bind ?_
          intro g g' hg
          refine (ih (by simpa using hlen) hps (fun q hq => hnew q (List.mem_cons_of_mem _ hq))
            (fun a ha => hdeclared a (List.mem_cons_of_mem _ ha))
            (fun y hy => hvalues y (List.mem_cons_of_mem _ hy))).bind ?_
          rintro gs gs' ⟨hgs, hdefines⟩
          refine parallel_pure ⟨congrArg (· + 1) hgs, ?_⟩
          intro θ hfixes hopen
          have hvalue : Defines ρ θ g.equations g'.equations θ := by
            refine defines_of_alike (hg.equations.imp ?_)
            exact fun e e' he => ⟨he.left.weaken hfixes, he.right.weaken hfixes, he.origin⟩
          -- The place is defined from here on, so what is asked of it is asked of its value.
          have hasked : Defines ρ (Function.update θ p (g.trees.type.rename ρ))
              (x.declared.toList.map fun a => ⟨g.trees.type, a, some origin⟩)
              (x.declared.toList.map fun a => ⟨.var p, a, some origin'⟩)
              (Function.update θ p (g.trees.type.rename ρ)) := by
            refine defines_of_standsFor ?_
            rw [List.forall₂_map_left_iff, List.forall₂_map_right_iff, List.forall₂_same]
            intro a ha
            have hground : a.Ground := hdeclared a (by simp [Option.mem_toList.1 ha])
            exact ⟨Function.update_self p _ θ, Ty.congruence_stands.ground hground⟩
          have hplace : Defines ρ θ (x.declared.toList.map fun a => ⟨g.trees.type, a, some origin⟩)
              (⟨.var p, g'.trees.type, some origin'⟩ ::
                x.declared.toList.map fun a => ⟨.var p, a, some origin'⟩)
              (Function.update θ p (g.trees.type.rename ρ)) :=
            .define (hnew p (by simp)) (hopen p (by simp)) (hg.trees.type.weaken hfixes) hasked
          -- The definition touches neither the renamed variables nor the places that follow.
          have hrest := hdefines (Function.update θ p (g.trees.type.rename ρ))
            (by
              intro i
              rw [Function.update_of_ne fun heq => hnew p (by simp) ⟨i, heq⟩]
              exact hfixes i)
            (by
              intro q hq
              have hqp : q ≠ p := by
                rintro rfl
                exact hp hq
              rw [Function.update_of_ne hqp]
              exact hopen q (List.mem_cons_of_mem _ hq))
          exact (hvalue.append hplace).append hrest

/-- A term that does not mention the new names does not see what they stand for. -/
theorem parallel_of_unmentioned {R : Ty → Ty → Prop} (hR : Ty.Congruence R) (hΓ : Γ.All Ty.Ground)
    {v : Term} (hv : v.Annotated Ty.Ground) {names : List Text}
    (hfree : ∀ y ∈ names, y ∉ v.freeNames) {τs : List Ty} (hlen : τs.length = names.length) :
    WalksParallel R d Γ (Γ.extend (names.zip τs)) v v := by
  refine parallel_generate hR ((alpha_rfl (fun _ => rfl) v).congr ?_)
    (fun a ha => hR.ground (hv a ha))
    (Scope.parallel_extend_of_notMem hR hΓ hlen)
  rintro y _ hy rfl
  exact ⟨rfl, fun hmem => hfree y hmem hy⟩

/-- A term that sees related types under the new names gets related types. -/
theorem parallel_of_boundTypes {R : Ty → Ty → Prop} (hR : Ty.Congruence R) (hΓ : Γ.All Ty.Ground)
    (hb : b.Annotated Ty.Ground) {names : List Text} {τs τs' : List Ty}
    (hbound : BoundTypes R names names τs τs') :
    WalksParallel R d (Γ.extend (names.zip τs)) (Γ.extend (names.zip τs')) b b :=
  parallel_generate hR (alpha_rfl (fun _ => under_self fun _ => rfl) b)
    (fun a ha => hR.ground (hb a ha))
    ((Scope.parallel_self hR hΓ).extend hbound)

/-- The places are variables that the walk over the `let` does not have, even renamed. -/
theorem exists_places (bs : List (Binding Term)) :
    ∃ ps : List Int, (freshAll bs).eval .initial =
      (.ok (ps.map .var), Supply.initial.shift bs.length) ∧
      ps.length = bs.length ∧ ps.Nodup ∧ ∀ p ∈ ps, p ∉ Set.range (shiftPast bs.length) := by
  refine ⟨Supply.initial.taken bs.length, eval_freshAll bs .initial, Supply.length_taken _ _,
    Supply.nodup_taken _ _, ?_⟩
  intro p hp
  have hbounds := Supply.mem_taken hp
  simp only [Supply.initial] at hbounds
  exact notMem_range_shiftPast hbounds.1 (by omega)

/-- The walk over a `letrec` whose values do not mention its names comes to the equations of the
`let` with definitions of the places, and to a type that stands for the type of the `let`; or to the
same fault. -/
theorem defines_letRec (hΓ : Γ.All Ty.Ground) (ht : (Term.letRec bs b).Annotated Ty.Ground)
    (hfree : ∀ x ∈ bs, ∀ y ∈ bs.map Binding.name, y ∉ x.value.freeNames) :
    (∃ g g' s s' θ, (Term.letIn bs b).generateFrom Γ .initial = (.ok g, s) ∧
      (Term.letRec bs b).generateFrom Γ .initial = (.ok g', s') ∧
      Defines (shiftPast bs.length) .var g.equations g'.equations θ ∧
      Ty.Stands (shiftPast bs.length) θ g.trees.type g'.trees.type) ∨
    ∃ e s s', (Term.letIn bs b).generateFrom Γ .initial = (.error e, s) ∧
      (Term.letRec bs b).generateFrom Γ .initial = (.error e, s') := by
  obtain ⟨hannvs, hannbs, hannb⟩ := annotated_letRec.1 ht
  obtain ⟨ps, hplaces, hlen, hnodup, hnew⟩ := exists_places bs
  have hlenNames : (ps.map Ty.var).length = (bs.map Binding.name).length := by simp [hlen]
  have hahead := Supply.ahead_initial bs.length
  -- The values do not see the places.
  have hunseen : ∀ x ∈ bs, WalksParallel (Ty.Stands (shiftPast bs.length) .var) bs.length Γ
      (Γ.extend ((bs.map Binding.name).zip (ps.map .var))) x.value x.value :=
    fun x hx => parallel_of_unmentioned Ty.congruence_stands hΓ (hannvs x hx) (hfree x hx) hlenNames
  have hwalk :=
    defines_generateRecursive (.letIn bs b) (.letRec bs b) hlen hnodup hnew hannbs hunseen
  rcases hrun : (generateValues Γ (.letIn bs b) bs).eval .initial with ⟨e | gs, s₁⟩
  · right
    have hrun' := hwalk.error hahead hrun
    exact ⟨e, _, _, eval_bind_error.2 (Or.inl hrun),
      eval_bind_error.2 (Or.inr ⟨_, _, hplaces, eval_bind_error.2 (Or.inl hrun')⟩)⟩
  obtain ⟨hahead₁, gs', hrun', hgs, hdefines⟩ := hwalk.ok hahead hrun
  have hlenTypes : ps.length = (gs.trees.map TypedTerm.type).length := by simp [hlen, hgs]
  have hvalues := hdefines .var (fun _ => rfl) (fun _ _ => rfl)
  have hstands := stands_defineAll (shiftPast bs.length) hlenTypes hnodup .var
  have hfixes :
      ∀ i, defineAll .var ps ((gs.trees.map TypedTerm.type).map (Ty.rename (shiftPast bs.length)))
      (shiftPast bs.length i) = .var (shiftPast bs.length i) :=
    fun i => defineAll_of_notMem (fun hi => hnew _ hi ⟨i, rfl⟩) _ _
  generalize defineAll .var ps _ = θ at hvalues hstands hfixes
  -- The body sees a place where the body of the `let` sees the type of the value.
  have hbody : WalksParallel (Ty.Stands (shiftPast bs.length) θ) bs.length _ _ b b :=
    parallel_of_boundTypes Ty.congruence_stands hΓ hannb ⟨hstands, by simp [hgs], hlenNames⟩
  have hahead₂ : s₁.Ahead (Ty.Stands (shiftPast bs.length) θ) bs.length :=
    fun i hi => (hahead₁ i hi).weaken hfixes
  rcases hrunb :
    (generate (Γ.extend ((bs.map Binding.name).zip (gs.trees.map TypedTerm.type))) b).eval s₁
    with ⟨e | gb, s₂⟩
  · right
    have hrunb' := hbody.error hahead₂ hrunb
    exact ⟨e, _, _, eval_bind_error.2 (Or.inr ⟨_, _, hrun, eval_bind_error.2 (Or.inl hrunb)⟩),
      eval_bind_error.2 (Or.inr ⟨_, _, hplaces,
        eval_bind_error.2 (Or.inr ⟨_, _, hrun', eval_bind_error.2 (Or.inl hrunb')⟩)⟩)⟩
  · left
    obtain ⟨_, gb', hrunb', hgb⟩ := hbody.ok hahead₂ hrunb
    refine ⟨_, _, _, _, θ, eval_bind_ok.2 ⟨_, _, hrun, eval_bind_ok.2 ⟨_, _, hrunb, eval_pure _ _⟩⟩,
      eval_bind_ok.2 ⟨_, _, hplaces, eval_bind_ok.2 ⟨_, _, hrun',
        eval_bind_ok.2 ⟨_, _, hrunb', eval_pure _ _⟩⟩⟩, ?_, hgb.trees.type⟩
    exact hvalues.append (defines_of_alike hgb.equations)

end Term

/-! ## The answers -/

/-- Renaming does not change the kind of a conflict. -/
theorem Conflict.kind_report_rename (c : Conflict) (ρ : Int → Int) :
    (c.rename ρ).report.kind = c.report.kind := by
  cases c <;> rfl

/-- The faults are of one kind, and of a name that is not in scope they tell the same. -/
def InferFault.Similar (f f' : InferFault) : Prop :=
  f.report.kind = f'.report.kind ∧ ∀ x, f = .unbound x ↔ f' = .unbound x

/-- Definitions do not change the answer. -/
theorem Generated.sameAnswer_of_defines {ρ : Int ↪ Int} {θ : Int → Ty} {g g' : Generated TypedTerm}
    (hequations : Defines ρ .var g.equations g'.equations θ)
    (htype : Ty.Stands ρ θ g.trees.type g'.trees.type) :
    SameAnswer InferFault.Similar (g.rootType none) (g'.rootType none) := by
  rcases solveFrom_of_defines hequations (Subst.mirrors_empty ρ) with
    ⟨σ, σ', hσ, hσ', hmirrors⟩ | ⟨c, e, e', hc, hc'⟩
  · rw [rootType_none_of_ok hσ, rootType_none_of_ok hσ', hmirrors.bind_assign htype]
    exact .ok (Ty.normal_rename ρ _).symm
  · rw [rootType_of_error hc, rootType_of_error hc']
    exact .error ⟨(c.kind_report_rename ρ).symm, by simp [Unsolved.toInfer]⟩

namespace Term

/-- A `letrec` whose values do not mention its names has the answer of the `let`: types with one
normal form, or faults of one kind, with the same name where a name is not in scope.  Within the
limits the same holds, unless a limit refuses one of the two. -/
theorem sameAnswer_letRec (Γ : Scope) (bs : List (Binding Term)) (b : Term) (hΓ : Γ.All Ty.Ground)
    (ht : (Term.letRec bs b).Annotated Ty.Ground)
    (hfree : ∀ x ∈ bs, ∀ y ∈ bs.map Binding.name, y ∉ x.value.freeNames) :
    SameAnswer InferFault.Similar ((Term.letIn bs b).principalType Γ)
      ((Term.letRec bs b).principalType Γ) ∧
      (SameAnswer InferFault.Similar ((Term.letIn bs b).checkType Γ)
        ((Term.letRec bs b).checkType Γ) ∨
        (Term.letIn bs b).Refused Γ ∨ (Term.letRec bs b).Refused Γ) := by
  have hanswer : SameAnswer InferFault.Similar ((Term.letIn bs b).principalType Γ)
      ((Term.letRec bs b).principalType Γ) := by
    rcases defines_letRec hΓ ht hfree with
      ⟨g, g', s, s', θ, hg, hg', hequations, htype⟩ | ⟨e, s, s', he, he'⟩
    · rw [principalType_of_generated hg, principalType_of_generated hg']
      exact Generated.sameAnswer_of_defines hequations htype
    · rw [principalType_of_fault he, principalType_of_fault he']
      exact .error ⟨rfl, fun x => Iff.rfl⟩
  exact ⟨hanswer, sameAnswer_checkType hanswer⟩

/-- Two functions that do not mention each other, one with an annotation:
`(g : Bool -> Bool) = fun y -> y, h = fun z -> z`. -/
def separateBindings : List (Binding Term) :=
  [⟨"g", some (.fn [.bool] .bool), .lam [⟨"y", none⟩] (.var "y")⟩,
    ⟨"h", none, .lam [⟨"z", none⟩] (.var "z")⟩]

/-- The second function, if the first one says so: `if g true then h else h`. -/
def guardedUse : Term := .cond (.app (.var "g") [.lit (.bool true)]) (.var "h") (.var "h")

/-- The second function keeps its type up to names, though its name stands for a place in the
`letrec`. -/
theorem sameAnswer_separateBindings :
    Scope.empty.All Ty.Ground ∧ (Term.letRec separateBindings guardedUse).Annotated Ty.Ground ∧
      (∀ x ∈ separateBindings, ∀ y ∈ separateBindings.map Binding.name, y ∉ x.value.freeNames) ∧
      (Term.letIn separateBindings guardedUse).principalType .empty = .ok (.fn [.var 1] (.var 1)) ∧
      ∃ T, (Term.letRec separateBindings guardedUse).principalType .empty = .ok T ∧
        T.normal = .fn [.var 0] (.var 0) := by
  have hΓ : Scope.empty.All Ty.Ground := Scope.all_empty
  have ht : (Term.letRec separateBindings guardedUse).Annotated Ty.Ground := by
    simp only [Annotated]
    decide
  have hfree :
      ∀ x ∈ separateBindings, ∀ y ∈ separateBindings.map Binding.name, y ∉ x.value.freeNames := by
    simp [separateBindings, freeNames]
  obtain ⟨g, s, hfrom, htype, hequations⟩ : ∃ g s,
      (Term.letIn separateBindings guardedUse).generateFrom .empty .initial = (.ok g, s) ∧
        g.trees.type = .fn [.var 1] (.var 1) ∧
        g.equations =
          [⟨.fn [.var 0] (.var 0), .fn [.bool] .bool, some (.letIn separateBindings guardedUse)⟩,
           ⟨.fn [.var 0] (.var 0), .fn [.bool] (.var 2),
             some (.app (.var "g") [.lit (.bool true)])⟩,
           ⟨.var 2, .bool, some guardedUse⟩,
           ⟨.fn [.var 1] (.var 1), .fn [.var 1] (.var 1), some guardedUse⟩] := ⟨_, _, rfl, rfl, rfl⟩
  have hsolve : (solve none g.equations).outcome =
      .ok ⟨[(0, .bool), (2, .bool)], by decide⟩ := by
    rw [hequations]
    cbv
  have hT : (Term.letIn separateBindings guardedUse).principalType .empty =
      .ok (.fn [.var 1] (.var 1)) := by
    rw [principalType_of_solve hfrom hsolve, htype]
    rfl
  have hanswer := (sameAnswer_letRec .empty separateBindings guardedUse hΓ ht hfree).1
  rw [hT] at hanswer
  refine ⟨hΓ, ht, hfree, hT, ?_⟩
  generalize (Term.letRec separateBindings guardedUse).principalType .empty = answer at hanswer ⊢
  cases hanswer with
  | ok hnormal => exact ⟨_, rfl, hnormal.symm.trans (by decide)⟩

end Term

end Monotype
