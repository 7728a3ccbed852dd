import Monotype.Proofs.Typing.Known
import Monotype.Proofs.Unify.Rename

/-!
# Renaming annotations and scopes

Type variables may stand in the annotations of a term and in the types of its scope.  This file
renames them and follows inference along.

A walk takes its own variables from the supply, by number, and a renaming has no say in that.  So a
walk over a renamed term gives the renamed typed tree and the renamed equations if the renaming
treats the variables that were taken as the supply does: `Walk.Renames` says by how much the second
supply is ahead, and that the renaming moves the variables that the first walk takes by as much.
Solving commutes with renaming as it stands (`solveFrom_rename`), and so does reading the type of
the term back (`Generated.rootType_rename`).
-/

namespace Monotype

/-! ## Terms -/

def Param.rename (ρ : Int → Int) (p : Param) : Param := ⟨p.name, p.declared.map (Ty.rename ρ)⟩

namespace Term

mutual

def rename (ρ : Int → Int) : Term → Term
  | .hole => .hole
  | .lit v => .lit v
  | .var x => .var x
  | .cond c t e => .cond (rename ρ c) (rename ρ t) (rename ρ e)
  | .binop op l r => .binop op (rename ρ l) (rename ρ r)
  | .lam ps b => .lam (ps.map (Param.rename ρ)) (rename ρ b)
  | .app f args => .app (rename ρ f) (renameAll ρ args)
  | .letIn bs b => .letIn (renameBindings ρ bs) (rename ρ b)
  | .letRec bs b => .letRec (renameBindings ρ bs) (rename ρ b)

def renameAll (ρ : Int → Int) : List Term → List Term
  | [] => []
  | t :: ts => rename ρ t :: renameAll ρ ts

def renameBindings (ρ : Int → Int) : List (Binding Term) → List (Binding Term)
  | [] => []
  | ⟨x, declared, v⟩ :: bs => ⟨x, declared.map (Ty.rename ρ), rename ρ v⟩ :: renameBindings ρ bs

end

theorem length_renameBindings (ρ : Int → Int) (bs : List (Binding Term)) :
    (renameBindings ρ bs).length = bs.length := by
  induction bs with
  | nil => rfl
  | cons x bs ih => simp [renameBindings, ih]

theorem map_name_renameBindings (ρ : Int → Int) (bs : List (Binding Term)) :
    (renameBindings ρ bs).map Binding.name = bs.map Binding.name := by
  induction bs with
  | nil => rfl
  | cons x bs ih => simp [renameBindings, ih]

theorem map_name_rename (ρ : Int → Int) (ps : List Param) :
    (ps.map (Param.rename ρ)).map Param.name = ps.map Param.name := by
  simp [Param.rename, Function.comp_def]

section Congr

variable {ρ ρ' : Int → Int}

theorem map_rename_congr {declared : Option Ty}
    (h : ∀ a, declared = some a → ∀ i ∈ a.vars, ρ i = ρ' i) :
    declared.map (Ty.rename ρ) = declared.map (Ty.rename ρ') := by
  cases declared with
  | none => rfl
  | some a => exact congrArg some (Ty.rename_congr (h a rfl))

theorem renameAll_congr {ts : List Term} (h : ∀ t ∈ ts, t.rename ρ = t.rename ρ') :
    renameAll ρ ts = renameAll ρ' ts := by
  induction ts with
  | nil => rfl
  | cons t ts ih => simp only [renameAll, h t (by simp), ih fun u hu => h u (by simp [hu])]

/-- A renaming of bindings depends on the variables of their annotations only. -/
theorem renameBindings_congr {bs : List (Binding Term)}
    (hvalues : ∀ x ∈ bs, x.value.rename ρ = x.value.rename ρ')
    (hdeclared : ∀ a, some a ∈ bs.map Binding.declared → ∀ i ∈ a.vars, ρ i = ρ' i) :
    renameBindings ρ bs = renameBindings ρ' bs := by
  induction bs with
  | nil => rfl
  | cons x bs ih =>
      have hx : x.declared.map (Ty.rename ρ) = x.declared.map (Ty.rename ρ') :=
        map_rename_congr fun a ha => hdeclared a (by simp [ha])
      have hrest := ih (fun y hy => hvalues y (by simp [hy]))
        fun a ha => hdeclared a (List.mem_cons_of_mem _ ha)
      simp only [renameBindings, hx, hvalues x (by simp), hrest]

/-- A renaming matters for the variables in the annotations only. -/
theorem rename_congr {t : Term} (h : t.Annotated fun a => ∀ i ∈ a.vars, ρ i = ρ' i) :
    t.rename ρ = t.rename ρ' := by
  induction t using Term.induct with
  | hole => rfl
  | lit v => rfl
  | var x => rfl
  | cond c t e ihc iht ihe =>
      rcases annotated_cond.1 h with ⟨hc, ht, he⟩
      simp only [rename, ihc hc, iht ht, ihe he]
  | binop op l r ihl ihr =>
      rcases annotated_binop.1 h with ⟨hl, hr⟩
      simp only [rename, ihl hl, ihr hr]
  | lam ps b ihb =>
      rcases annotated_lam.1 h with ⟨hps, hb⟩
      have hparams : ps.map (Param.rename ρ) = ps.map (Param.rename ρ') := by
        apply List.map_congr_left
        intro p hp
        have hp' := map_rename_congr fun a ha => hps a (List.mem_map.2 ⟨p, hp, ha⟩)
        simp only [Param.rename, hp']
      simp only [rename, hparams, ihb hb]
  | app f args ihf ihargs =>
      rcases annotated_app.1 h with ⟨hf, hargs⟩
      simp only [rename, ihf hf, renameAll_congr fun a ha => ihargs a ha (hargs a ha)]
  | letIn bs b ihbs ihb =>
      rcases annotated_letIn.1 h with ⟨hvalues, hdeclared, hb⟩
      simp only [rename, ihb hb,
        renameBindings_congr (fun x hx => ihbs x hx (hvalues x hx)) hdeclared]
  | letRec bs b ihbs ihb =>
      rcases annotated_letRec.1 h with ⟨hvalues, hdeclared, hb⟩
      simp only [rename, ihb hb,
        renameBindings_congr (fun x hx => ihbs x hx (hvalues x hx)) hdeclared]

end Congr

section Depth

variable (ρ : Int → Int)

mutual

/-- Annotations do not count for the depth. -/
theorem depth_rename : ∀ t : Term, (t.rename ρ).depth = t.depth
  | .hole => rfl
  | .lit _ => rfl
  | .var _ => rfl
  | .cond c t e => by simp only [rename, depth, depth_rename c, depth_rename t, depth_rename e]
  | .binop _ l r => by simp only [rename, depth, depth_rename l, depth_rename r]
  | .lam _ b => by simp only [rename, depth, depth_rename b]
  | .app f args => by simp only [rename, depth, depth_rename f, depthAll_rename args]
  | .letIn bs b => by simp only [rename, depth, depthBindings_rename bs, depth_rename b]
  | .letRec bs b => by simp only [rename, depth, depthBindings_rename bs, depth_rename b]

theorem depthAll_rename : ∀ ts : List Term, depthAll (renameAll ρ ts) = depthAll ts
  | [] => rfl
  | t :: ts => by simp only [renameAll, depthAll, depth_rename t, depthAll_rename ts]

theorem depthBindings_rename :
    ∀ bs : List (Binding Term), depthBindings (renameBindings ρ bs) = depthBindings bs
  | [] => rfl
  | ⟨_, _, v⟩ :: bs => by
      simp only [renameBindings, depthBindings, depth_rename v, depthBindings_rename bs]

end

mutual

/-- Pruning commutes with renaming. -/
theorem prune_rename : ∀ (n : Nat) (t : Term), (t.rename ρ).prune n = (t.prune n).rename ρ
  | 0, _ => by simp only [prune, rename]
  | _ + 1, .hole => rfl
  | _ + 1, .lit _ => rfl
  | _ + 1, .var _ => rfl
  | n + 1, .cond c t e => by
      simp only [rename, prune, prune_rename n c, prune_rename n t, prune_rename n e]
  | n + 1, .binop _ l r => by simp only [rename, prune, prune_rename n l, prune_rename n r]
  | n + 1, .lam _ b => by simp only [rename, prune, prune_rename n b]
  | n + 1, .app f args => by simp only [rename, prune, prune_rename n f, pruneAll_rename n args]
  | n + 1, .letIn bs b => by simp only [rename, prune, pruneBindings_rename n bs, prune_rename n b]
  | n + 1, .letRec bs b => by simp only [rename, prune, pruneBindings_rename n bs, prune_rename n b]

theorem pruneAll_rename :
    ∀ (n : Nat) (ts : List Term), pruneAll n (renameAll ρ ts) = renameAll ρ (pruneAll n ts)
  | _, [] => rfl
  | n, t :: ts => by simp only [renameAll, pruneAll, prune_rename n t, pruneAll_rename n ts]

theorem pruneBindings_rename : ∀ (n : Nat) (bs : List (Binding Term)),
    pruneBindings n (renameBindings ρ bs) = renameBindings ρ (pruneBindings n bs)
  | _, [] => rfl
  | n, ⟨_, _, v⟩ :: bs => by
      simp only [renameBindings, pruneBindings, prune_rename n v, pruneBindings_rename n bs]

end

/-- As much is visible of the renamed term. -/
theorem visible_rename (t : Term) : (t.rename ρ).visible = t.visible.rename ρ := by
  simp only [visible, depth_rename, prune_rename]
  split <;> rfl

end Depth

end Term

/-! ## Scopes -/

def Layer.rename (ρ : Int → Int) (layer : Layer) : Layer where
  entries := layer.entries.map (Prod.map id (Ty.rename ρ))
  nodup := by simpa [Entries.keys, Function.comp_def] using layer.nodup

namespace Scope

def rename (ρ : Int → Int) (Γ : Scope) : Scope := ⟨Γ.layers.map (Layer.rename ρ)⟩

/-- A name in the renamed scope has the renamed type. -/
theorem lookup_rename (ρ : Int → Int) (Γ : Scope) (x : Text) :
    (Γ.rename ρ).lookup x = (Γ.lookup x).map (Ty.rename ρ) := by
  have hlayer : ∀ layer : Layer, (Layer.rename ρ layer).get? x = (layer.get? x).map (Ty.rename ρ) :=
    fun layer => Entries.lookup_map_value _ layer.entries x
  simp only [lookup, rename, List.findSome?_map, Function.comp_def, hlayer, List.map_findSome?]

theorem nearest_rename (n : Nat) (ρ : Int → Int) (Γ : Scope) :
    (Γ.rename ρ).nearest n = (Γ.nearest n).rename ρ := by
  simp [nearest, rename]

/-- The second scope gives every name the renamed type. -/
def Renamed (ρ : Int → Int) (Γ Γ' : Scope) : Prop :=
  ∀ x, Γ'.lookup x = (Γ.lookup x).map (Ty.rename ρ)

variable {ρ ρ' : Int → Int} {Γ Γ' : Scope}

/-- Only what the renaming does to types in scope matters. -/
theorem renamed_rename (h : Γ.All fun τ => ∀ i ∈ τ.vars, ρ i = ρ' i) :
    Renamed ρ' Γ (Γ.rename ρ) := by
  intro x
  rw [lookup_rename]
  cases hx : Γ.lookup x with
  | none => rfl
  | some τ => exact congrArg some (Ty.rename_congr (h x τ hx))

/-- A binder with renamed types keeps one scope a renaming of the other. -/
theorem Renamed.extend (h : Renamed ρ Γ Γ') (names : List Text) (τs : List Ty) :
    Renamed ρ (Γ.extend (names.zip τs)) (Γ'.extend (names.zip (τs.map (Ty.rename ρ)))) := by
  intro x
  rw [List.zip_map_right, lookup_extend, lookup_extend, ← List.map_reverse,
    Entries.lookup_map_value, h x]
  cases (names.zip τs).reverse.lookup x <;> rfl

end Scope

/-! ## Walks -/

def Supply.shift (d : Int) (s : Supply) : Supply := ⟨s.next + d⟩

namespace Walk

variable {α β γ : Type} {ρ : Int → Int} {d : Int}

/-- The second walk, from a supply that is ahead by `d`, comes to the renamed result of the first
one, and leaves a supply that is ahead by `d`, if the variables that the first walk takes are moved
by `d`. -/
structure Renames (ρ : Int → Int) (d : Int) (f : α → β) (w : Walk α) (w' : Walk β) : Prop where
  grows : ∀ s, s.next ≤ (w.eval s).2.next
  eval_shift : ∀ s, (∀ i, s.next ≤ i → i < (w.eval s).2.next → ρ i = i + d) →
    w'.eval (s.shift d) = ((w.eval s).1.map f, (w.eval s).2.shift d)

/-- A result is renamed. -/
theorem renames_pure {f : α → β} {a : α} {b : β} (h : b = f a) :
    Renames ρ d f (pure a) (pure b) where
  grows := fun s => Int.le_refl s.next
  eval_shift := by
    intro s _
    rw [h]
    rfl

theorem renames_throw {f : α → β} (e : ScopeFault) : Renames ρ d f (throw e) (throw e) where
  grows := fun s => Int.le_refl s.next
  eval_shift := fun _ _ => rfl

/-- One walk after another renames step by step. -/
theorem Renames.bind {δ : Type} {f : α → β} {g : γ → δ} {w : Walk α} {w' : Walk β} {k : α → Walk γ}
    {k' : β → Walk δ} (hw : Renames ρ d f w w') (hk : ∀ a, Renames ρ d g (k a) (k' (f a))) :
    Renames ρ d g (w >>= k) (w' >>= k') where
  grows := by
    intro s
    have hfirst := hw.grows s
    rw [eval_bind]
    rcases hs : w.eval s with ⟨r, s₁⟩
    rw [hs] at hfirst
    cases r with
    | ok a => exact Int.le_trans hfirst ((hk a).grows s₁)
    | error e => exact hfirst
  eval_shift := by
    intro s hρ
    have hfirst := hw.eval_shift s
    have hgrows := hw.grows s
    rw [eval_bind] at hρ ⊢
    rw [eval_bind]
    rcases hs : w.eval s with ⟨r, s₁⟩
    rw [hs] at hfirst hgrows hρ
    cases r with
    | ok a =>
        -- The rest takes its variables after those that are taken before it.
        have hrest : s₁.next ≤ ((k a).eval s₁).2.next := (hk a).grows s₁
        rw [hfirst fun i hi hi' => hρ i hi (Int.lt_of_lt_of_le hi' hrest)]
        exact (hk a).eval_shift s₁ fun i hi => hρ i (Int.le_trans hgrows hi)
    | error e =>
        rw [hfirst hρ]
        rfl

/-- Fresh variables are renamed to the ones that are ahead. -/
theorem renames_fresh : Renames ρ d (Ty.rename ρ) fresh fresh where
  grows := fun s => Int.le_of_lt (Int.lt_succ s.next)
  eval_shift := by
    intro s hρ
    have hnext : ρ s.next = s.next + d := hρ s.next (Int.le_refl _) (Int.lt_succ _)
    simp only [eval_fresh, Supply.fresh, Supply.advance, Supply.shift, Except.map, Ty.rename_var,
      hnext]
    congr 2
    omega

theorem renames_freshAll {as : List α} {bs : List β} (hlen : as.length = bs.length) :
    Renames ρ d (List.map (Ty.rename ρ)) (freshAll as) (freshAll bs) := by
  induction as generalizing bs with
  | nil =>
      cases bs with
      | nil => exact renames_pure rfl
      | cons b bs => simp at hlen
  | cons a as ih =>
      cases bs with
      | nil => simp at hlen
      | cons b bs =>
          refine renames_fresh.bind fun t => ?_
          refine (ih (by simpa using hlen)).bind fun ts => ?_
          exact renames_pure rfl

end Walk

/-! ## Generating -/

def Equation.rename (ρ : Int → Int) (e : Equation) : Equation :=
  ⟨e.left.rename ρ, e.right.rename ρ, e.origin.map (Term.rename ρ)⟩

namespace TypedTerm

mutual

def rename (ρ : Int → Int) : TypedTerm → TypedTerm
  | .node term type children bound =>
      .node (term.rename ρ) (type.rename ρ) (renameAll ρ children)
        (bound.map (Prod.map id (Ty.rename ρ)))

def renameAll (ρ : Int → Int) : List TypedTerm → List TypedTerm
  | [] => []
  | t :: ts => rename ρ t :: renameAll ρ ts

end

theorem renameAll_eq (ρ : Int → Int) (ts : List TypedTerm) :
    renameAll ρ ts = ts.map (rename ρ) := by
  induction ts with
  | nil => rfl
  | cons t ts ih => simp [renameAll, ih]

/-- Renaming reaches every node of a tree. -/
@[simp] theorem rename_node (ρ : Int → Int) (term : Term) (type : Ty) (children : List TypedTerm)
    (bound : List (Text × Ty)) :
    (node term type children bound).rename ρ =
      .node (term.rename ρ) (type.rename ρ) (children.map (rename ρ))
        (bound.map (Prod.map id (Ty.rename ρ))) := by
  rw [rename, renameAll_eq]

@[simp] theorem type_rename (ρ : Int → Int) (t : TypedTerm) :
    (t.rename ρ).type = t.type.rename ρ := by
  cases t
  rfl

theorem map_type_rename (ρ : Int → Int) (ts : List TypedTerm) :
    (ts.map (rename ρ)).map type = (ts.map type).map (Ty.rename ρ) := by
  simp [Function.comp_def]

end TypedTerm

namespace Generated

def rename (ρ : Int → Int) (g : Generated TypedTerm) : Generated TypedTerm :=
  ⟨g.trees.rename ρ, g.equations.map (Equation.rename ρ)⟩

def renameAll (ρ : Int → Int) (g : Generated (List TypedTerm)) : Generated (List TypedTerm) :=
  ⟨g.trees.map (TypedTerm.rename ρ), g.equations.map (Equation.rename ρ)⟩

end Generated

section Generate

open Walk

variable {ρ : Int → Int} {d : Int} {Γ Γ' : Scope}

/-- Annotations of parameters are renamed, and the other types are fresh on both sides. -/
theorem Param.renames_types (ps : List Param) :
    Renames ρ d (List.map (Ty.rename ρ)) (Param.types ps)
      (Param.types (ps.map (Param.rename ρ))) := by
  induction ps with
  | nil => exact renames_pure rfl
  | cons p ps ih =>
      rcases p with ⟨name, declared⟩
      cases declared with
      | none =>
          refine renames_fresh.bind fun t => ?_
          exact ih.bind fun ts => renames_pure rfl
      | some a => exact ih.bind fun ts => renames_pure rfl

namespace Term

def WalkRenames (ρ : Int → Int) (d : Int) (t : Term) : Prop :=
  ∀ {Γ Γ' : Scope}, Scope.Renamed ρ Γ Γ' →
    Renames ρ d (Generated.rename ρ) (generate Γ t) (generate Γ' (t.rename ρ))

/-- The walk over a list of terms renames if those over the terms do. -/
theorem renames_generateAll {ts : List Term} (hts : ∀ t ∈ ts, WalkRenames ρ d t)
    (hΓ : Scope.Renamed ρ Γ Γ') :
    Renames ρ d (Generated.renameAll ρ) (generateAll Γ ts) (generateAll Γ' (renameAll ρ ts)) := by
  induction ts with
  | nil => exact renames_pure rfl
  | cons t ts ih =>
      refine (hts t (by simp) hΓ).bind fun t' => ?_
      refine (ih fun u hu => hts u (by simp [hu])).bind fun ts' => ?_
      exact renames_pure (by simp [Generated.rename, Generated.renameAll])

/-- The equations that annotations ask for are renamed with them. -/
theorem map_equation_toList (declared : Option Ty) (type : Ty) (origin : Term) :
    (declared.map (Ty.rename ρ)).toList.map
        (fun a => (⟨type.rename ρ, a, some (origin.rename ρ)⟩ : Equation)) =
      (declared.toList.map fun a => (⟨type, a, some origin⟩ : Equation)).map
        (Equation.rename ρ) := by
  cases declared <;> rfl

/-- The walk over the values of a `let` renames. -/
theorem renames_generateValues {bs : List (Binding Term)} (origin : Term)
    (hbs : ∀ x ∈ bs, WalkRenames ρ d x.value) (hΓ : Scope.Renamed ρ Γ Γ') :
    Renames ρ d (Generated.renameAll ρ) (generateValues Γ origin bs)
      (generateValues Γ' (origin.rename ρ) (renameBindings ρ bs)) := by
  induction bs with
  | nil => exact renames_pure rfl
  | cons x bs ih =>
      refine (hbs x (by simp) hΓ).bind fun v' => ?_
      refine (ih fun y hy => hbs y (by simp [hy])).bind fun bs' => ?_
      exact renames_pure (by simp [Generated.rename, Generated.renameAll, map_equation_toList])

/-- The walk over the values of a `letrec` renames, also the types of the names that are there
before. -/
theorem renames_generateRecursive {bs : List (Binding Term)} (origin : Term) (places : List Ty)
    (hbs : ∀ x ∈ bs, WalkRenames ρ d x.value) (hΓ : Scope.Renamed ρ Γ Γ') :
    Renames ρ d (Generated.renameAll ρ) (generateRecursive Γ origin places bs)
      (generateRecursive Γ' (origin.rename ρ) (places.map (Ty.rename ρ))
        (renameBindings ρ bs)) := by
  induction bs generalizing places with
  | nil => exact renames_pure rfl
  | cons x bs ih =>
      cases places with
      | nil => exact renames_pure rfl
      | cons place places =>
          refine (hbs x (by simp) hΓ).bind fun v' => ?_
          refine (ih places fun y hy => hbs y (by simp [hy])).bind fun bs' => ?_
          refine renames_pure ?_
          simp [Generated.rename, Generated.renameAll, map_equation_toList, Equation.rename]

/-- The walk over a term renames. -/
theorem renames_generate (t : Term) : WalkRenames ρ d t := by
  induction t using Term.induct with
  | hole =>
      intro Γ Γ' _
      exact renames_throw _
  | lit v =>
      intro Γ Γ' _
      refine renames_pure ?_
      cases v <;> rfl
  | var x =>
      intro Γ Γ' hΓ
      cases hx : Γ.lookup x with
      | none =>
          simp only [generate, rename, hΓ x, hx]
          exact renames_throw _
      | some τ =>
          simp only [generate, rename, hΓ x, hx]
          exact renames_pure rfl
  | cond c t e ihc iht ihe =>
      intro Γ Γ' hΓ
      refine (ihc hΓ).bind fun c' => ?_
      refine (iht hΓ).bind fun t' => ?_
      refine (ihe hΓ).bind fun e' => ?_
      exact renames_pure (by simp [Generated.rename, Equation.rename, rename, Ty.bool])
  | binop op l r ihl ihr =>
      intro Γ Γ' hΓ
      refine (ihl hΓ).bind fun l' => ?_
      refine (ihr hΓ).bind fun r' => ?_
      cases hop : op.signature? with
      | none => exact renames_pure (by simp [Generated.rename, Equation.rename, rename, Ty.bool])
      | some signature =>
          rcases signature with ⟨operand, result⟩
          -- The types in a signature are constants.
          rcases op.bind_signature? (fun i => .var (ρ i)) hop with ⟨hoperand, hresult⟩
          exact renames_pure
            (by simp [Generated.rename, Equation.rename, rename, Ty.rename, hoperand, hresult])
  | lam ps b ihb =>
      intro Γ Γ' hΓ
      refine (Param.renames_types ps).bind fun types => ?_
      -- The names are kept, so the two bodies stand in scopes that differ by the renaming.
      simp only [map_name_rename]
      refine (ihb (hΓ.extend _ types)).bind fun b' => ?_
      exact renames_pure (by simp [Generated.rename, rename, List.zip_map_right])
  | app f args ihf ihargs =>
      intro Γ Γ' hΓ
      refine (ihf hΓ).bind fun f' => ?_
      refine (renames_generateAll (fun a ha => ihargs a ha) hΓ).bind fun args' => ?_
      refine renames_fresh.bind fun result => ?_
      exact renames_pure (by simp [Generated.rename, Generated.renameAll, Equation.rename, rename])
  | letIn bs b ihbs ihb =>
      intro Γ Γ' hΓ
      refine (renames_generateValues (.letIn bs b) (fun x hx => ihbs x hx) hΓ).bind fun bs' => ?_
      simp only [map_name_renameBindings, Generated.renameAll, TypedTerm.map_type_rename]
      refine (ihb (hΓ.extend _ _)).bind fun b' => ?_
      exact renames_pure (by simp [Generated.rename, rename, List.zip_map_right])
  | letRec bs b ihbs ihb =>
      intro Γ Γ' hΓ
      -- As many places are taken for the renamed bindings.
      refine (renames_freshAll (length_renameBindings ρ bs).symm).bind fun places => ?_
      simp only [map_name_renameBindings]
      have hbound := hΓ.extend (bs.map Binding.name) places
      refine (renames_generateRecursive (.letRec bs b) places (fun x hx => ihbs x hx) hbound).bind
        fun bs' => ?_
      refine (ihb hbound).bind fun b' => ?_
      exact renames_pure
        (by simp [Generated.rename, Generated.renameAll, rename, List.zip_map_right])

end Term

end Generate

/-! ## Solving -/

def Unsolved.rename (ρ : Int → Int) (u : Unsolved) : Unsolved :=
  ⟨u.obstacle.rename ρ, u.equation.rename ρ⟩

def Solving.rename (ρ : Int ↪ Int) (r : Solving) : Solving where
  outcome := (r.outcome.map (Subst.rename ρ)).mapError (Unsolved.rename ρ)
  steps := r.steps
  bindings := r.bindings.map (renameEntry ρ)

def InferFault.rename (ρ : Int → Int) : InferFault → InferFault
  | .conflict c e => .conflict (c.rename ρ) (e.rename ρ)
  | .unbound x => .unbound x
  | .hole => .hole
  | .endless => .endless
  | .tooDeep => .tooDeep

theorem toInfer_rename (ρ : Int → Int) (u : Unsolved) :
    (u.rename ρ).toInfer = u.toInfer.rename ρ := by
  rcases u with ⟨obstacle, e⟩
  cases obstacle <;> rfl

/-- Solving commutes with renaming. -/
theorem solveFrom_rename (ρ : Int ↪ Int) (limit : Option Nat) (σ : Subst) (es : List Equation) :
    solveFrom limit (σ.rename ρ) (es.map (Equation.rename ρ)) =
      (solveFrom limit σ es).rename ρ := by
  induction es generalizing σ with
  | nil => rfl
  | cons e es ih =>
      have hfirst : Unify.unify limit (σ.rename ρ) [(e.left.rename ρ, e.right.rename ρ)] =
          (Unify.unify limit σ [(e.left, e.right)]).rename ρ :=
        Unify.unify_rename ρ limit σ [(e.left, e.right)]
      cases hout : (Unify.unify limit σ [(e.left, e.right)]).outcome with
      | error o =>
          simp [solveFrom, Equation.rename, hfirst, hout, Unify.Attempt.rename, Solving.rename,
            Except.map, Except.mapError, Unsolved.rename]
      | ok σ₁ =>
          have hrest := ih σ₁
          simp [solveFrom, Equation.rename, hfirst, hout, Unify.Attempt.rename, Solving.rename,
            hrest, Except.map, Except.mapError]

/-- The type of the whole is renamed with the equations. -/
theorem Generated.rootType_rename (ρ : Int ↪ Int) (limit : Option Nat) (g : Generated TypedTerm) :
    (g.rename ρ).rootType limit =
      ((g.rootType limit).map (Ty.rename ρ)).mapError (InferFault.rename ρ) := by
  have hsolve : solve limit (g.rename ρ).equations = (solve limit g.equations).rename ρ :=
    solveFrom_rename ρ limit .empty g.equations
  cases hout : (solve limit g.equations).outcome with
  | error u =>
      have hout' : (solve limit (g.rename ρ).equations).outcome = .error (u.rename ρ) := by
        rw [hsolve, Solving.rename, hout]
        rfl
      rw [rootType_of_error hout, rootType_of_error hout', toInfer_rename]
      rfl
  | ok σ =>
      have htype : (g.rename ρ).trees.type = g.trees.type.rename ρ :=
        TypedTerm.type_rename ρ g.trees
      have hout' : (solve limit (g.rename ρ).equations).outcome = .ok (σ.rename ρ) := by
        rw [hsolve, Solving.rename, hout]
        rfl
      rw [rootType_of_ok hout, rootType_of_ok hout', htype, Subst.resolveWithin?_rename]
      cases σ.resolveWithin? limit g.trees.type <;> rfl

end Monotype
