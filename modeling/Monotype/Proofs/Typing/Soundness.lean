import Monotype.Proofs.Typing.Derivation
import Monotype.Proofs.Typing.Limits

/-!
# Soundness of inference

The walk over a term gives it a tree of types and lists equations.  Any graft that satisfies the
equations turns the tree into a typing derivation (`Term.derives_of_generate`): the rule of a node
holds because the equations of that node do, and because the scope in which the walk visits it, read
through the graft, is the context of the rule.

The solution of the equations is such a graft.  So the tree that inference answers is a derivation
of the term in the scope, with annotations and scope read through the solution
(`Term.derives_tree_of_infer_or_check`).
-/

namespace Monotype

/-! ## Scopes as contexts -/

theorem Entries.lookup_map_value {κ ν μ : Type} [DecidableEq κ] (f : ν → μ) (es : List (κ × ν))
    (k : κ) :
    (es.map (Prod.map id f)).lookup k = (es.lookup k).map f := by
  induction es with
  | nil => rfl
  | cons e es ih =>
      rcases e with ⟨j, v⟩
      simp only [List.map_cons, Prod.map_apply, id, lookup_cons, ih]
      by_cases hk : k = j
      · simp [hk]
      · simp [hk]

namespace Scope

/-- A binder shadows the scope, and of a repeated name the last one counts. -/
theorem lookup_extend (Γ : Scope) (bound : List (Text × Ty)) (x : Text) :
    (Γ.extend bound).lookup x = (bound.reverse.lookup x).or (Γ.lookup x) := by
  have hlayer : (OrderedMap.ofList bound).get? x = bound.reverse.lookup x := by
    have hput := Entries.lookup_putAll [] bound x
    rw [List.lookup_nil, Option.or_none] at hput
    exact hput
  rw [lookup_extend_layer, hlayer]

/-- A binder has a type for a name exactly if it binds the name. -/
theorem isSome_lookup_zip {names : List Text} {τs : List Ty} (hlen : τs.length = names.length)
    (x : Text) : ((names.zip τs).reverse.lookup x).isSome = names.contains x := by
  have hkeys : (names.zip τs).map Prod.fst = names := List.map_fst_zip (by omega)
  have hmem : x ∈ names ↔ ∃ b ∈ names.zip τs, x = b.1 := by
    simp only [eq_comm (a := x), ← List.mem_map, hkeys]
  rw [Bool.eq_iff_iff, List.contains_iff_mem, List.lookup_isSome_iff, hmem]
  simp only [List.mem_reverse, beq_iff_eq]

def context (θ : Int → Ty) (Γ : Scope) : Context := fun x => (Γ.lookup x).map (Ty.bind θ)

/-- A binder extends scope and context alike, under any graft. -/
theorem context_extend (θ : Int → Ty) (Γ : Scope) (names : List Text) (τs : List Ty) :
    (Γ.extend (names.zip τs)).context θ =
      (Γ.context θ).extend (names.zip (τs.map (Ty.bind θ))) := by
  funext x
  rw [List.zip_map_right]
  simp only [context, Context.extend, lookup_extend, ← List.map_reverse, Entries.lookup_map_value]
  cases (names.zip τs).reverse.lookup x <;> rfl

end Scope

/-! ## Trees with their types replaced -/

namespace TypedTerm

mutual

def mapTypes (f : Ty → Ty) : TypedTerm → TypedTerm
  | .node term type children bound =>
      .node term (f type) (mapTypesAll f children) (bound.map (Prod.map id f))

def mapTypesAll (f : Ty → Ty) : List TypedTerm → List TypedTerm
  | [] => []
  | t :: ts => mapTypes f t :: mapTypesAll f ts

end

theorem mapTypesAll_eq (f : Ty → Ty) (ts : List TypedTerm) :
    mapTypesAll f ts = ts.map (mapTypes f) := by
  induction ts with
  | nil => rfl
  | cons t ts ih => simp [mapTypesAll, ih]

/-- Replacing types goes through the whole tree. -/
@[simp] theorem mapTypes_node (f : Ty → Ty) (term : Term) (type : Ty) (children : List TypedTerm)
    (bound : List (Text × Ty)) :
    (node term type children bound).mapTypes f =
      .node term (f type) (children.map (mapTypes f)) (bound.map (Prod.map id f)) := by
  rw [mapTypes, mapTypesAll_eq]

@[simp] theorem mapTypes_leaf (f : Ty → Ty) (term : Term) (type : Ty) :
    (leaf term type).mapTypes f = leaf term (f type) := rfl

@[simp] theorem type_mapTypes (f : Ty → Ty) (t : TypedTerm) : (t.mapTypes f).type = f t.type := by
  cases t
  rfl

theorem map_type_mapTypes (f : Ty → Ty) (ts : List TypedTerm) :
    (ts.map (mapTypes f)).map type = (ts.map type).map f := by
  simp [Function.comp_def]

section Partial

variable {f : Ty → Option Ty} {h : Ty → Ty}

/-- A replacement that succeeds is the one by a total function. -/
theorem eq_map_of_boundMap? (hf : ∀ {t u}, f t = some u → u = h t) {bound bound' : List (Text × Ty)}
    (hb : boundMap? f bound = some bound') : bound' = bound.map (Prod.map id h) := by
  induction bound generalizing bound' with
  | nil => simpa [boundMap?, eq_comm] using hb
  | cons b bound ih =>
      rcases b with ⟨x, t⟩
      simp only [boundMap?] at hb
      split at hb
      · rename_i ht hrest
        cases hb
        rw [hf ht, ih hrest]
        rfl
      · cases hb

mutual

/-- Types that may fail to be replaced are replaced as those that cannot, if none fails. -/
theorem eq_mapTypes_of_mapTypes? (hf : ∀ {t u}, f t = some u → u = h t) :
    ∀ {t t' : TypedTerm}, t.mapTypes? f = some t' → t' = t.mapTypes h
  | .node term type children bound, t', ht => by
      simp only [mapTypes?] at ht
      split at ht
      · rename_i htype hchildren hbound
        cases ht
        rw [hf htype, eq_mapTypesAll_of_mapTypesAll? hf hchildren, eq_map_of_boundMap? hf hbound]
        rfl
      · cases ht

/-- A replacement in trees that succeeds is the one by a total function. -/
theorem eq_mapTypesAll_of_mapTypesAll? (hf : ∀ {t u}, f t = some u → u = h t) :
    ∀ {ts ts' : List TypedTerm}, mapTypesAll? f ts = some ts' → ts' = mapTypesAll h ts
  | [], ts', hts => by simpa [mapTypesAll?, mapTypesAll, eq_comm] using hts
  | t :: ts, ts', hts => by
      simp only [mapTypesAll?] at hts
      split at hts
      · rename_i ht hrest
        cases hts
        rw [eq_mapTypes_of_mapTypes? hf ht, eq_mapTypesAll_of_mapTypesAll? hf hrest]
        rfl
      · cases hts

end

theorem boundMap?_some (bound : List (Text × Ty)) :
    boundMap? (fun t => some (h t)) bound = some (bound.map (Prod.map id h)) := by
  induction bound with
  | nil => rfl
  | cons b bound ih =>
      rcases b with ⟨x, t⟩
      simp [boundMap?, ih]

mutual

/-- A replacement that never fails succeeds on the whole tree. -/
theorem mapTypes?_some : ∀ t : TypedTerm, t.mapTypes? (fun t => some (h t)) = some (t.mapTypes h)
  | .node term type children bound => by
      simp [mapTypes?, mapTypesAll?_some children, boundMap?_some, mapTypes]

theorem mapTypesAll?_some :
    ∀ ts : List TypedTerm, mapTypesAll? (fun t => some (h t)) ts = some (mapTypesAll h ts)
  | [] => rfl
  | t :: ts => by
      simp [mapTypesAll?, mapTypes?_some t, mapTypesAll?_some ts, mapTypesAll]

end

end Partial

end TypedTerm

/-! ## Satisfied equations make derivations -/

/-- Signatures have no variables. -/
theorem Operator.bind_signature? (op : Operator) (θ : Int → Ty) {operand result : Ty}
    (h : op.signature? = some (operand, result)) :
    operand.bind θ = operand ∧ result.bind θ = result := by
  have hnumber : ∀ family : Number, family.type.bind θ = family.type := by
    intro family
    cases family <;> rfl
  cases op with
  | arithmetic family operation =>
      cases h
      exact ⟨hnumber family, hnumber family⟩
  | order family relation =>
      cases h
      exact ⟨hnumber family, rfl⟩
  | equal => cases h
  | unequal => cases h

section Grafted

open Walk

variable (θ : Int → Ty)

def Ty.through (a : Ty) : Option Ty := some (a.bind θ)

/-- Annotations of parameters are met, since they are the types. -/
theorem Param.agrees_of_types {ps : List Param} {s s' : Supply} {τs : List Ty}
    (h : (Param.types ps).eval s = (.ok τs, s')) :
    Agrees (Ty.through θ) (ps.map Param.declared) (τs.map (Ty.bind θ)) := by
  induction ps generalizing s τs with
  | nil =>
      rcases eval_pure_ok.1 h with ⟨rfl, rfl⟩
      trivial
  | cons p ps ih =>
      rcases p with ⟨name, declared⟩
      cases declared with
      | none =>
          simp only [Param.types, eval_bind_ok, eval_pure_ok] at h
          obtain ⟨t, s₁, _, ts, s₂, hts, rfl, rfl⟩ := h
          exact ⟨by simp, ih hts⟩
      | some a =>
          simp only [Param.types, eval_bind_ok, eval_pure_ok] at h
          obtain ⟨t, s₁, ⟨rfl, rfl⟩, ts, s₂, hts, rfl, rfl⟩ := h
          exact ⟨by simp [Ty.through], ih hts⟩

/-- There is one fresh variable per element. -/
theorem Walk.length_of_freshAll {α : Type} {as : List α} {s s' : Supply} {ts : List Ty}
    (h : (freshAll as).eval s = (.ok ts, s')) : ts.length = as.length := by
  induction as generalizing s ts with
  | nil =>
      rcases eval_pure_ok.1 h with ⟨rfl, rfl⟩
      rfl
  | cons a as ih =>
      simp only [freshAll, eval_bind_ok, eval_pure_ok] at h
      obtain ⟨t, s₁, _, ts, s₂, hts, rfl, rfl⟩ := h
      simp [ih hts]

namespace Term

/-- The walk over the term, in any scope, comes to trees that satisfied equations make
derivations. -/
def WalkDerives (t : Term) : Prop :=
  ∀ {Γ : Scope} {s s' : Supply} {g : Generated TypedTerm}, (generate Γ t).eval s = (.ok g, s') →
    (∀ e ∈ g.equations, e.Holds θ) →
      Derives (Ty.through θ) (Γ.context θ) t (g.trees.mapTypes (Ty.bind θ))

variable {θ} {Γ : Scope} {s s' : Supply} {g : Generated (List TypedTerm)}

/-- Satisfied equations make derivations of a list of terms. -/
theorem derivesAll_of_generateAll {ts : List Term} (hts : ∀ t ∈ ts, WalkDerives θ t)
    (h : (generateAll Γ ts).eval s = (.ok g, s')) (hg : ∀ e ∈ g.equations, e.Holds θ) :
    DerivesAll (Ty.through θ) (Γ.context θ) ts (g.trees.map (TypedTerm.mapTypes (Ty.bind θ))) := by
  induction ts generalizing s g with
  | nil =>
      simp only [generateAll, eval_pure_ok] at h
      rcases h with ⟨rfl, rfl⟩
      exact .nil
  | cons t ts ih =>
      simp only [generateAll, eval_bind_ok, eval_pure_ok] at h
      obtain ⟨t', s₁, ht, ts', s₂, hrest, rfl, rfl⟩ := h
      rcases List.forall_mem_append.1 hg with ⟨hgt, hgts⟩
      exact .cons (hts t (by simp) ht hgt) (ih (fun u hu => hts u (by simp [hu])) hrest hgts)

/-- Satisfied equations make derivations of the values of a `let`, which meet their annotations. -/
theorem derivesAll_of_generateValues {bs : List (Binding Term)} {origin : Term}
    (hbs : ∀ x ∈ bs, WalkDerives θ x.value)
    (h : (generateValues Γ origin bs).eval s = (.ok g, s')) (hg : ∀ e ∈ g.equations, e.Holds θ) :
    DerivesAll (Ty.through θ) (Γ.context θ) (bs.map Binding.value)
        (g.trees.map (TypedTerm.mapTypes (Ty.bind θ))) ∧
      Agrees (Ty.through θ) (bs.map Binding.declared)
        ((g.trees.map TypedTerm.type).map (Ty.bind θ)) := by
  induction bs generalizing s g with
  | nil =>
      simp only [generateValues, eval_pure_ok] at h
      rcases h with ⟨rfl, rfl⟩
      exact ⟨.nil, trivial⟩
  | cons x bs ih =>
      rcases x with ⟨name, declared, value⟩
      simp only [generateValues, eval_bind_ok, eval_pure_ok] at h
      obtain ⟨v', s₁, hv, bs', s₂, hrest, rfl, rfl⟩ := h
      rcases List.forall_mem_append.1 hg with ⟨hg, hgbs⟩
      rcases List.forall_mem_append.1 hg with ⟨hgv, hasked⟩
      rcases ih (fun y hy => hbs y (by simp [hy])) hrest hgbs with ⟨hderives, hagrees⟩
      refine ⟨.cons (hbs _ (by simp) hv hgv) hderives, ?_, hagrees⟩
      intro a ha
      -- The equation that the annotation asks for makes it the type of the value.
      have hholds : Equation.Holds θ ⟨v'.trees.type, a, some origin⟩ :=
        hasked _ (by simpa using ha)
      exact congrArg some hholds.symm

/-- Satisfied equations make derivations of the values of a `letrec`, which have the types of their
names. -/
theorem derivesAll_of_generateRecursive {bs : List (Binding Term)} {origin : Term}
    {places : List Ty} (hlen : places.length = bs.length) (hbs : ∀ x ∈ bs, WalkDerives θ x.value)
    (h : (generateRecursive Γ origin places bs).eval s = (.ok g, s'))
    (hg : ∀ e ∈ g.equations, e.Holds θ) :
    DerivesAll (Ty.through θ) (Γ.context θ) (bs.map Binding.value)
        (g.trees.map (TypedTerm.mapTypes (Ty.bind θ))) ∧
      Agrees (Ty.through θ) (bs.map Binding.declared) (places.map (Ty.bind θ)) ∧
      places.map (Ty.bind θ) = (g.trees.map TypedTerm.type).map (Ty.bind θ) := by
  induction bs generalizing s g places with
  | nil =>
      simp only [generateRecursive, eval_pure_ok] at h
      rcases h with ⟨rfl, rfl⟩
      have hplaces : places = [] := List.length_eq_zero_iff.1 hlen
      simp only [hplaces]
      exact ⟨.nil, trivial, rfl⟩
  | cons x bs ih =>
      rcases x with ⟨name, declared, value⟩
      cases places with
      | nil => simp at hlen
      | cons place places =>
          simp only [generateRecursive, eval_bind_ok, eval_pure_ok] at h
          obtain ⟨v', s₁, hv, bs', s₂, hrest, rfl, rfl⟩ := h
          rcases List.forall_mem_append.1 hg with ⟨hg, hgbs⟩
          rcases List.forall_mem_append.1 hg with ⟨hgv, hasked⟩
          -- One equation ties the place of the name to its value, another one to its annotation.
          rcases List.forall_mem_cons.1 hasked with ⟨hplace, hasked⟩
          rcases ih (by simpa using hlen) (fun y hy => hbs y (by simp [hy])) hrest hgbs with
            ⟨hderives, hagrees, hplaces⟩
          refine ⟨.cons (hbs _ (by simp) hv hgv) hderives, ⟨?_, hagrees⟩, ?_⟩
          · intro a ha
            have hholds : Equation.Holds θ ⟨place, a, some origin⟩ :=
              hasked _ (by simpa using ha)
            exact congrArg some hholds.symm
          · exact List.cons_eq_cons.2 ⟨hplace, hplaces⟩

/-- Satisfied equations make the tree of a term a typing derivation. -/
theorem derives_of_generate (θ : Int → Ty) (t : Term) : WalkDerives θ t := by
  induction t using Term.induct with
  | hole =>
      intro Γ s s' g h _
      exact absurd h eval_throw_ok
  | lit v =>
      intro Γ s s' g h _
      simp only [generate, eval_pure_ok] at h
      rcases h with ⟨rfl, rfl⟩
      have hground : v.kind.type.bind θ = v.kind.type := by cases v <;> rfl
      simpa [hground] using Derives.lit v
  | var x =>
      intro Γ s s' g h _
      cases hx : Γ.lookup x with
      | none =>
          simp only [generate, hx] at h
          exact absurd h eval_throw_ok
      | some τ =>
          simp only [generate, hx, eval_pure_ok] at h
          rcases h with ⟨rfl, rfl⟩
          exact Derives.var (by simp [Scope.context, hx])
  | cond c t e ihc iht ihe =>
      intro Γ s s' g h hg
      simp only [generate, eval_bind_ok, eval_pure_ok] at h
      obtain ⟨c', s₁, hc, t', s₂, ht, e', s₃, he, rfl, rfl⟩ := h
      simp only [List.forall_mem_append, List.forall_mem_cons] at hg
      rcases hg with ⟨⟨⟨hgc, hgt⟩, hge⟩, htest, hbranches, _⟩
      have hbool : (c'.trees.mapTypes (Ty.bind θ)).type = .bool := by
        simpa [Equation.Holds, Ty.bool] using htest
      have hsame : (e'.trees.mapTypes (Ty.bind θ)).type = (t'.trees.mapTypes (Ty.bind θ)).type := by
        simpa [Equation.Holds] using hbranches.symm
      simpa using Derives.cond (ihc hc hgc) (iht ht hgt) (ihe he hge) hbool hsame
  | binop op l r ihl ihr =>
      intro Γ s s' g h hg
      simp only [generate, eval_bind_ok] at h
      obtain ⟨l', s₁, hl, r', s₂, hr, h⟩ := h
      cases hop : op.signature? with
      | none =>
          simp only [hop, eval_pure_ok] at h
          rcases h with ⟨rfl, rfl⟩
          simp only [List.forall_mem_append, List.forall_mem_cons] at hg
          rcases hg with ⟨⟨hgl, hgr⟩, hoperands, _⟩
          have hsame :
              (l'.trees.mapTypes (Ty.bind θ)).type = (r'.trees.mapTypes (Ty.bind θ)).type := by
            simpa [Equation.Holds] using hoperands
          simpa [Ty.bool] using Derives.equality hop (ihl hl hgl) (ihr hr hgr) hsame
      | some signature =>
          rcases signature with ⟨operand, result⟩
          simp only [hop, eval_pure_ok] at h
          rcases h with ⟨rfl, rfl⟩
          simp only [List.forall_mem_append, List.forall_mem_cons] at hg
          rcases hg with ⟨⟨hgl, hgr⟩, hleft, hright, _⟩
          rcases op.bind_signature? θ hop with ⟨hoperand, hresult⟩
          have hleft' : (l'.trees.mapTypes (Ty.bind θ)).type = operand := by
            simpa [Equation.Holds, hoperand] using hleft
          have hright' : (r'.trees.mapTypes (Ty.bind θ)).type = operand := by
            simpa [Equation.Holds, hoperand] using hright
          simpa [hresult] using Derives.operator hop (ihl hl hgl) (ihr hr hgr) hleft' hright'
  | lam ps b ihb =>
      intro Γ s s' g h hg
      simp only [generate, eval_bind_ok, eval_pure_ok] at h
      obtain ⟨types, s₁, htypes, b', s₂, hb, rfl, rfl⟩ := h
      have hbody := ihb hb hg
      -- Reading the scope of the body through the graft extends the context by the types of the
      -- node.
      rw [Scope.context_extend] at hbody
      simpa [List.zip_map_right] using Derives.lam (Param.agrees_of_types θ htypes) hbody
  | app f args ihf ihargs =>
      intro Γ s s' g h hg
      simp only [generate, eval_bind_ok, eval_pure_ok] at h
      obtain ⟨f', s₁, hf, args', s₂, hargs, result, s₃, _, rfl, rfl⟩ := h
      simp only [List.forall_mem_append, List.forall_mem_cons] at hg
      rcases hg with ⟨⟨hgf, hgargs⟩, hfunction, _⟩
      have hfunction' : (f'.trees.mapTypes (Ty.bind θ)).type =
          .fn ((args'.trees.map (TypedTerm.mapTypes (Ty.bind θ))).map TypedTerm.type)
            (result.bind θ) := by
        simpa [Equation.Holds, Function.comp_def] using hfunction
      simpa using Derives.app (ihf hf hgf)
        (derivesAll_of_generateAll ihargs hargs hgargs) hfunction'
  | letIn bs b ihbs ihb =>
      intro Γ s s' g h hg
      simp only [generate, eval_bind_ok, eval_pure_ok] at h
      obtain ⟨bs', s₁, hbs, b', s₂, hb, rfl, rfl⟩ := h
      rcases List.forall_mem_append.1 hg with ⟨hgbs, hgb⟩
      rcases derivesAll_of_generateValues ihbs hbs hgbs with ⟨hvalues, hdeclared⟩
      have hbody := ihb hb hgb
      rw [← TypedTerm.map_type_mapTypes] at hdeclared
      rw [Scope.context_extend, ← TypedTerm.map_type_mapTypes] at hbody
      rw [TypedTerm.mapTypes_node, ← List.zip_map_right, ← TypedTerm.map_type_mapTypes]
      simpa only [List.map_append, List.map_cons, List.map_nil, TypedTerm.type_mapTypes] using
        Derives.letIn hvalues hdeclared hbody
  | letRec bs b ihbs ihb =>
      intro Γ s s' g h hg
      simp only [generate, eval_bind_ok, eval_pure_ok] at h
      obtain ⟨places, s₁, hplaces, bs', s₂, hbs, b', s₃, hb, rfl, rfl⟩ := h
      rcases List.forall_mem_append.1 hg with ⟨hgbs, hgb⟩
      rcases derivesAll_of_generateRecursive (length_of_freshAll hplaces) ihbs hbs hgbs with
        ⟨hvalues, hdeclared, hsame⟩
      have hbody := ihb hb hgb
      -- Through the graft, the place of a name is the type of its value.
      rw [hsame, ← TypedTerm.map_type_mapTypes] at hdeclared
      rw [Scope.context_extend, hsame, ← TypedTerm.map_type_mapTypes] at hbody hvalues
      rw [TypedTerm.mapTypes_node, ← List.zip_map_right, hsame, ← TypedTerm.map_type_mapTypes]
      simpa only [List.map_append, List.map_cons, List.map_nil, TypedTerm.type_mapTypes] using
        Derives.letRec hvalues hdeclared hbody

end Term

end Grafted

/-! ## Main statement -/

/-- What inference finds out comes from the solution of the equations. -/
theorem Generated.infer_ok {limit : Option Nat} {g : Generated TypedTerm} {r : Inference}
    (h : (g.infer limit).2 = .ok r) :
    (solve limit g.equations).outcome = .ok r.solution ∧
      g.trees.resolveWithin? limit r.solution = some r.tree ∧ r.type = r.tree.type := by
  unfold Generated.infer at h
  cases hout : (solve limit g.equations).outcome with
  | error u => simp [hout] at h
  | ok σ =>
      cases htree : g.trees.resolveWithin? limit σ with
      | none => simp [hout, htree] at h
      | some tree =>
          simp only [hout, htree, Except.ok.injEq] at h
          subst h
          exact ⟨rfl, htree, rfl⟩

/-- Once the equations are solved, reading the tree back through the solution does not fail. -/
theorem Generated.exists_infer_of_solve {g : Generated TypedTerm} {σ : Subst}
    (h : (solve none g.equations).outcome = .ok σ) : ∃ r, (g.infer none).2 = .ok r := by
  have htree : g.trees.resolveWithin? none σ = some (g.trees.mapTypes (Ty.bind σ.assign)) := by
    have hread : σ.resolveWithin? none = fun t => some (t.bind σ.assign) := by
      funext t
      rw [Subst.resolveWithin?_none, (resolved_of_solve h).resolve?_eq]
    rw [TypedTerm.resolveWithin?, hread, TypedTerm.mapTypes?_some]
  simp only [Generated.infer, h, htree]
  exact ⟨_, rfl⟩

namespace Term

/-- The equations that an inference solved, with the walk that asked for them. -/
theorem exists_generateFrom_of_infer_or_check {Γ : Scope} {t : Term} {r : Inference}
    (h : t.infer Γ = .ok r ∨ (t.check Γ).2 = .ok r) :
    ∃ limit g s, t.generateFrom Γ .initial = (.ok g, s) ∧ (g.infer limit).2 = .ok r := by
  rcases h with h | h
  · rcases hfrom : t.generateFrom Γ .initial with ⟨e | g, s⟩
    · simp [infer, inferTraced, hfrom] at h
    · simp only [infer, inferTraced, hfrom] at h
      exact ⟨none, g, s, rfl, h⟩
  · rcases generateWithin_cases Γ t .initial with
      ⟨g, s, hwithin, hfrom⟩ | ⟨e, s, hwithin, _⟩ | ⟨s, hwithin, _⟩
    · simp only [check, hwithin] at h
      exact ⟨some Ty.depthLimit, g, s, hfrom, h⟩
    · simp [check, hwithin] at h
    · simp [check, hwithin] at h

/-- An answer of inference, within limits or not, comes from an unlimited solution of the
equations. -/
theorem exists_solve_of_infer_or_check {Γ : Scope} {t : Term} {r : Inference}
    (h : t.infer Γ = .ok r ∨ (t.check Γ).2 = .ok r) :
    ∃ g s, t.generateFrom Γ .initial = (.ok g, s) ∧
      (solve none g.equations).outcome = .ok r.solution ∧
      r.tree = g.trees.mapTypes (Ty.bind r.solution.assign) ∧ r.type = r.tree.type := by
  obtain ⟨limit, g, s, hfrom, hinfer⟩ := exists_generateFrom_of_infer_or_check h
  obtain ⟨hsolve, htree, htype⟩ := Generated.infer_ok hinfer
  refine ⟨g, s, hfrom, ?_, ?_, htype⟩
  · rcases solveFrom_unlimited limit .empty g.equations with heq | ⟨e, hend⟩
    · exact heq.symm.trans hsolve
    · cases hend.symm.trans hsolve
  · exact TypedTerm.eq_mapTypes_of_mapTypes?
      (fun hu => Unify.eq_bind_assign (resolved_of_solve hsolve) hu) htree

/-- The tree that inference answers, with or without limits, is a typing derivation of the term:
annotations are read through the solution, and so are the types of the scope.  The type is that of
the root. -/
theorem derives_tree_of_infer_or_check (Γ : Scope) (t : Term) (r : Inference)
    (h : t.infer Γ = .ok r ∨ (t.check Γ).2 = .ok r) :
    r.type = r.tree.type ∧
      Derives r.solution.resolve? (fun x => (Γ.lookup x).bind r.solution.resolve?) t r.tree := by
  obtain ⟨limit, g, s, hfrom, hinfer⟩ := exists_generateFrom_of_infer_or_check h
  obtain ⟨hsolve, htree, htype⟩ := Generated.infer_ok hinfer
  have hresolved := resolved_of_solve hsolve
  have hread : r.solution.resolve? = Ty.through r.solution.assign := hresolved.resolve?_funext
  have hcontext :
      (fun x => (Γ.lookup x).bind r.solution.resolve?) = Γ.context r.solution.assign := by
    funext x
    cases hx : Γ.lookup x <;> simp [Scope.context, hx, hread, Ty.through]
  have heq : r.tree = g.trees.mapTypes (Ty.bind r.solution.assign) :=
    TypedTerm.eq_mapTypes_of_mapTypes? (fun hu => Unify.eq_bind_assign hresolved hu) htree
  refine ⟨htype, ?_⟩
  rw [hcontext, hread, heq]
  exact derives_of_generate _ t hfrom (holds_of_solve hsolve)

/-- A recursive function whose two parameters have one name, the first with a type variable as its
annotation:
`letrec f = fun (x : t9) x -> if x == 0 then y else f y x in f`. -/
def repeatedParameter : Term :=
  .letRec [⟨"f", none, .lam [⟨"x", some (.var 9)⟩, ⟨"x", none⟩]
    (.cond (.binop .equal (.var "x") (.lit (.int 0))) (.var "y")
      (.app (.var "f") [.var "y", .var "x"]))⟩] (.var "f")

/-- In a scope that gives `y` a type variable, the function is typed: the annotation comes to be the
type of `y`, and the second parameter, which shadows the first, is a number. -/
theorem derives_tree_of_repeatedParameter :
    ∃ r, repeatedParameter.infer (Scope.empty.extend [("y", .var 5)]) = .ok r ∧
      Derives r.solution.resolve?
        (fun x => ((Scope.empty.extend [("y", .var 5)]).lookup x).bind r.solution.resolve?)
        repeatedParameter r.tree := by
  obtain ⟨g, s, hfrom, hsides⟩ : ∃ g s,
      repeatedParameter.generateFrom (Scope.empty.extend [("y", .var 5)]) .initial = (.ok g, s) ∧
        g.equations.map (fun e => (e.left, e.right)) =
          [(.var 1, .int), (.var 0, .fn [.var 5, .var 1] (.var 2)), (.bool, .bool),
            (.var 5, .var 2), (.var 0, .fn [.var 9, .var 1] (.var 5))] := ⟨_, _, rfl, rfl⟩
  let θ : Int → Ty := fun i =>
    if i = 0 then .fn [.var 9, .int] (.var 9) else if i = 1 then .int else .var 9
  have hall : ∀ p ∈ g.equations.map (fun e => (e.left, e.right)),
      (p.1.Known ∧ p.2.Known) ∧ p.1.bind θ = p.2.bind θ := by
    rw [hsides]
    decide
  have hequations := List.forall_mem_map.1 hall
  obtain ⟨σ, hsolve⟩ := exists_solve_ok_of_unifiable (fun e he => (hequations e he).1)
    ⟨θ, fun e he => (hequations e he).2⟩
  obtain ⟨r, hr⟩ := Generated.exists_infer_of_solve hsolve
  have hinfer : repeatedParameter.infer (Scope.empty.extend [("y", .var 5)]) = .ok r := by
    simpa only [infer, inferTraced, hfrom] using hr
  exact ⟨r, hinfer, (derives_tree_of_infer_or_check _ repeatedParameter r (Or.inl hinfer)).2⟩

end Term

end Monotype
