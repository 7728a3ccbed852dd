import Monotype.Proofs.Typing.Soundness

/-!
# Known equations

`unknown` unifies with variables only, so the theory of unification is about known types.  The walk
over a term does not bring `unknown` in: if the types of the scope and the annotations are known,
then so are the types of the tree and both sides of every equation (`Term.known_of_generate`).
-/

namespace Monotype

open Walk

namespace Scope

/-- The type of every name in scope has the property. -/
def All (Q : Ty → Prop) (Γ : Scope) : Prop := ∀ x τ, Γ.lookup x = some τ → Q τ

variable {Q : Ty → Prop}

theorem all_empty : All Q .empty := by
  intro x τ h
  cases h

/-- A binder with good types keeps a scope good. -/
theorem All.extend {Γ : Scope} (hΓ : Γ.All Q) {bound : List (Text × Ty)}
    (hbound : ∀ b ∈ bound, Q b.2) : (Γ.extend bound).All Q := by
  intro x τ hx
  rw [lookup_extend] at hx
  rcases Option.or_eq_some_iff.1 hx with hlast | ⟨_, hx⟩
  · obtain ⟨l₁, l₂, hsplit, _⟩ := List.lookup_eq_some_iff.1 hlast
    have hmem : (x, τ) ∈ bound := List.mem_reverse.1 (by simp [hsplit])
    exact hbound (x, τ) hmem
  · exact hΓ x τ hx

theorem All.extend_zip {Γ : Scope} (hΓ : Γ.All Q) (names : List Text) {τs : List Ty}
    (hτs : ∀ τ ∈ τs, Q τ) : (Γ.extend (names.zip τs)).All Q :=
  hΓ.extend fun b hb => hτs b.2 (List.of_mem_zip hb).2

end Scope

/-- Parameters have known types: their annotations, or fresh variables. -/
theorem Param.known_of_types {ps : List Param} {s s' : Supply} {τs : List Ty}
    (hps : ∀ a, some a ∈ ps.map Param.declared → a.Known)
    (h : (Param.types ps).eval s = (.ok τs, s')) : ∀ τ ∈ τs, τ.Known := by
  induction ps generalizing s τs with
  | nil =>
      rcases eval_pure_ok.1 h with ⟨rfl, rfl⟩
      simp
  | cons p ps ih =>
      rcases p with ⟨name, declared⟩
      have hrest : ∀ a, some a ∈ ps.map Param.declared → a.Known :=
        fun a ha => hps a (List.mem_cons_of_mem _ ha)
      cases declared with
      | none =>
          simp only [Param.types, eval_bind_ok, eval_pure_ok, eval_fresh_ok] at h
          obtain ⟨t, s₁, ⟨rfl, rfl⟩, ts, s₂, hts, rfl, rfl⟩ := h
          exact List.forall_mem_cons.2 ⟨.var _, ih hrest hts⟩
      | some a =>
          simp only [Param.types, eval_bind_ok, eval_pure_ok] at h
          obtain ⟨t, s₁, ⟨rfl, rfl⟩, ts, s₂, hts, rfl, rfl⟩ := h
          exact List.forall_mem_cons.2 ⟨hps _ (by simp), ih hrest hts⟩

theorem Walk.known_of_freshAll {α : Type} {as : List α} {s s' : Supply} {ts : List Ty}
    (h : (freshAll as).eval s = (.ok ts, s')) : ∀ t ∈ ts, t.Known := by
  induction as generalizing s ts with
  | nil =>
      rcases eval_pure_ok.1 h with ⟨rfl, rfl⟩
      simp
  | cons a as ih =>
      simp only [freshAll, eval_bind_ok, eval_pure_ok, eval_fresh_ok] at h
      obtain ⟨t, s₁, ⟨rfl, rfl⟩, ts, s₂, hts, rfl, rfl⟩ := h
      exact List.forall_mem_cons.2 ⟨.var _, ih hts⟩

theorem Operator.known_signature? {op : Operator} {operand result : Ty}
    (h : op.signature? = some (operand, result)) : operand.Known ∧ result.Known := by
  have hnumber : ∀ family : Number, family.type.Known := by
    intro family
    cases family <;> exact .const _
  cases op with
  | arithmetic family operation =>
      cases h
      exact ⟨hnumber family, hnumber family⟩
  | order family relation =>
      cases h
      exact ⟨hnumber family, .const _⟩
  | equal => cases h
  | unequal => cases h

namespace Term

/-- In a known scope, the walk over the term asks for known equations and gives it a known type. -/
def WalkKnown (t : Term) : Prop :=
  ∀ {Γ : Scope} {s s' : Supply} {g : Generated TypedTerm}, Γ.All Ty.Known →
    (generate Γ t).eval s = (.ok g, s') → (∀ e ∈ g.equations, e.Known) ∧ g.trees.type.Known

section KnownLists

variable {Γ : Scope} {s s' : Supply} {g : Generated (List TypedTerm)}

/-- The equations and types of a list of terms are known, if those of the terms are. -/
theorem known_of_generateAll {ts : List Term} (hts : ∀ t ∈ ts, WalkKnown t) (hΓ : Γ.All Ty.Known)
    (h : (generateAll Γ ts).eval s = (.ok g, s')) :
    (∀ e ∈ g.equations, e.Known) ∧ ∀ τ ∈ g.trees.map TypedTerm.type, τ.Known := by
  induction ts generalizing s g with
  | nil =>
      simp only [generateAll, eval_pure_ok] at h
      rcases h with ⟨rfl, rfl⟩
      exact ⟨by simp, by simp⟩
  | cons t ts ih =>
      simp only [generateAll, eval_bind_ok, eval_pure_ok] at h
      obtain ⟨t', s₁, ht, ts', s₂, hrest, rfl, rfl⟩ := h
      rcases hts t (by simp) hΓ ht with ⟨hequations, htype⟩
      rcases ih (fun u hu => hts u (by simp [hu])) hrest with ⟨hequations', htypes⟩
      exact ⟨List.forall_mem_append.2 ⟨hequations, hequations'⟩,
        List.forall_mem_cons.2 ⟨htype, htypes⟩⟩

/-- The equations and types of the values of a `let` are known, also those that annotations ask
for. -/
theorem known_of_generateValues {bs : List (Binding Term)} {origin : Term}
    (hbs : ∀ x ∈ bs, WalkKnown x.value)
    (hdeclared : ∀ a, some a ∈ bs.map Binding.declared → a.Known) (hΓ : Γ.All Ty.Known)
    (h : (generateValues Γ origin bs).eval s = (.ok g, s')) :
    (∀ e ∈ g.equations, e.Known) ∧ ∀ τ ∈ g.trees.map TypedTerm.type, τ.Known := by
  induction bs generalizing s g with
  | nil =>
      simp only [generateValues, eval_pure_ok] at h
      rcases h with ⟨rfl, rfl⟩
      exact ⟨by simp, by simp⟩
  | cons x bs ih =>
      rcases x with ⟨name, declared, value⟩
      simp only [generateValues, eval_bind_ok, eval_pure_ok] at h
      obtain ⟨v', s₁, hv, bs', s₂, hrest, rfl, rfl⟩ := h
      rcases hbs _ List.mem_cons_self hΓ hv with ⟨hequations, htype⟩
      rcases ih (fun y hy => hbs y (by simp [hy]))
        (fun a ha => hdeclared a (List.mem_cons_of_mem _ ha)) hrest with ⟨hequations', htypes⟩
      refine ⟨?_, List.forall_mem_cons.2 ⟨htype, htypes⟩⟩
      simp only [List.forall_mem_append, List.forall_mem_map]
      refine ⟨⟨hequations, ?_⟩, hequations'⟩
      -- An annotation asks for one equation more.
      intro a ha
      have hsome : declared = some a := by simpa using ha
      exact ⟨htype, hdeclared a (by simp [hsome])⟩

theorem known_of_generateRecursive {bs : List (Binding Term)} {origin : Term} {places : List Ty}
    (hbs : ∀ x ∈ bs, WalkKnown x.value)
    (hdeclared : ∀ a, some a ∈ bs.map Binding.declared → a.Known)
    (hplaces : ∀ τ ∈ places, τ.Known) (hΓ : Γ.All Ty.Known)
    (h : (generateRecursive Γ origin places bs).eval s = (.ok g, s')) :
    ∀ e ∈ g.equations, e.Known := by
  induction bs generalizing s g places with
  | nil =>
      simp only [generateRecursive, eval_pure_ok] at h
      rcases h with ⟨rfl, rfl⟩
      simp
  | cons x bs ih =>
      rcases x with ⟨name, declared, value⟩
      cases places with
      | nil =>
          simp only [generateRecursive, eval_pure_ok] at h
          rcases h with ⟨rfl, rfl⟩
          simp
      | cons place places =>
          rcases List.forall_mem_cons.1 hplaces with ⟨hplace, hplaces⟩
          simp only [generateRecursive, eval_bind_ok, eval_pure_ok] at h
          obtain ⟨v', s₁, hv, bs', s₂, hrest, rfl, rfl⟩ := h
          rcases hbs _ List.mem_cons_self hΓ hv with ⟨hequations, htype⟩
          have hequations' := ih (fun y hy => hbs y (by simp [hy]))
            (fun a ha => hdeclared a (List.mem_cons_of_mem _ ha)) hplaces hrest
          simp only [List.forall_mem_append, List.forall_mem_cons, List.forall_mem_map]
          refine ⟨⟨hequations, ⟨hplace, htype⟩, ?_⟩, hequations'⟩
          intro a ha
          have hsome : declared = some a := by simpa using ha
          exact ⟨hplace, hdeclared a (by simp [hsome])⟩

end KnownLists

/-- A term with known annotations asks for known equations, and its type is known. -/
theorem known_of_generate {t : Term} (ht : t.Annotated Ty.Known) : WalkKnown t := by
  -- A type in an equation is an annotation, comes from the scope, or is built here from such types.
  induction t using Term.induct with
  | hole =>
      intro Γ s s' g _ h
      exact absurd h eval_throw_ok
  | lit v =>
      intro Γ s s' g _ h
      simp only [generate, eval_pure_ok] at h
      rcases h with ⟨rfl, rfl⟩
      exact ⟨by simp, by cases v <;> exact .const _⟩
  | var x =>
      intro Γ s s' g hΓ h
      cases hx : Γ.lookup x with
      | none =>
          simp only [generate, hx] at h
          exact absurd h eval_throw_ok
      | some τ =>
          simp only [generate, hx, eval_pure_ok] at h
          rcases h with ⟨rfl, rfl⟩
          exact ⟨by simp, hΓ x τ hx⟩
  | cond c t e ihc iht ihe =>
      intro Γ s s' g hΓ h
      rcases annotated_cond.1 ht with ⟨hannc, hannt, hanne⟩
      simp only [generate, eval_bind_ok, eval_pure_ok] at h
      obtain ⟨c', s₁, hc, t', s₂, ht, e', s₃, he, rfl, rfl⟩ := h
      rcases ihc hannc hΓ hc with ⟨hcs, hctype⟩
      rcases iht hannt hΓ ht with ⟨hts, httype⟩
      rcases ihe hanne hΓ he with ⟨hes, hetype⟩
      refine ⟨?_, httype⟩
      simp only [List.forall_mem_append, List.forall_mem_cons]
      exact ⟨⟨⟨hcs, hts⟩, hes⟩, ⟨hctype, .const _⟩, ⟨httype, hetype⟩, by simp⟩
  | binop op l r ihl ihr =>
      intro Γ s s' g hΓ h
      rcases annotated_binop.1 ht with ⟨hannl, hannr⟩
      simp only [generate, eval_bind_ok] at h
      obtain ⟨l', s₁, hl, r', s₂, hr, h⟩ := h
      rcases ihl hannl hΓ hl with ⟨hls, hltype⟩
      rcases ihr hannr hΓ hr with ⟨hrs, hrtype⟩
      cases hop : op.signature? with
      | none =>
          simp only [hop, eval_pure_ok] at h
          rcases h with ⟨rfl, rfl⟩
          refine ⟨?_, .const _⟩
          simp only [List.forall_mem_append, List.forall_mem_cons]
          exact ⟨⟨hls, hrs⟩, ⟨hltype, hrtype⟩, by simp⟩
      | some signature =>
          rcases signature with ⟨operand, result⟩
          rcases Operator.known_signature? hop with ⟨hoperand, hresult⟩
          simp only [hop, eval_pure_ok] at h
          rcases h with ⟨rfl, rfl⟩
          refine ⟨?_, hresult⟩
          simp only [List.forall_mem_append, List.forall_mem_cons]
          exact ⟨⟨hls, hrs⟩, ⟨hltype, hoperand⟩, ⟨hrtype, hoperand⟩, by simp⟩
  | lam ps b ihb =>
      intro Γ s s' g hΓ h
      rcases annotated_lam.1 ht with ⟨hannps, hannb⟩
      simp only [generate, eval_bind_ok, eval_pure_ok] at h
      obtain ⟨types, s₁, htypes, b', s₂, hb, rfl, rfl⟩ := h
      have hknown := Param.known_of_types hannps htypes
      rcases ihb hannb (hΓ.extend_zip _ hknown) hb with ⟨hbs, hbtype⟩
      exact ⟨hbs, .fn hknown hbtype⟩
  | app f args ihf ihargs =>
      intro Γ s s' g hΓ h
      rcases annotated_app.1 ht with ⟨hannf, hannargs⟩
      simp only [generate, eval_bind_ok, eval_pure_ok, eval_fresh_ok] at h
      obtain ⟨f', s₁, hf, args', s₂, hargs, result, s₃, ⟨rfl, rfl⟩, rfl, rfl⟩ := h
      rcases ihf hannf hΓ hf with ⟨hfs, hftype⟩
      rcases known_of_generateAll (fun a ha => ihargs a ha (hannargs a ha)) hΓ hargs with
        ⟨hargss, hargtypes⟩
      refine ⟨?_, .var _⟩
      simp only [List.forall_mem_append, List.forall_mem_cons]
      exact ⟨⟨hfs, hargss⟩, ⟨hftype, .fn hargtypes (.var _)⟩, by simp⟩
  | letIn bs b ihbs ihb =>
      intro Γ s s' g hΓ h
      rcases annotated_letIn.1 ht with ⟨hannvs, hannbs, hannb⟩
      simp only [generate, eval_bind_ok, eval_pure_ok] at h
      obtain ⟨bs', s₁, hbs, b', s₂, hb, rfl, rfl⟩ := h
      rcases known_of_generateValues (fun x hx => ihbs x hx (hannvs x hx)) hannbs hΓ hbs with
        ⟨hvs, hvtypes⟩
      rcases ihb hannb (hΓ.extend_zip _ hvtypes) hb with ⟨hbes, hbtype⟩
      exact ⟨List.forall_mem_append.2 ⟨hvs, hbes⟩, hbtype⟩
  | letRec bs b ihbs ihb =>
      intro Γ s s' g hΓ h
      rcases annotated_letRec.1 ht with ⟨hannvs, hannbs, hannb⟩
      simp only [generate, eval_bind_ok, eval_pure_ok] at h
      obtain ⟨places, s₁, hplaces, bs', s₂, hbs, b', s₃, hb, rfl, rfl⟩ := h
      have hknown := known_of_freshAll hplaces
      have hΓ' := hΓ.extend_zip (bs.map Binding.name) hknown
      have hvs :=
        known_of_generateRecursive (fun x hx => ihbs x hx (hannvs x hx)) hannbs hknown hΓ' hbs
      rcases ihb hannb hΓ' hb with ⟨hbes, hbtype⟩
      exact ⟨List.forall_mem_append.2 ⟨hvs, hbes⟩, hbtype⟩

end Term

end Monotype
