import Monotype.Proofs.Typing.Alpha
import Monotype.Proofs.Typing.Completeness
import Monotype.Proofs.Typing.Rename

/-!
# Walks side by side

Two walks over α-equivalent terms do the same.  What is the same about the types on both sides is
left open: a relation that every type constructor respects (`Ty.Congruence`) and that holds between
the variables that the two supplies hand out, of which the second one may be ahead.  Then related
scopes give related trees and related equations, or the same fault, and the supplies stay as far
apart as they were (`Term.parallel_generate`).

With equality for the relation and one supply this says that bound names do not matter.  With a
graft for the relation it compares bindings with what they are bound to.
-/

namespace Monotype

/-! ## Relations between types -/

structure Ty.Congruence (R : Ty → Ty → Prop) : Prop where
  const : ∀ c, R (.const c) (.const c)
  fn : ∀ {ps qs r s}, List.Forall₂ R ps qs → R r s → R (.fn ps r) (.fn qs s)

section Congruence

variable {R : Ty → Ty → Prop}

theorem Ty.congruence_eq : Ty.Congruence Eq where
  const := fun _ => rfl
  fn := by
    rintro ps qs r _ hps rfl
    rw [List.forall₂_eq_eq_eq] at hps
    rw [hps]

/-- A type without variables is related to itself. -/
theorem Ty.Congruence.ground (hR : Ty.Congruence R) {t : Ty} (ht : t.Ground) : R t t := by
  obtain ⟨hknown, hvars⟩ := ht
  induction t with
  | unknown => cases hknown
  | var i => simp at hvars
  | const c => exact hR.const c
  | fn ps r ihp ihr =>
      obtain ⟨hps, hr⟩ := Ty.known_fn.1 hknown
      simp only [Ty.vars_fn, List.append_eq_nil_iff, List.flatMap_eq_nil_iff] at hvars
      exact hR.fn (List.forall₂_same.2 fun p hp => ihp p hp (hps p hp) (hvars.1 p hp))
        (ihr hr hvars.2)

theorem Operator.rel_signature? (hR : Ty.Congruence R) {op : Operator} {operand result : Ty}
    (h : op.signature? = some (operand, result)) : R operand operand ∧ R result result := by
  have hnumber : ∀ family : Number, R family.type family.type := by
    intro family
    cases family <;> exact hR.const _
  cases op with
  | arithmetic family operation =>
      cases h
      exact ⟨hnumber family, hnumber family⟩
  | order family relation =>
      cases h
      exact ⟨hnumber family, hR.const _⟩
  | equal => cases h
  | unequal => cases h

end Congruence

/-- The trees have one shape, and related types in the same places, also those of bound names. -/
inductive TypedTerm.Alike (R : Ty → Ty → Prop) : TypedTerm → TypedTerm → Prop where
  | node {term term' : Term} {type type' : Ty} {children children' : List TypedTerm}
      {bound bound' : List (Text × Ty)} (hkind : term.kind = term'.kind) (htype : R type type')
      (hchildren : List.Forall₂ (TypedTerm.Alike R) children children')
      (hbound : List.Forall₂ R (bound.map Prod.snd) (bound'.map Prod.snd)) :
      TypedTerm.Alike R (.node term type children bound) (.node term' type' children' bound')

theorem TypedTerm.Alike.type {R : Ty → Ty → Prop} {t t' : TypedTerm} (h : TypedTerm.Alike R t t') :
    R t.type t'.type := by
  cases h with
  | node _ htype _ _ => exact htype

/-- The equations have related sides and come from terms of one form. -/
structure Equation.Alike (R : Ty → Ty → Prop) (e e' : Equation) : Prop where
  left : R e.left e'.left
  right : R e.right e'.right
  origin : e.originKind = e'.originKind

structure Generated.Alike {α β : Type} (T : α → β → Prop) (R : Ty → Ty → Prop) (g : Generated α)
    (g' : Generated β) : Prop where
  trees : T g.trees g'.trees
  equations : List.Forall₂ (Equation.Alike R) g.equations g'.equations

/-! ## Scopes side by side -/

/-- Names in the same place of two binders have related types. -/
theorem rel_lookup_zip {R : Ty → Ty → Prop} {xs ys : List Text} {τs τs' : List Ty} {x y : Text}
    (hτs : List.Forall₂ R τs τs') (hxs : τs.length = xs.length) (hys : τs.length = ys.length)
    (hplace : xs.idxOf? x = ys.idxOf? y) :
    Option.Rel R ((xs.zip τs).lookup x) ((ys.zip τs').lookup y) := by
  induction hτs generalizing xs ys with
  | nil => simp
  | cons hτ _ ih =>
      cases xs with
      | nil => simp at hxs
      | cons a xs =>
          cases ys with
          | nil => simp at hys
          | cons b ys =>
              simp only [List.idxOf?_cons, beq_iff_eq] at hplace
              simp only [List.zip_cons_cons, Entries.lookup_cons, eq_comm (a := x),
                eq_comm (a := y)]
              -- The first place is found on both sides or on neither.
              by_cases ha : a = x <;> by_cases hb : b = y <;>
                simp only [ha, hb, if_true, if_false] at hplace ⊢
              · exact .some hτ
              · simp at hplace
              · simp at hplace
              · refine ih (by simpa using hxs) (by simpa using hys) ?_
                exact Option.map_injective (fun m n h => by simpa using h) hplace

theorem rel_or {α β : Type} {R : α → β → Prop} {u v : Option α} {u' v' : Option β}
    (h : Option.Rel R u u') (h' : u = none → Option.Rel R v v') :
    Option.Rel R (u.or v) (u'.or v') := by
  cases h with
  | some hab => exact .some hab
  | none => exact h' rfl

structure BoundTypes (R : Ty → Ty → Prop) (xs ys : List Text) (τs τs' : List Ty) : Prop where
  rel : List.Forall₂ R τs τs'
  left : τs.length = xs.length
  right : τs'.length = ys.length

theorem BoundTypes.snd {R : Ty → Ty → Prop} {xs ys : List Text} {τs τs' : List Ty}
    (h : BoundTypes R xs ys τs τs') :
    List.Forall₂ R ((xs.zip τs).map Prod.snd) ((ys.zip τs').map Prod.snd) := by
  rw [List.map_snd_zip (Nat.le_of_eq h.left), List.map_snd_zip (Nat.le_of_eq h.right)]
  exact h.rel

/-- Names of two lists of bindings get related types if the types are related in order. -/
theorem boundTypes_of_declared {R : Ty → Ty → Prop} {bs bs' : List (Binding Term)}
    {τs τs' : List Ty} (hdeclared : bs.map Binding.declared = bs'.map Binding.declared)
    (hτs : List.Forall₂ R τs τs') (hlen : τs.length = bs.length) :
    BoundTypes R (bs.map Binding.name) (bs'.map Binding.name) τs τs' where
  rel := hτs
  left := by simpa using hlen
  right := by
    have hbs : bs.length = bs'.length := by simpa using congrArg List.length hdeclared
    rw [List.length_map, ← hbs, ← hlen, hτs.length_eq]

namespace Scope

/-- Names that correspond have related types, and names that are missing correspond to
themselves. -/
def Parallel (R : Ty → Ty → Prop) (S : Text → Text → Prop) (Γ Γ' : Scope) : Prop :=
  ∀ x y, S x y → Option.Rel R (Γ.lookup x) (Γ'.lookup y) ∧ (Γ.lookup x = none → x = y)

/-- Under a binder, names that correspond still have related types. -/
theorem Parallel.extend {R : Ty → Ty → Prop} {S : Text → Text → Prop} {Γ Γ' : Scope}
    (h : Parallel R S Γ Γ') {xs ys : List Text} {τs τs' : List Ty}
    (hbound : BoundTypes R xs ys τs τs') :
    Parallel R (Under S xs ys) (Γ.extend (xs.zip τs)) (Γ'.extend (ys.zip τs')) := by
  rintro x y ⟨hplace, houter⟩
  have hlookup : Option.Rel R ((xs.zip τs).reverse.lookup x) ((ys.zip τs').reverse.lookup y) := by
    rw [List.zip_eq_zipWith, List.reverse_zipWith hbound.left.symm, List.zip_eq_zipWith,
      List.reverse_zipWith hbound.right.symm]
    refine rel_lookup_zip (List.forall₂_reverse_iff.2 hbound.rel) ?_ ?_ hplace
    · simpa using hbound.left
    · simpa [hbound.rel.length_eq] using hbound.right
  have hnone : (xs.zip τs).reverse.lookup x = none → x ∉ xs := by
    intro hx hmem
    have hsome := isSome_lookup_zip hbound.left x
    simp [hx, hmem] at hsome
  rw [lookup_extend, lookup_extend]
  refine ⟨rel_or hlookup fun hx => (h x y (houter (hnone hx))).1, ?_⟩
  intro hx
  obtain ⟨hx, hΓ⟩ := Option.or_eq_none_iff.1 hx
  exact (h x y (houter (hnone hx))).2 hΓ

end Scope

/-! ## Walks side by side -/

/-- The supply hands out variables that are related to those that are handed out `d` later. -/
def Supply.Ahead (R : Ty → Ty → Prop) (d : Int) (s : Supply) : Prop :=
  ∀ i, s.next ≤ i → R (.var i) (.var (i + d))

namespace Walk

variable {R : Ty → Ty → Prop} {d : Int} {α β γ δ : Type}

/-- From a supply that is ahead by `d`, the second walk comes to a related result, or to the same
fault, and leaves a supply that is ahead by `d`. -/
structure Parallel (R : Ty → Ty → Prop) (d : Int) (Q : α → β → Prop) (w : Walk α) (w' : Walk β) :
    Prop where
  ok : ∀ {s s' : Supply} {a : α}, s.Ahead R d → w.eval s = (.ok a, s') →
    s'.Ahead R d ∧ ∃ b, w'.eval (s.shift d) = (.ok b, s'.shift d) ∧ Q a b
  error : ∀ {s s' : Supply} {e : ScopeFault}, s.Ahead R d → w.eval s = (.error e, s') →
    w'.eval (s.shift d) = (.error e, s'.shift d)

/-- Related results are reached side by side. -/
theorem parallel_pure {Q : α → β → Prop} {a : α} {b : β} (h : Q a b) :
    Parallel R d Q (pure a) (pure b) where
  ok := by
    intro s s' a' hs h'
    rcases eval_pure_ok.1 h' with ⟨rfl, rfl⟩
    exact ⟨hs, b, rfl, h⟩
  error := by
    intro s s' e _ h'
    simp [eval_pure] at h'

theorem parallel_throw {Q : α → β → Prop} (e : ScopeFault) :
    Parallel R d Q (throw e) (throw e) where
  ok := fun _ h => absurd h eval_throw_ok
  error := by
    intro s s' e' _ h
    cases h
    rfl

/-- One walk after another keeps running side by side. -/
theorem Parallel.bind {Q : α → β → Prop} {P : γ → δ → Prop} {w : Walk α} {w' : Walk β}
    {f : α → Walk γ} {f' : β → Walk δ} (hw : Parallel R d Q w w')
    (hf : ∀ a b, Q a b → Parallel R d P (f a) (f' b)) :
    Parallel R d P (w >>= f) (w' >>= f') where
  ok := by
    intro s s' c hs h
    obtain ⟨a, s₁, ha, hc⟩ := eval_bind_ok.1 h
    obtain ⟨hs₁, b, hb, hab⟩ := hw.ok hs ha
    obtain ⟨hs', e, he, hce⟩ := (hf a b hab).ok hs₁ hc
    exact ⟨hs', e, eval_bind_ok.2 ⟨b, s₁.shift d, hb, he⟩, hce⟩
  error := by
    intro s s' e hs h
    rcases eval_bind_error.1 h with he | ⟨a, s₁, ha, he⟩
    · exact eval_bind_error.2 (Or.inl (hw.error hs he))
    · obtain ⟨hs₁, b, hb, hab⟩ := hw.ok hs ha
      exact eval_bind_error.2 (Or.inr ⟨b, s₁.shift d, hb, (hf a b hab).error hs₁ he⟩)

/-- Fresh variables of both walks are related. -/
theorem parallel_fresh : Parallel R d R fresh fresh where
  ok := by
    intro s s' t hs h
    obtain ⟨rfl, rfl⟩ := eval_fresh_ok.1 h
    have hnext : s.advance.shift d = (s.shift d).advance := by
      simp only [Supply.shift, Supply.advance, Supply.mk.injEq]
      omega
    refine ⟨fun i hi => hs i ?_, .var (s.next + d), by rw [hnext]; rfl, hs _ (Int.le_refl _)⟩
    exact Int.le_trans (Int.le_of_lt (Int.lt_succ s.next)) hi
  error := by
    intro s s' e _ h
    simp [eval_fresh] at h

/-- As many fresh variables on either side are related in order. -/
theorem parallel_freshAll {as : List α} {bs : List β} (hlen : as.length = bs.length) :
    Parallel R d (fun τs τs' => List.Forall₂ R τs τs' ∧ τs.length = as.length) (freshAll as)
      (freshAll bs) := by
  induction as generalizing bs with
  | nil =>
      cases bs with
      | nil => exact parallel_pure ⟨.nil, rfl⟩
      | cons b bs => simp at hlen
  | cons a as ih =>
      cases bs with
      | nil => simp at hlen
      | cons b bs =>
          refine parallel_fresh.bind ?_
          intro τ τ' hτ
          refine (ih (by simpa using hlen)).bind ?_
          rintro τs τs' ⟨hτs, hlenτs⟩
          exact parallel_pure ⟨.cons hτ hτs, by simp [hlenτs]⟩

/-- Parameters with the same annotations get related types. -/
theorem parallel_types {ps ps' : List Param}
    (hdeclared : ps.map Param.declared = ps'.map Param.declared)
    (hR : ∀ a, some a ∈ ps.map Param.declared → R a a) :
    Parallel R d (BoundTypes R (ps.map Param.name) (ps'.map Param.name)) (Param.types ps)
      (Param.types ps') := by
  induction ps generalizing ps' with
  | nil =>
      cases ps' with
      | nil => exact parallel_pure ⟨.nil, rfl, rfl⟩
      | cons p' ps' => simp at hdeclared
  | cons p ps ih =>
      cases ps' with
      | nil => simp at hdeclared
      | cons p' ps' =>
          obtain ⟨hhead, htail⟩ := List.cons.inj hdeclared
          have hrest := ih htail fun a ha => hR a (List.mem_cons_of_mem _ ha)
          -- One more type in front, whether it is declared or fresh.
          have hcons : ∀ τ τ', R τ τ' →
              Parallel R d (BoundTypes R ((p :: ps).map Param.name) ((p' :: ps').map Param.name))
                (do let τs ← Param.types ps; return τ :: τs)
                (do let τs' ← Param.types ps'; return τ' :: τs') := by
            intro τ τ' hτ
            refine hrest.bind ?_
            intro τs τs' hτs
            exact parallel_pure ⟨.cons hτ hτs.rel, congrArg (· + 1) hτs.left,
              congrArg (· + 1) hτs.right⟩
          rcases p with ⟨x, declared⟩
          rcases p' with ⟨x', declared'⟩
          cases (show declared = declared' from hhead)
          cases declared with
          | none => exact parallel_fresh.bind hcons
          | some a => exact hcons a a (hR a (by simp))

end Walk

/-! ## Generating -/

namespace Term

open Walk

variable {R : Ty → Ty → Prop} {d : Int} {Γ Γ' : Scope}

abbrev WalksParallel (R : Ty → Ty → Prop) (d : Int) (Γ Γ' : Scope) (t t' : Term) : Prop :=
  Walk.Parallel R d (Generated.Alike (TypedTerm.Alike R) R) (generate Γ t) (generate Γ' t')

theorem rel_types {Ts Ts' : List TypedTerm} (h : List.Forall₂ (TypedTerm.Alike R) Ts Ts') :
    List.Forall₂ R (Ts.map TypedTerm.type) (Ts'.map TypedTerm.type) :=
  List.rel_map (fun _ _ h => h.type) h

/-- Walks over two lists of terms run side by side if those over the terms do. -/
theorem parallel_generateAll {ts ts' : List Term}
    (hts : List.Forall₂ (WalksParallel R d Γ Γ') ts ts') :
    Walk.Parallel R d (Generated.Alike (List.Forall₂ (TypedTerm.Alike R)) R) (generateAll Γ ts)
      (generateAll Γ' ts') := by
  induction hts with
  | nil => exact parallel_pure ⟨.nil, .nil⟩
  | cons ht _ ih =>
      refine ht.bind ?_
      intro g g' hg
      refine ih.bind ?_
      intro gs gs' hgs
      exact parallel_pure ⟨.cons hg.trees hgs.trees, List.rel_append hg.equations hgs.equations⟩

/-- One annotation asks for related equations on both sides. -/
theorem alike_asked {declared declared' : Option Ty} (heq : declared = declared')
    (hdeclared : ∀ a, declared = some a → R a a) {τ τ' : Ty} (hτ : R τ τ') {origin origin' : Term}
    (hkind : origin.kind = origin'.kind) :
    List.Forall₂ (Equation.Alike R) (declared.toList.map fun a => ⟨τ, a, some origin⟩)
      (declared'.toList.map fun a => ⟨τ', a, some origin'⟩) := by
  cases heq
  cases declared with
  | none => exact .nil
  | some a => exact .cons ⟨hτ, hdeclared a rfl, congrArg some hkind⟩ .nil

/-- Walks over the values of two `let`s run side by side. -/
theorem parallel_generateValues {bs bs' : List (Binding Term)} {origin origin' : Term}
    (hkind : origin.kind = origin'.kind)
    (hdeclared : bs.map Binding.declared = bs'.map Binding.declared)
    (hR : ∀ a, some a ∈ bs.map Binding.declared → R a a)
    (hvalues : List.Forall₂ (WalksParallel R d Γ Γ') (bs.map Binding.value)
      (bs'.map Binding.value)) :
    Walk.Parallel R d
      (Generated.Alike (fun Ts Ts' => List.Forall₂ (TypedTerm.Alike R) Ts Ts' ∧
        Ts.length = bs.length) R)
      (generateValues Γ origin bs) (generateValues Γ' origin' bs') := by
  induction bs generalizing bs' with
  | nil =>
      cases bs' with
      | nil => exact parallel_pure ⟨⟨.nil, rfl⟩, .nil⟩
      | cons x' bs' => simp at hdeclared
  | cons x bs ih =>
      cases bs' with
      | nil => simp at hdeclared
      | cons x' bs' =>
          obtain ⟨hhead, htail⟩ := List.cons.inj hdeclared
          cases hvalues with
          | cons hv hvs =>
              refine hv.bind ?_
              intro g g' hg
              refine (ih htail (fun a ha => hR a (List.mem_cons_of_mem _ ha)) hvs).bind ?_
              intro gs gs' hgs
              have hasked := alike_asked hhead (fun a ha => hR a (by simp [ha])) hg.trees.type hkind
              exact parallel_pure ⟨⟨.cons hg.trees hgs.trees.1, congrArg (· + 1) hgs.trees.2⟩,
                List.rel_append (List.rel_append hg.equations hasked) hgs.equations⟩

/-- Walks over the values of two `letrec`s run side by side. -/
theorem parallel_generateRecursive {bs bs' : List (Binding Term)} {origin origin' : Term}
    {places places' : List Ty} (hkind : origin.kind = origin'.kind)
    (hdeclared : bs.map Binding.declared = bs'.map Binding.declared)
    (hR : ∀ a, some a ∈ bs.map Binding.declared → R a a) (hplaces : List.Forall₂ R places places')
    (hlen : places.length = bs.length)
    (hvalues : List.Forall₂ (WalksParallel R d Γ Γ') (bs.map Binding.value)
      (bs'.map Binding.value)) :
    Walk.Parallel R d (Generated.Alike (List.Forall₂ (TypedTerm.Alike R)) R)
      (generateRecursive Γ origin places bs) (generateRecursive Γ' origin' places' bs') := by
  induction bs generalizing bs' places places' with
  | nil =>
      cases bs' with
      | nil => exact parallel_pure ⟨.nil, .nil⟩
      | cons x' bs' => simp at hdeclared
  | cons x bs ih =>
      cases bs' with
      | nil => simp at hdeclared
      | cons x' bs' =>
          obtain ⟨hhead, htail⟩ := List.cons.inj hdeclared
          cases hplaces with
          | nil => simp at hlen
          | cons hplace hplaces =>
              cases hvalues with
              | cons hv hvs =>
                  refine hv.bind ?_
                  intro g g' hg
                  refine (ih htail (fun a ha => hR a (List.mem_cons_of_mem _ ha)) hplaces
                    (by simpa using hlen) hvs).bind ?_
                  intro gs gs' hgs
                  have hasked := alike_asked hhead (fun a ha => hR a (by simp [ha])) hplace hkind
                  refine parallel_pure ⟨.cons hg.trees hgs.trees, ?_⟩
                  refine List.rel_append (List.rel_append hg.equations ?_) hgs.equations
                  exact .cons ⟨hplace, hg.trees.type, congrArg some hkind⟩ hasked

/-- Walks over α-equivalent terms run side by side. -/
theorem parallel_generate (hR : Ty.Congruence R) {S : Text → Text → Prop} {t t' : Term}
    (h : Alpha S t t') (ht : t.Annotated fun a => R a a) (hΓ : Scope.Parallel R S Γ Γ') :
    WalksParallel R d Γ Γ' t t' := by
  induction h generalizing Γ Γ' with
  | hole => exact parallel_throw _
  | lit v =>
      refine parallel_pure ⟨.node rfl ?_ .nil .nil, .nil⟩
      cases v <;> exact hR.const _
  | @var S x y hxy =>
      obtain ⟨hrel, hmissing⟩ := hΓ x y hxy
      simp only [WalksParallel, generate]
      -- Both scopes know their name, or neither does.
      cases hx : Γ.lookup x with
      | none =>
          rw [hx] at hrel
          cases hy : Γ'.lookup y with
          | none => exact hmissing hx ▸ parallel_throw _
          | some τ' => rw [hy] at hrel; cases hrel
      | some τ =>
          rw [hx] at hrel
          cases hy : Γ'.lookup y with
          | none => rw [hy] at hrel; cases hrel
          | some τ' =>
              rw [hy] at hrel
              cases hrel with
              | some hτ => exact parallel_pure ⟨.node rfl hτ .nil .nil, .nil⟩
  | cond _ _ _ ihc iht ihe =>
      obtain ⟨hc, ht, he⟩ := annotated_cond.1 ht
      refine (ihc hc hΓ).bind ?_
      intro gc gc' hgc
      refine (iht ht hΓ).bind ?_
      intro gt gt' hgt
      refine (ihe he hΓ).bind ?_
      intro ge ge' hge
      refine parallel_pure ⟨.node rfl hgt.trees.type ?_ .nil, ?_⟩
      · exact .cons hgc.trees (.cons hgt.trees (.cons hge.trees .nil))
      · refine List.rel_append (List.rel_append (List.rel_append hgc.equations hgt.equations)
          hge.equations) ?_
        exact .cons ⟨hgc.trees.type, hR.const _, rfl⟩
          (.cons ⟨hgt.trees.type, hge.trees.type, rfl⟩ .nil)
  | binop op _ _ ihl ihr =>
      obtain ⟨hl, hr⟩ := annotated_binop.1 ht
      refine (ihl hl hΓ).bind ?_
      intro gl gl' hgl
      refine (ihr hr hΓ).bind ?_
      intro gr gr' hgr
      have hchildren := List.Forall₂.cons hgl.trees (.cons hgr.trees .nil)
      have hequations := List.rel_append hgl.equations hgr.equations
      cases hop : op.signature? with
      | none =>
          refine parallel_pure ⟨.node rfl (hR.const _) hchildren .nil, ?_⟩
          exact List.rel_append hequations (.cons ⟨hgl.trees.type, hgr.trees.type, rfl⟩ .nil)
      | some signature =>
          obtain ⟨hoperand, hresult⟩ := Operator.rel_signature? hR hop
          refine parallel_pure ⟨.node rfl hresult hchildren .nil, ?_⟩
          exact List.rel_append hequations
            (.cons ⟨hgl.trees.type, hoperand, rfl⟩ (.cons ⟨hgr.trees.type, hoperand, rfl⟩ .nil))
  | lam hdeclared _ ihb =>
      obtain ⟨hps, hb⟩ := annotated_lam.1 ht
      refine (parallel_types hdeclared hps).bind ?_
      intro τs τs' hτs
      refine (ihb hb (hΓ.extend hτs)).bind ?_
      intro g g' hg
      exact parallel_pure ⟨.node rfl (hR.fn hτs.rel hg.trees.type) (.cons hg.trees .nil) hτs.snd,
        hg.equations⟩
  | app _ hlen _ ihf ihargs =>
      obtain ⟨hf, hargs⟩ := annotated_app.1 ht
      refine (ihf hf hΓ).bind ?_
      intro gf gf' hgf
      have hall := List.forall₂_iff_zip.2
        ⟨hlen, fun {a a'} ha => ihargs ha (hargs a (List.of_mem_zip ha).1) hΓ⟩
      refine (parallel_generateAll hall).bind ?_
      intro gs gs' hgs
      refine parallel_fresh.bind ?_
      intro result result' hresult
      refine parallel_pure ⟨.node rfl hresult (.cons hgf.trees hgs.trees) .nil, ?_⟩
      exact List.rel_append (List.rel_append hgf.equations hgs.equations)
        (.cons ⟨hgf.trees.type, hR.fn (rel_types hgs.trees) hresult, rfl⟩ .nil)
  | letIn hdeclared _ _ ihvalues ihb =>
      obtain ⟨hvalues, hasked, hb⟩ := annotated_letIn.1 ht
      have hall := List.forall₂_iff_zip.2
        ⟨length_value_eq hdeclared, fun {v v'} hv =>
          ihvalues hv (List.forall_mem_map.2 hvalues v (List.of_mem_zip hv).1) hΓ⟩
      refine Parallel.bind (parallel_generateValues ?_ hdeclared hasked hall) ?_
      · rfl
      intro gs gs' hgs
      have hbound := boundTypes_of_declared hdeclared (rel_types hgs.trees.1)
        ((List.length_map _).trans hgs.trees.2)
      refine (ihb hb (hΓ.extend hbound)).bind ?_
      intro g g' hg
      exact parallel_pure ⟨.node rfl hg.trees.type
        (List.rel_append hgs.trees.1 (.cons hg.trees .nil))
        hbound.snd, List.rel_append hgs.equations hg.equations⟩
  | letRec hdeclared _ _ ihvalues ihb =>
      obtain ⟨hvalues, hasked, hb⟩ := annotated_letRec.1 ht
      refine (parallel_freshAll (by simpa using congrArg List.length hdeclared)).bind ?_
      rintro places places' ⟨hplaces, hlen⟩
      have hbound := boundTypes_of_declared hdeclared hplaces hlen
      -- The names are in scope in the values, so the scopes are extended before these.
      have hinner := hΓ.extend hbound
      have hall := List.forall₂_iff_zip.2
        ⟨length_value_eq hdeclared, fun {v v'} hv =>
          ihvalues hv (List.forall_mem_map.2 hvalues v (List.of_mem_zip hv).1) hinner⟩
      refine Parallel.bind (parallel_generateRecursive ?_ hdeclared hasked hplaces hlen hall) ?_
      · rfl
      intro gs gs' hgs
      refine (ihb hb hinner).bind ?_
      intro g g' hg
      exact parallel_pure ⟨.node rfl hg.trees.type (List.rel_append hgs.trees (.cons hg.trees .nil))
        hbound.snd, List.rel_append hgs.equations hg.equations⟩

end Term

end Monotype
