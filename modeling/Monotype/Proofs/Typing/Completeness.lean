import Monotype.Proofs.Typing.Known

/-!
# Completeness and principality of inference

If a term has a typing at all, its equations have a solution, so that inference succeeds; and the
type that it answers is most general, since every solution factors through the one that was
computed.

The solution is built along the walk.  A stage is a supply with a value for every variable, of which
those that the supply has handed out are settled: later stages keep them.  A walk reaches a
statement about its result (`Walk.Reaches`) if it succeeds and some later stage settles the
statement, so that nothing that happens afterwards undoes it.  `Term.reaches_generate` follows a
given derivation with the walk: every fresh variable takes the type that the derivation has in its
place.

Main statement: `Term.principalType_complete_and_mostGeneral`.  Scope and annotations are ground
there: a variable of theirs would be one that the walk may hand out again.
-/

namespace Monotype

/-! ## Stages -/

structure Stage where
  supply : Supply
  values : Int → Ty

namespace Stage

/-- The second stage comes later: what the first one has handed out keeps its value. -/
structure Le (p q : Stage) : Prop where
  next : p.supply.next ≤ q.supply.next
  values : ∀ i, i < p.supply.next → p.values i = q.values i

theorem Le.refl (p : Stage) : p.Le p := ⟨Int.le_refl _, fun _ _ => rfl⟩

theorem Le.trans {p q r : Stage} (hpq : p.Le q) (hqr : q.Le r) : p.Le r where
  next := Int.le_trans hpq.next hqr.next
  values := by
    intro i hi
    exact (hpq.values i hi).trans (hqr.values i (Int.lt_of_lt_of_le hi hpq.next))

/-- The statement holds of the values at every later stage. -/
def Settles (p : Stage) (P : (Int → Ty) → Prop) : Prop := ∀ q, p.Le q → P q.values

variable {p q : Stage} {P : (Int → Ty) → Prop}

/-- What later stages keep holds now. -/
theorem Settles.now (h : p.Settles P) : P p.values := h p (Le.refl p)

/-- What is settled stays settled. -/
theorem Settles.later (h : p.Settles P) (hpq : p.Le q) : q.Settles P :=
  fun r hqr => h r (hpq.trans hqr)

end Stage

/-! ## Walks that reach a statement -/

namespace Walk

variable {α β : Type} {p : Stage}

/-- The walk succeeds, and some later stage settles the statement about its result. -/
def Reaches (w : Walk α) (p : Stage) (P : (Int → Ty) → α → Prop) : Prop :=
  ∃ a q, w.eval p.supply = (.ok a, q.supply) ∧ p.Le q ∧ q.Settles fun θ => P θ a

/-- A result that is there already is reached. -/
theorem reaches_pure {P : (Int → Ty) → α → Prop} {a : α} (h : p.Settles fun θ => P θ a) :
    Reaches (pure a) p P :=
  ⟨a, p, rfl, Stage.Le.refl p, h⟩

/-- Two walks in a row reach what the second one settles after the first. -/
theorem Reaches.bind {P : (Int → Ty) → α → Prop} {Q : (Int → Ty) → β → Prop} {w : Walk α}
    {f : α → Walk β} (hw : w.Reaches p P)
    (hf : ∀ a q, p.Le q → q.Settles (fun θ => P θ a) → (f a).Reaches q Q) :
    (w >>= f).Reaches p Q := by
  obtain ⟨a, q, ha, hpq, hP⟩ := hw
  obtain ⟨b, r, hb, hqr, hQ⟩ := hf a q hpq hP
  exact ⟨b, r, eval_bind_ok.2 ⟨a, q.supply, ha, hb⟩, hpq.trans hqr, hQ⟩

/-- A fresh variable can take any value. -/
theorem reaches_fresh (p : Stage) (τ : Ty) : fresh.Reaches p fun θ t => t.bind θ = τ := by
  refine ⟨p.supply.fresh,
    ⟨p.supply.advance, fun i => if i = p.supply.next then τ else p.values i⟩, rfl, ?_, ?_⟩
  · constructor
    · exact Int.le_of_lt (Int.lt_succ _)
    · intro i hi
      simp [Int.ne_of_lt hi]
  · intro q hq
    have hnew := hq.values p.supply.next (Int.lt_succ _)
    simpa [Supply.fresh] using hnew.symm

/-- Fresh variables get whatever values are wanted, since nothing has used them. -/
theorem reaches_freshAll (as : List α) (p : Stage) {τs : List Ty} (hlen : as.length = τs.length) :
    (freshAll as).Reaches p fun θ ts => ts.map (Ty.bind θ) = τs := by
  induction as generalizing p τs with
  | nil =>
      have hτs : τs = [] := List.length_eq_zero_iff.1 hlen.symm
      exact reaches_pure fun _ _ => by simp [hτs]
  | cons a as ih =>
      cases τs with
      | nil => simp at hlen
      | cons τ τs =>
          refine (reaches_fresh p τ).bind fun t q _ ht => ?_
          refine (ih q (by simpa using hlen)).bind fun ts r hqr hts => ?_
          refine reaches_pure fun u hru => ?_
          exact List.cons_eq_cons.2 ⟨ht u (hqr.trans hru), hts u hru⟩

end Walk

/-! ## Following a derivation -/

open Walk

/-- The type mentions neither a variable nor `unknown`. -/
def Ty.Ground (t : Ty) : Prop := t.Known ∧ t.vars = []

instance : DecidablePred Ty.Ground := fun _ => inferInstanceAs (Decidable (_ ∧ _))

/-- Values do not reach a type without variables. -/
theorem Ty.Ground.bind {t : Ty} (h : t.Ground) (θ : Int → Ty) : t.bind θ = t :=
  Ty.bind_eq_self fun i hi => by simp [h.2] at hi

/-- Parameters get the types of a derivation: a written one is the type in its place, and the others
are fresh. -/
theorem Param.reaches_types {ps : List Param} {τs : List Ty}
    (hdeclared : Agrees some (ps.map Param.declared) τs)
    (hground : ∀ a, some a ∈ ps.map Param.declared → a.Ground) (p : Stage) :
    (Param.types ps).Reaches p fun θ ts => ts.map (Ty.bind θ) = τs := by
  induction ps generalizing p τs with
  | nil =>
      cases τs with
      | nil => exact reaches_pure fun _ _ => rfl
      | cons τ τs => exact hdeclared.elim
  | cons x ps ih =>
      rcases x with ⟨name, declared⟩
      cases τs with
      | nil => exact hdeclared.elim
      | cons τ τs =>
          have hrest : ∀ a, some a ∈ ps.map Param.declared → a.Ground :=
            fun a ha => hground a (List.mem_cons_of_mem _ ha)
          cases declared with
          | none =>
              -- The fresh variable is given the type that the derivation has in its place.
              refine (reaches_fresh p τ).bind fun t q _ ht => ?_
              refine (ih hdeclared.2 hrest q).bind fun ts r hqr hts => ?_
              refine reaches_pure fun u hru => ?_
              exact List.cons_eq_cons.2 ⟨ht u (hqr.trans hru), hts u hru⟩
          | some a =>
              have hτ : a = τ := Option.some.inj (hdeclared.1 a rfl)
              have ha : a.Ground := hground a (by simp)
              refine (ih hdeclared.2 hrest p).bind fun ts r _ hts => ?_
              refine reaches_pure fun u hru => ?_
              exact List.cons_eq_cons.2 ⟨(ha.bind _).trans hτ, hts u hru⟩

theorem DerivesAll.length_eq {read : Ty → Option Ty} {Δ : Context} {ts : List Term}
    {Ts : List TypedTerm} (h : DerivesAll read Δ ts Ts) : ts.length = Ts.length := by
  induction ts generalizing Ts with
  | nil =>
      cases h
      rfl
  | cons t ts ih =>
      cases h with
      | cons head tail => simp [ih tail]

namespace Generated

def Fits (θ : Int → Ty) (g : Generated TypedTerm) (R : TypedTerm) : Prop :=
  (∀ e ∈ g.equations, e.Holds θ) ∧ g.trees.mapTypes (Ty.bind θ) = R

def FitsAll (θ : Int → Ty) (g : Generated (List TypedTerm)) (Rs : List TypedTerm) : Prop :=
  (∀ e ∈ g.equations, e.Holds θ) ∧ g.trees.map (TypedTerm.mapTypes (Ty.bind θ)) = Rs

/-- The type of the tree that is reached is that of the derivation. -/
theorem Fits.type {θ : Int → Ty} {g : Generated TypedTerm} {R : TypedTerm} (h : g.Fits θ R) :
    g.trees.type.bind θ = R.type := by
  rw [← h.2, TypedTerm.type_mapTypes]

theorem FitsAll.types {θ : Int → Ty} {g : Generated (List TypedTerm)} {Rs : List TypedTerm}
    (h : g.FitsAll θ Rs) :
    (g.trees.map TypedTerm.type).map (Ty.bind θ) = Rs.map TypedTerm.type := by
  rw [← h.2, TypedTerm.map_type_mapTypes]

end Generated

namespace Term

/-- Wherever the term has a derivation, the walk over it can follow that derivation. -/
def WalkFollows (t : Term) : Prop :=
  ∀ {Γ : Scope} {Δ : Context} {R : TypedTerm} {p : Stage}, Derives some Δ t R →
    p.Settles (fun θ => Γ.context θ = Δ) → (generate Γ t).Reaches p fun θ g => g.Fits θ R

variable {Γ : Scope} {Δ : Context} {Rs : List TypedTerm} {p : Stage}

/-- A walk over a list of terms follows the derivations of the terms. -/
theorem reaches_generateAll {ts : List Term} (hts : ∀ t ∈ ts, WalkFollows t)
    (h : DerivesAll some Δ ts Rs) (hΓ : p.Settles fun θ => Γ.context θ = Δ) :
    (generateAll Γ ts).Reaches p fun θ g => g.FitsAll θ Rs := by
  induction ts generalizing p Rs with
  | nil =>
      cases h
      exact reaches_pure fun _ _ => ⟨by simp, rfl⟩
  | cons t ts ih =>
      cases h with
      | cons head tail =>
          refine (hts t (by simp) head hΓ).bind fun t' q hpq ht => ?_
          refine (ih (fun u hu => hts u (by simp [hu])) tail (hΓ.later hpq)).bind
            fun ts' r hqr hts' => ?_
          refine reaches_pure fun u hru => ?_
          -- Later stages keep the values of earlier ones, so the first term still fits.
          have hfirst := ht u (hqr.trans hru)
          have hrest := hts' u hru
          exact ⟨List.forall_mem_append.2 ⟨hfirst.1, hrest.1⟩,
            List.cons_eq_cons.2 ⟨hfirst.2, hrest.2⟩⟩

/-- A walk over the values of a `let` follows their derivations, and every annotation is met. -/
theorem reaches_generateValues {bs : List (Binding Term)} {origin : Term}
    (hbs : ∀ x ∈ bs, WalkFollows x.value)
    (hground : ∀ a, some a ∈ bs.map Binding.declared → a.Ground)
    (h : DerivesAll some Δ (bs.map Binding.value) Rs)
    (hdeclared : Agrees some (bs.map Binding.declared) (Rs.map TypedTerm.type))
    (hΓ : p.Settles fun θ => Γ.context θ = Δ) :
    (generateValues Γ origin bs).Reaches p fun θ g => g.FitsAll θ Rs := by
  induction bs generalizing p Rs with
  | nil =>
      cases h
      exact reaches_pure fun _ _ => ⟨by simp, rfl⟩
  | cons x bs ih =>
      cases h with
      | cons head tail =>
          rename_i R Rs
          refine (hbs x (by simp) head hΓ).bind fun v' q hpq hv => ?_
          refine (ih (fun y hy => hbs y (by simp [hy]))
            (fun a ha => hground a (List.mem_cons_of_mem _ ha)) tail hdeclared.2
            (hΓ.later hpq)).bind fun bs' r hqr hbs' => ?_
          refine reaches_pure fun u hru => ?_
          have hfirst := hv u (hqr.trans hru)
          have hrest := hbs' u hru
          refine ⟨?_, List.cons_eq_cons.2 ⟨hfirst.2, hrest.2⟩⟩
          simp only [List.forall_mem_append, List.forall_mem_map]
          refine ⟨⟨hfirst.1, ?_⟩, hrest.1⟩
          intro a ha
          -- The annotation is ground, so that values of variables do not change it.
          have hx : x.declared = some a := by simpa using ha
          have hR : a = R.type := Option.some.inj (hdeclared.1 a hx)
          have hbind : a.bind u.values = a := (hground a (by simp [hx])).bind _
          exact hfirst.type.trans (hR.symm.trans hbind.symm)

/-- A walk over the values of a `letrec` follows their derivations, with types for the names that
are there before. -/
theorem reaches_generateRecursive {bs : List (Binding Term)} {origin : Term} {places : List Ty}
    (hbs : ∀ x ∈ bs, WalkFollows x.value)
    (hground : ∀ a, some a ∈ bs.map Binding.declared → a.Ground)
    (h : DerivesAll some Δ (bs.map Binding.value) Rs)
    (hdeclared : Agrees some (bs.map Binding.declared) (Rs.map TypedTerm.type))
    (hΓ : p.Settles fun θ => Γ.context θ = Δ)
    (hplaces : p.Settles fun θ => places.map (Ty.bind θ) = Rs.map TypedTerm.type) :
    (generateRecursive Γ origin places bs).Reaches p fun θ g => g.FitsAll θ Rs := by
  induction bs generalizing p Rs places with
  | nil =>
      cases h
      exact reaches_pure fun _ _ => ⟨by simp, rfl⟩
  | cons x bs ih =>
      cases h with
      | cons head tail =>
          rename_i R Rs
          cases places with
          | nil => simpa using hplaces.now
          | cons place places =>
              refine (hbs x (by simp) head hΓ).bind fun v' q hpq hv => ?_
              refine (ih (fun y hy => hbs y (by simp [hy]))
                (fun a ha => hground a (List.mem_cons_of_mem _ ha)) tail hdeclared.2
                (hΓ.later hpq)
                (fun u hu => (List.cons_eq_cons.1 (hplaces u (hpq.trans hu))).2)).bind
                fun bs' r hqr hbs' => ?_
              refine reaches_pure fun u hru => ?_
              have hfirst := hv u (hqr.trans hru)
              have hrest := hbs' u hru
              -- The place of the name has had the type of the value from the start.
              have hplace : place.bind u.values = R.type :=
                (List.cons_eq_cons.1 (hplaces u (hpq.trans (hqr.trans hru)))).1
              refine ⟨?_, List.cons_eq_cons.2 ⟨hfirst.2, hrest.2⟩⟩
              simp only [List.forall_mem_append, List.forall_mem_cons, List.forall_mem_map]
              refine ⟨⟨hfirst.1, hplace.trans hfirst.type.symm, ?_⟩, hrest.1⟩
              intro a ha
              have hx : x.declared = some a := by simpa using ha
              have hR : a = R.type := Option.some.inj (hdeclared.1 a hx)
              have hbind : a.bind u.values = a := (hground a (by simp [hx])).bind _
              exact hplace.trans (hR.symm.trans hbind.symm)

/-- A binder extends scope and context alike. -/
theorem settles_extend (names : List Text) {τs τs' : List Ty}
    (hΓ : p.Settles fun θ => Γ.context θ = Δ)
    (hτs : p.Settles fun θ => τs.map (Ty.bind θ) = τs') :
    p.Settles fun θ => (Γ.extend (names.zip τs)).context θ = Δ.extend (names.zip τs') := by
  intro q hpq
  rw [Scope.context_extend, hΓ q hpq, hτs q hpq]

/-- The walk over a term whose annotations are ground can follow every derivation. -/
theorem reaches_generate {t : Term} (ht : t.Annotated Ty.Ground) : WalkFollows t := by
  induction t using Term.induct with
  | hole =>
      intro Γ Δ R p h _
      cases h
  | lit v =>
      intro Γ Δ R p h _
      cases h
      refine reaches_pure fun q _ => ⟨by simp, ?_⟩
      cases v <;> rfl
  | var x =>
      intro Γ Δ R p h hΓ
      cases h with
      | var hx =>
          rename_i τ
          -- The name has a type in the scope itself, and all later stages read it the same way.
          have hlookup : ∀ q, p.Le q → (Γ.lookup x).map (Ty.bind q.values) = some τ := by
            intro q hpq
            rw [← hx, ← hΓ q hpq]
            rfl
          obtain ⟨τ₀, hτ₀, _⟩ := Option.map_eq_some_iff.1 (hlookup p (.refl p))
          simp only [generate, hτ₀]
          refine reaches_pure fun q hpq => ⟨by simp, ?_⟩
          have hτ : τ₀.bind q.values = τ := by simpa [hτ₀] using hlookup q hpq
          simp [hτ]
  | cond c t e ihc iht ihe =>
      intro Γ Δ R p h hΓ
      rcases annotated_cond.1 ht with ⟨hannc, hannt, hanne⟩
      cases h with
      | cond hc ht he htest hbranches =>
          refine (ihc hannc hc hΓ).bind fun c' q hpq hc' => ?_
          refine (iht hannt ht (hΓ.later hpq)).bind fun t' r hqr ht' => ?_
          refine (ihe hanne he (hΓ.later (hpq.trans hqr))).bind fun e' v hrv he' => ?_
          refine reaches_pure fun w hvw => ?_
          have hfitc := hc' w (hqr.trans (hrv.trans hvw))
          have hfitt := ht' w (hrv.trans hvw)
          have hfite := he' w hvw
          refine ⟨?_, by simp [hfitc.2, hfitt.2, hfite.2, hfitt.type]⟩
          simp only [List.forall_mem_append, List.forall_mem_cons]
          exact ⟨⟨⟨hfitc.1, hfitt.1⟩, hfite.1⟩, hfitc.type.trans htest,
            hfitt.type.trans (hbranches.symm.trans hfite.type.symm), by simp⟩
  | binop op l r ihl ihr =>
      intro Γ Δ R p h hΓ
      rcases annotated_binop.1 ht with ⟨hannl, hannr⟩
      cases h with
      | operator hop hl hr hleft hright =>
          refine (ihl hannl hl hΓ).bind fun l' q hpq hl' => ?_
          refine (ihr hannr hr (hΓ.later hpq)).bind fun r' v hqv hr' => ?_
          simp only [hop]
          refine reaches_pure fun w hvw => ?_
          have hfitl := hl' w (hqv.trans hvw)
          have hfitr := hr' w hvw
          rcases op.bind_signature? w.values hop with ⟨hoperand, hresult⟩
          refine ⟨?_, by simp [hfitl.2, hfitr.2, hresult]⟩
          simp only [List.forall_mem_append, List.forall_mem_cons]
          exact ⟨⟨hfitl.1, hfitr.1⟩, hfitl.type.trans (hleft.trans hoperand.symm),
            hfitr.type.trans (hright.trans hoperand.symm), by simp⟩
      | equality hop hl hr hoperands =>
          refine (ihl hannl hl hΓ).bind fun l' q hpq hl' => ?_
          refine (ihr hannr hr (hΓ.later hpq)).bind fun r' v hqv hr' => ?_
          simp only [hop]
          refine reaches_pure fun w hvw => ?_
          have hfitl := hl' w (hqv.trans hvw)
          have hfitr := hr' w hvw
          refine ⟨?_, by simp [hfitl.2, hfitr.2, Ty.bool]⟩
          simp only [List.forall_mem_append, List.forall_mem_cons]
          exact ⟨⟨hfitl.1, hfitr.1⟩, hfitl.type.trans (hoperands.trans hfitr.type.symm), by simp⟩
  | lam ps b ihb =>
      intro Γ Δ R p h hΓ
      rcases annotated_lam.1 ht with ⟨hannps, hannb⟩
      cases h with
      | lam hdeclared hb =>
          refine (Param.reaches_types hdeclared hannps p).bind fun types q hpq htypes => ?_
          refine (ihb hannb hb (settles_extend _ (hΓ.later hpq) htypes)).bind fun b' r hqr hb' => ?_
          refine reaches_pure fun w hrw => ?_
          have hfit := hb' w hrw
          refine ⟨hfit.1, ?_⟩
          rw [TypedTerm.mapTypes_node, Ty.bind_fn, ← List.zip_map_right, htypes w (hqr.trans hrw),
            hfit.type]
          simp [hfit.2]
  | app f args ihf ihargs =>
      intro Γ Δ R p h hΓ
      rcases annotated_app.1 ht with ⟨hannf, hannargs⟩
      cases h with
      | app hf hargs hfunction =>
          rename_i F As τ
          refine (ihf hannf hf hΓ).bind fun f' q hpq hf' => ?_
          refine (reaches_generateAll (fun a ha => ihargs a ha (hannargs a ha)) hargs
            (hΓ.later hpq)).bind fun args' r hqr hargs' => ?_
          -- The fresh result takes the type that the derivation gives the application.
          refine (reaches_fresh r τ).bind fun result v hrv hresult => ?_
          refine reaches_pure fun w hvw => ?_
          have hfitf := hf' w (hqr.trans (hrv.trans hvw))
          have hfitargs := hargs' w (hrv.trans hvw)
          refine ⟨?_, by simp [hfitf.2, hfitargs.2, hresult w hvw]⟩
          simp only [List.forall_mem_append, List.forall_mem_cons]
          refine ⟨⟨hfitf.1, hfitargs.1⟩, ?_, by simp⟩
          rw [Equation.Holds, Ty.bind_fn, hfitargs.types, hresult w hvw, hfitf.type, hfunction]
  | letIn bs b ihbs ihb =>
      intro Γ Δ R p h hΓ
      rcases annotated_letIn.1 ht with ⟨hannvs, hannbs, hannb⟩
      cases h with
      | letIn hvalues hdeclared hb =>
          refine (reaches_generateValues (fun x hx => ihbs x hx (hannvs x hx))
            hannbs hvalues hdeclared
            hΓ).bind fun bs' q hpq hbs' => ?_
          have hbound :=
            settles_extend (bs.map Binding.name) (hΓ.later hpq) fun w hw => (hbs' w hw).types
          refine (ihb hannb hb hbound).bind fun b' r hqr hb' => ?_
          refine reaches_pure fun w hrw => ?_
          have hfitbs := hbs' w (hqr.trans hrw)
          have hfitb := hb' w hrw
          refine ⟨List.forall_mem_append.2 ⟨hfitbs.1, hfitb.1⟩, ?_⟩
          rw [TypedTerm.mapTypes_node, ← List.zip_map_right, hfitbs.types, hfitb.type,
            List.map_append, hfitbs.2]
          simp [hfitb.2]
  | letRec bs b ihbs ihb =>
      intro Γ Δ R p h hΓ
      rcases annotated_letRec.1 ht with ⟨hannvs, hannbs, hannb⟩
      cases h with
      | letRec hvalues hdeclared hb =>
          rename_i Vs B
          have hlen : bs.length = (Vs.map TypedTerm.type).length := by
            simpa using hvalues.length_eq
          -- The places take the types of the values, before any value is walked over.
          refine (reaches_freshAll bs p hlen).bind fun places q hpq hplaces => ?_
          have hbound := settles_extend (bs.map Binding.name) (hΓ.later hpq) hplaces
          refine (reaches_generateRecursive (fun x hx => ihbs x hx (hannvs x hx)) hannbs hvalues
            hdeclared hbound hplaces).bind fun bs' r hqr hbs' => ?_
          refine (ihb hannb hb (hbound.later hqr)).bind fun b' v hrv hb' => ?_
          refine reaches_pure fun w hvw => ?_
          have hfitbs := hbs' w (hrv.trans hvw)
          have hfitb := hb' w hvw
          refine ⟨List.forall_mem_append.2 ⟨hfitbs.1, hfitb.1⟩, ?_⟩
          rw [TypedTerm.mapTypes_node, ← List.zip_map_right,
            hplaces w (hqr.trans (hrv.trans hvw)), hfitb.type, List.map_append, hfitbs.2]
          simp [hfitb.2]

end Term

/-! ## Main statement -/

namespace Term

/-- Some derivation gives the term the type in the scope. -/
def HasType (Γ : Scope) (t : Term) (τ : Ty) : Prop := ∃ R, Derives some Γ.lookup t R ∧ R.type = τ

variable {Γ : Scope} {t : Term}

/-- A scope without variables means the same under all values. -/
theorem context_of_ground (hΓ : Γ.All Ty.Ground) (θ : Int → Ty) : Γ.context θ = Γ.lookup := by
  funext x
  cases hx : Γ.lookup x with
  | none => simp [Scope.context, hx]
  | some τ => simp [Scope.context, hx, (hΓ x τ hx).bind θ]

/-- A principal type is read off the equations of the term through their solution. -/
theorem principalType_ok {T : Ty} (h : t.principalType Γ = .ok T) :
    ∃ g s σ, t.generateFrom Γ .initial = (.ok g, s) ∧ (solve none g.equations).outcome = .ok σ ∧
      T = g.trees.type.bind σ.assign := by
  rcases hfrom : t.generateFrom Γ .initial with ⟨e | g, s⟩
  · rw [principalType_of_fault hfrom] at h
    cases h
  · rw [principalType_of_generated hfrom] at h
    cases hsolve : (solve none g.equations).outcome with
    | error u =>
        rw [Generated.rootType_of_error hsolve] at h
        cases h
    | ok σ =>
        rw [Generated.rootType_none_of_ok hsolve] at h
        exact ⟨g, s, σ, rfl, hsolve, (Except.ok.inj h).symm⟩

/-- The solution of the equations gives the principal type. -/
theorem principalType_of_solve {g : Generated TypedTerm} {s : Supply} {σ : Subst}
    (hfrom : t.generateFrom Γ .initial = (.ok g, s))
    (hsolve : (solve none g.equations).outcome = .ok σ) :
    t.principalType Γ = .ok (g.trees.type.bind σ.assign) :=
  (principalType_of_generated hfrom).trans (Generated.rootType_none_of_ok hsolve)

/-- The principal type is a type of the term. -/
theorem hasType_of_principalType (hΓ : Γ.All Ty.Ground) (ht : t.Annotated Ty.Ground) {T : Ty}
    (h : t.principalType Γ = .ok T) : t.HasType Γ T := by
  obtain ⟨g, s, σ, hfrom, hsolve, rfl⟩ := principalType_ok h
  have hderives := derives_of_generate σ.assign t hfrom (holds_of_solve hsolve)
  rw [context_of_ground hΓ] at hderives
  have hread : t.Annotated fun a => Ty.through σ.assign a = some a :=
    fun a ha => congrArg some ((ht a ha).bind _)
  exact ⟨_, hderives.congr hread, TypedTerm.type_mapTypes _ _⟩

/-- If the term has a type, it has a principal type, and that type is at least as general. -/
theorem exists_principalType_of_hasType (hΓ : Γ.All Ty.Ground) (ht : t.Annotated Ty.Ground) {τ : Ty}
    (h : t.HasType Γ τ) : ∃ T, t.principalType Γ = .ok T ∧ ∃ θ : Int → Ty, T.bind θ = τ := by
  obtain ⟨R, hR, rfl⟩ := h
  -- Before anything is taken from the supply, the scope is settled since it is ground.
  obtain ⟨g, q, hfrom, _, hfits⟩ := reaches_generate ht (p := ⟨.initial, fun _ => .unknown⟩) hR
    fun θ _ => context_of_ground hΓ _
  have hfit := hfits.now
  -- The values at the end solve the equations, so solving succeeds and its answer is more general.
  have hknown := (known_of_generate (fun a ha => (ht a ha).1) (fun x σ hx => (hΓ x σ hx).1) hfrom).1
  obtain ⟨σ, hsolve⟩ := exists_solve_ok_of_unifiable hknown ⟨q.values, hfit.1⟩
  refine ⟨_, principalType_of_solve hfrom hsolve, q.values, ?_⟩
  calc
    (g.trees.type.bind σ.assign).bind q.values = g.trees.type.bind q.values :=
      bind_assign_bind_of_solve hsolve hfit.1 _
    _ = R.type := hfit.type

/-- A term with a type has a principal type, of which that type is an instance; so inference fails
exactly when the term has no type.  Within the limits the answer is the same, unless a limit is
exceeded. -/
theorem principalType_complete_and_mostGeneral (Γ : Scope) (t : Term) (hΓ : Γ.All Ty.Ground)
    (ht : t.Annotated Ty.Ground) :
    (∀ τ, t.HasType Γ τ →
      ∃ T, t.principalType Γ = .ok T ∧ t.HasType Γ T ∧ ∃ θ : Int → Ty, T.bind θ = τ) ∧
    ((∃ f, t.principalType Γ = .error f) ↔ ¬ ∃ τ, t.HasType Γ τ) ∧
    (t.checkType Γ = t.principalType Γ ∨ (t.checkType Γ = .error .endless ∧ t.Strained Γ) ∨
      (t.checkType Γ = .error .tooDeep ∧
        (depthLimit < t.depth ∨ layerLimit < Γ.layers.length))) := by
  refine ⟨?_, ⟨?_, ?_⟩, checkType_eq_principalType Γ t⟩
  · intro τ hτ
    obtain ⟨T, hT, hgeneral⟩ := exists_principalType_of_hasType hΓ ht hτ
    exact ⟨T, hT, hasType_of_principalType hΓ ht hT, hgeneral⟩
  · rintro ⟨f, hf⟩ ⟨τ, hτ⟩
    obtain ⟨T, hT, _⟩ := exists_principalType_of_hasType hΓ ht hτ
    simp [hf] at hT
  · intro hnone
    cases hT : t.principalType Γ with
    | error f => exact ⟨f, rfl⟩
    | ok T => exact absurd ⟨T, hasType_of_principalType hΓ ht hT⟩ hnone

/-- A function that applies its first parameter to a test of the second, which is annotated:
`fun f (x : Int) -> f (is_zero x)`. -/
def appliedTest : Term :=
  .lam [⟨"f", none⟩, ⟨"x", some .int⟩]
    (.app (.var "f") [.app (.var "is_zero") [.var "x"]])

/-- The function can be used to produce numbers, and its principal type is at least as general. -/
theorem principalType_of_appliedTest :
    Scope.builtin.All Ty.Ground ∧ appliedTest.Annotated Ty.Ground ∧
      appliedTest.HasType .builtin (.fn [.fn [.bool] .float, .int] .float) ∧
      ∃ T, appliedTest.principalType .builtin = .ok T ∧
        ∃ θ : Int → Ty, T.bind θ = .fn [.fn [.bool] .float, .int] .float := by
  have hΓ : Scope.builtin.All Ty.Ground := Scope.all_empty.extend (by decide)
  have ht : appliedTest.Annotated Ty.Ground := by
    simp only [Annotated]
    decide
  have hvar : ∀ {x τ}, Context.extend Scope.builtin.lookup
      [("f", .fn [.bool] .float), ("x", .int)] x = some τ →
      Derives some (Context.extend Scope.builtin.lookup [("f", .fn [.bool] .float), ("x", .int)])
        (.var x) (.leaf (.var x) τ) := .var
  have hx := @hvar "x" .int rfl
  have hzero := @hvar "is_zero" (.fn [.int] .bool) rfl
  have hf := @hvar "f" (.fn [.bool] .float) rfl
  have htest := Derives.app hzero (.cons hx .nil) rfl
  have hbody := Derives.app hf (.cons htest .nil) rfl
  have hdeclared : Agrees some [none, some .int] [.fn [.bool] .float, .int] :=
    ⟨by simp, by simp, trivial⟩
  have htype : appliedTest.HasType .builtin (.fn [.fn [.bool] .float, .int] .float) :=
    ⟨_, .lam hdeclared hbody, rfl⟩
  obtain ⟨T, hT, _, hgeneral⟩ :=
    (principalType_complete_and_mostGeneral .builtin appliedTest hΓ ht).1 _ htype
  exact ⟨hΓ, ht, htype, T, hT, hgeneral⟩

end Term

end Monotype
