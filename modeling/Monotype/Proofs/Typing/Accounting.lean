import Monotype.Proofs.Typing.Capture
import Monotype.Proofs.Typing.Shift
import Monotype.Proofs.Typing.Visits

/-!
# Accounting for variables and equations

What typing a term costs can be read off the term.

* The variables that a walk takes are consecutive, and each is for a site of its own.  A walk that
  comes to an end has taken one for every site, and a walk that ends in a fault has taken those that
  it came across before.
* No other variables occur in what the walk comes to, but for those that stand in the annotations
  and in the scope.
* Every node asks for as many equations as its form says (`Term.asked`), and is their origin.

Main statement: `Term.accounts_generate`, for the walk and for the walk within the limits.
-/

namespace Monotype

open scoped List

/-! ## Origins of equations -/

namespace Term

/-- The number of equations that the typing rule of the root asks for. -/
def asked : Term → Nat
  | .cond _ _ _ => 2
  | .binop (.arithmetic _ _) _ _ => 2
  | .binop (.order _ _) _ _ => 2
  | .binop .equal _ _ => 1
  | .binop .unequal _ _ => 1
  | .app _ _ => 1
  | .letIn bs _ => bs.countP fun x => x.declared.isSome
  | .letRec bs _ => bs.length + bs.countP fun x => x.declared.isSome
  | _ => 0

/-- The origins of the equations of a term: each subterm, as often as its rule asks. -/
def origins (t : Term) : List (Option Term) :=
  t.subterms.flatMap fun u => List.replicate u.asked (some u)

/-- Every subterm is an origin as often as its own rule asks, and so the origins come part by
part. -/
theorem origins_eq (t : Term) :
    t.origins = List.replicate t.asked (some t) ++ t.parts.flatMap fun p => p.2.origins := by
  rw [origins, subterms_eq, List.flatMap_cons, List.flatMap_assoc]
  rfl

/-- The root asks after its parts. -/
theorem perm_origins {t : Term} {inner own : List Equation}
    (hinner : inner.map Equation.origin ~ t.parts.flatMap fun p => p.2.origins)
    (hown : own.map Equation.origin = List.replicate t.asked (some t)) :
    (inner ++ own).map Equation.origin ~ t.origins := by
  rw [List.map_append, hown, origins_eq]
  exact List.perm_append_comm.trans (hinner.append_left _)

/-- The root asks among its values, and its body comes last. -/
theorem perm_origins_group {t : Term} {values body : List Equation}
    {inner last : List (Option Term)}
    (hvalues : values.map Equation.origin ~ inner ++ List.replicate t.asked (some t))
    (hbody : body.map Equation.origin ~ last)
    (hparts : (t.parts.flatMap fun p => p.2.origins) = inner ++ last) :
    (values ++ body).map Equation.origin ~ t.origins := by
  rw [origins_eq, hparts, List.map_append, ← List.append_assoc]
  exact (hvalues.trans List.perm_append_comm).append hbody

def WalkOrigins (t : Term) : Prop :=
  ∀ {Γ : Scope} {s s' : Supply} {g : Generated TypedTerm}, (generate Γ t).eval s = (.ok g, s') →
    g.equations.map Equation.origin ~ t.origins

/-- One more value, whose equations are followed by those that the binding group asks for on its
account. -/
theorem perm_values_cons {first first' own more rest : List (Option Term)} {o : Option Term}
    {k m n : Nat} (hfirst : first ~ first') (hown : own = List.replicate k o)
    (hrest : rest ~ more ++ List.replicate m o) (hn : n = k + m) :
    first ++ own ++ rest ~ first' ++ more ++ List.replicate n o := by
  subst hown hn
  rw [List.append_assoc, List.append_assoc]
  refine hfirst.append ?_
  calc
    List.replicate k o ++ rest ~ rest ++ List.replicate k o := List.perm_append_comm
    _ ~ more ++ List.replicate m o ++ List.replicate k o := hrest.append_right _
    _ = more ++ List.replicate (k + m) o := by
      rw [List.append_assoc, List.replicate_append_replicate, Nat.add_comm m k]

section Lists

open Walk

variable {Γ : Scope} {s s' : Supply} {g : Generated (List TypedTerm)}

/-- The equations of a list of terms are those of the terms. -/
theorem origins_of_generateAll {ts : List Term} (hts : ∀ t ∈ ts, WalkOrigins t)
    (h : (generateAll Γ ts).eval s = (.ok g, s')) :
    g.equations.map Equation.origin ~ ts.flatMap origins := by
  induction ts generalizing s g with
  | nil =>
      simp only [generateAll, eval_pure_ok] at h
      rcases h with ⟨rfl, rfl⟩
      exact List.Perm.nil
  | cons t ts ih =>
      simp only [generateAll, eval_bind_ok, eval_pure_ok] at h
      obtain ⟨t', s₁, ht, ts', s₂, hrest, rfl, rfl⟩ := h
      rw [List.map_append, List.flatMap_cons]
      exact (hts t (by simp) ht).append (ih (fun u hu => hts u (by simp [hu])) hrest)

/-- Besides those of the values, a `let` asks for one equation per annotation. -/
theorem origins_of_generateValues {bs : List (Binding Term)} {origin : Term}
    (hbs : ∀ x ∈ bs, WalkOrigins x.value) (h : (generateValues Γ origin bs).eval s = (.ok g, s')) :
    g.equations.map Equation.origin ~ (bs.flatMap fun x => x.value.origins) ++
      List.replicate (bs.countP fun x => x.declared.isSome) (some origin) := by
  induction bs generalizing s g with
  | nil =>
      simp only [generateValues, eval_pure_ok] at h
      rcases h with ⟨rfl, rfl⟩
      exact List.Perm.nil
  | cons x bs ih =>
      rcases x with ⟨name, declared, value⟩
      simp only [generateValues, eval_bind_ok, eval_pure_ok] at h
      obtain ⟨v', s₁, hv, bs', s₂, hrest, rfl, rfl⟩ := h
      rw [List.map_append, List.map_append, List.flatMap_cons]
      refine perm_values_cons (hbs _ List.mem_cons_self hv) ?_
        (ih (fun y hy => hbs y (by simp [hy])) hrest)
        ((List.countP_cons ..).trans (Nat.add_comm _ _))
      cases declared <;> rfl

/-- Besides those of the values, a `letrec` asks for one equation per name and one per
annotation. -/
theorem origins_of_generateRecursive {bs : List (Binding Term)} {origin : Term} {places : List Ty}
    (hlen : places.length = bs.length) (hbs : ∀ x ∈ bs, WalkOrigins x.value)
    (h : (generateRecursive Γ origin places bs).eval s = (.ok g, s')) :
    g.equations.map Equation.origin ~ (bs.flatMap fun x => x.value.origins) ++
      List.replicate (bs.length + bs.countP fun x => x.declared.isSome) (some origin) := by
  induction bs generalizing s g places with
  | nil =>
      simp only [generateRecursive, eval_pure_ok] at h
      rcases h with ⟨rfl, rfl⟩
      exact List.Perm.nil
  | cons x bs ih =>
      rcases x with ⟨name, declared, value⟩
      cases places with
      | nil => simp at hlen
      | cons place places =>
          simp only [generateRecursive, eval_bind_ok, eval_pure_ok] at h
          obtain ⟨v', s₁, hv, bs', s₂, hrest, rfl, rfl⟩ := h
          rw [List.map_append, List.map_append, List.flatMap_cons]
          refine perm_values_cons (k := 1 + if declared.isSome then 1 else 0)
            (hbs _ List.mem_cons_self hv) ?_
            (ih (by simpa using hlen) (fun y hy => hbs y (by simp [hy])) hrest) ?_
          · cases declared <;> rfl
          · simp only [List.length_cons, List.countP_cons]
            omega

end Lists

open Walk in
/-- Every node is the origin of the equations that its rule asks for. -/
theorem origins_of_generate (t : Term) : WalkOrigins t := by
  induction t using Term.induct with
  | hole =>
      intro Γ s s' g h
      exact absurd h eval_throw_ok
  | lit v =>
      intro Γ s s' g h
      rcases eval_pure_ok.1 h with ⟨rfl, rfl⟩
      exact List.Perm.nil
  | var x =>
      intro Γ s s' g h
      cases hx : Γ.lookup x with
      | none =>
          simp only [generate, hx] at h
          exact absurd h eval_throw_ok
      | some τ =>
          simp only [generate, hx, eval_pure_ok] at h
          rcases h with ⟨rfl, rfl⟩
          exact List.Perm.nil
  | cond c t e ihc iht ihe =>
      intro Γ s s' g h
      simp only [generate, eval_bind_ok, eval_pure_ok] at h
      obtain ⟨c', s₁, hc, t', s₂, ht, e', s₃, he, rfl, rfl⟩ := h
      refine perm_origins ?_ rfl
      simpa [parts] using (ihc hc).append ((iht ht).append (ihe he))
  | binop op l r ihl ihr =>
      intro Γ s s' g h
      simp only [generate, eval_bind_ok] at h
      obtain ⟨l', s₁, hl, r', s₂, hr, h⟩ := h
      -- All operators ask after both operands; they differ in how many equations they ask for.
      have hinner : (l'.equations ++ r'.equations).map Equation.origin ~
          (binop op l r).parts.flatMap fun p => p.2.origins := by
        simpa [parts] using (ihl hl).append (ihr hr)
      cases op with
      | arithmetic _ _ | order _ _ | equal | unequal =>
          rcases eval_pure_ok.1 h with ⟨rfl, rfl⟩
          exact perm_origins hinner rfl
  | lam ps b ihb =>
      intro Γ s s' g h
      simp only [generate, eval_bind_ok, eval_pure_ok] at h
      obtain ⟨types, s₁, _, b', s₂, hb, rfl, rfl⟩ := h
      simpa [origins_eq (lam ps b), asked, parts] using ihb hb
  | app f args ihf ihargs =>
      intro Γ s s' g h
      simp only [generate, eval_bind_ok, eval_pure_ok] at h
      obtain ⟨f', s₁, hf, args', s₂, hargs, result, s₃, _, rfl, rfl⟩ := h
      refine perm_origins ?_ rfl
      simpa [parts, List.flatMap_map] using (ihf hf).append (origins_of_generateAll ihargs hargs)
  | letIn bs b ihbs ihb =>
      intro Γ s s' g h
      simp only [generate, eval_bind_ok, eval_pure_ok] at h
      obtain ⟨bs', s₁, hbs, b', s₂, hb, rfl, rfl⟩ := h
      exact perm_origins_group (origins_of_generateValues ihbs hbs) (ihb hb)
        (by simp [parts, List.flatMap_map])
  | letRec bs b ihbs ihb =>
      intro Γ s s' g h
      simp only [generate, eval_bind_ok, eval_pure_ok] at h
      obtain ⟨places, s₁, hplaces, bs', s₂, hbs, b', s₃, hb, rfl, rfl⟩ := h
      exact perm_origins_group (origins_of_generateRecursive (length_of_freshAll hplaces) ihbs hbs)
        (ihb hb)
        (by simp [parts, List.flatMap_map])

end Term

/-! ## Variables that occur -/

namespace TypedTerm

def types (T : TypedTerm) : List Ty := T.nodes.flatMap fun n => n.type :: n.bound.map Prod.snd

theorem nodesAll_eq (Ts : List TypedTerm) : nodesAll Ts = Ts.flatMap nodes := by
  induction Ts with
  | nil => rfl
  | cons T Ts ih => simp [nodesAll, ih]

/-- The types at the root of a tree, and those of its children. -/
theorem types_node (term : Term) (type : Ty) (children : List TypedTerm)
    (bound : List (Text × Ty)) :
    (node term type children bound).types =
      type :: (bound.map Prod.snd ++ children.flatMap types) := by
  rw [types, nodes, nodesAll_eq, List.flatMap_cons, List.flatMap_assoc]
  rfl

/-- Renaming reaches every type in a tree. -/
theorem types_rename (ρ : Int → Int) (T : TypedTerm) :
    (T.rename ρ).types = T.types.map (Ty.rename ρ) := by
  induction T using TypedTerm.induct with
  | node term type children bound ih =>
      have hbound : (bound.map (Prod.map id (Ty.rename ρ))).map Prod.snd =
          (bound.map Prod.snd).map (Ty.rename ρ) := by
        simp [Function.comp_def]
      have hchildren : (children.map (rename ρ)).flatMap types =
          (children.flatMap types).map (Ty.rename ρ) := by
        rw [List.flatMap_map, List.map_flatMap]
        exact List.flatMap_congr ih
      rw [rename_node, types_node, types_node, hbound, hchildren, List.map_cons, List.map_append]

end TypedTerm

namespace Generated

def types (g : Generated TypedTerm) : List Ty :=
  g.trees.types ++ g.equations.flatMap fun e => [e.left, e.right]

/-- Renaming reaches every type in what is generated. -/
theorem types_rename (ρ : Int → Int) (g : Generated TypedTerm) :
    (g.rename ρ).types = g.types.map (Ty.rename ρ) := by
  simp [types, rename, TypedTerm.types_rename, List.flatMap_map, List.map_flatMap, Equation.rename]

/-- A renaming that changes nothing moves no variable that occurs. -/
theorem eq_self_of_rename {ρ : Int → Int} {g : Generated TypedTerm} (h : g.rename ρ = g) {τ : Ty}
    (hτ : τ ∈ g.types) {i : Int} (hi : i ∈ τ.vars) : ρ i = i := by
  have hmap : g.types.map (Ty.rename ρ) = g.types.map id := by rw [← types_rename, h, List.map_id]
  have hself : τ.rename ρ = τ := List.map_inj_left.1 hmap τ hτ
  have hvars : τ.vars.map ρ = τ.vars.map id := by rw [← Ty.vars_rename, hself, List.map_id]
  exact List.map_inj_left.1 hvars i hi

end Generated

namespace Term

variable {Γ : Scope} {t : Term} {s s' : Supply} {g : Generated TypedTerm}

/-- A renaming that moves neither a mentioned variable nor one that is taken changes nothing. -/
theorem rename_eq_self_of_generateFrom (h : t.generateFrom Γ s = (.ok g, s')) {ρ : Int → Int}
    (hmentions : ∀ i, t.Mentions Γ i → ρ i = i) (htaken : ∀ i, s.next ≤ i → i < s'.next → ρ i = i) :
    g.rename ρ = g := by
  have hwalk : (generate Γ t).eval s = (.ok g, s') := h
  have hterm : t.rename ρ = t :=
    (rename_congr fun a ha i hi => hmentions i (Or.inl ⟨a, ha, hi⟩)).trans (rename_id t)
  have hscope : Scope.Renamed ρ Γ Γ := by
    intro x
    cases hx : Γ.lookup x with
    | none => rfl
    | some τ =>
        exact congrArg some (Ty.bind_eq_self
          fun i hi => congrArg Ty.var (hmentions i (Or.inr ⟨x, τ, hx, hi⟩))).symm
  have hshift := (renames_generate (d := 0) t hscope).eval_shift s
  rw [hterm, hwalk, Supply.shift_zero] at hshift
  have hsame := hshift fun i hi hi' => by rw [htaken i hi hi', Int.add_zero]
  rw [hwalk] at hsame
  exact (Except.ok.inj (congrArg Prod.fst hsame)).symm

/-- Every variable that occurs was taken or is mentioned.  No walk is looked into for this: a
renaming that moves only a variable that is neither leaves term and scope as they are, and so leaves
what the walk comes to. -/
theorem taken_or_mentions_of_generateFrom (h : t.generateFrom Γ s = (.ok g, s')) {τ : Ty}
    (hτ : τ ∈ g.types) {i : Int} (hi : i ∈ τ.vars) :
    (s.next ≤ i ∧ i < s'.next) ∨ t.Mentions Γ i := by
  by_contra hother
  rw [not_or] at hother
  have hself : g.rename (Function.update id i (i + 1)) = g := by
    apply rename_eq_self_of_generateFrom h
    · intro j hj
      have hne : j ≠ i := fun heq => hother.2 (heq ▸ hj)
      exact Function.update_of_ne hne _ _
    · intro j hj hj'
      have hne : j ≠ i := fun heq => hother.1 (heq ▸ ⟨hj, hj'⟩)
      exact Function.update_of_ne hne _ _
  have hfixed := Generated.eq_self_of_rename hself hτ hi
  rw [Function.update_self] at hfixed
  omega

/-! ## The account -/

/-- The record lists the variables from `n` on and below `peek`, in order, each with the site that
it was taken for. -/
structure Charged (t : Term) (n peek : Int) (record : List (Site × Int)) : Prop where
  le : n ≤ peek
  ids : record.map Prod.snd = Int.range n peek
  nodup : (record.map Prod.fst).Nodup
  isSite : ∀ e ∈ record, t.IsSite e.1
  atMost : peek - n ≤ t.demand

/-- Nothing is left open: all sites have their variables, and what occurs is accounted for. -/
structure Settled (Γ : Scope) (t : Term) (n peek : Int) (record : List (Site × Int))
    (g : Generated TypedTerm) :
    Prop where
  count : peek - n = t.demand
  all : ∀ σ, t.IsSite σ → σ ∈ record.map Prod.fst
  carries : g.trees.Carries record
  closed : ∀ τ ∈ g.types, ∀ i ∈ τ.vars, (n ≤ i ∧ i < peek) ∨ t.Mentions Γ i
  origins : g.equations.map Equation.origin ~ t.origins

/-- The account of a run over a term that starts with the variable `n`. -/
structure Accounts {ε : Type} (Γ : Scope) (t : Term) (n : Int)
    (run : Except ε (Generated TypedTerm) × Supply) (record : List (Site × Int)) : Prop where
  charged : t.Charged n run.2.next record
  settled : ∀ g, run.1 = .ok g → t.Settled Γ n run.2.next record g

/-- Sites in order get variables in order, from the first one of the supply on. -/
theorem charged_assign {sites : List Site} (h : sites.Sublist t.sites) (s : Supply) :
    t.Charged s.next (s.shift sites.length).next (s.assign sites) where
  le := by simp [Supply.shift]
  ids := s.map_snd_assign sites
  nodup := by
    rw [Supply.map_fst_assign]
    exact h.nodup t.nodup_sites
  isSite := by
    intro e he
    have hmem : e.1 ∈ (s.assign sites).map Prod.fst := List.mem_map_of_mem he
    rw [Supply.map_fst_assign] at hmem
    exact mem_sites_iff.1 (h.subset hmem)
  atMost := by
    have hlen := h.length_le
    rw [length_sites] at hlen
    simp only [Supply.shift]
    omega

/-- Either there is no fault and the walk comes to a tree, or it ends in the first fault. -/
theorem generateFrom_visits (Γ : Scope) (t : Term) (s : Supply) :
    (∃ g, Stop.firstFault? Γ.contains t.itinerary = none ∧
      t.generateFrom Γ s = (.ok g, s.shift t.sites.length) ∧ g.trees.Carries (s.assign t.sites)) ∨
    ∃ e, Stop.firstFault? Γ.contains t.itinerary = some e ∧
      t.generateFrom Γ s = (.error e, s.shift (Stop.reached Γ.contains t.itinerary).length) := by
  have hvisits := visits_generate t Γ
  cases hfault : Stop.firstFault? Γ.contains t.itinerary with
  | none =>
      obtain ⟨g, hg, hcarries⟩ := hvisits.clean hfault s
      rw [Stop.reached_of_clean hfault] at hg hcarries
      exact Or.inl ⟨g, rfl, hg, hcarries⟩
  | some e => exact Or.inr ⟨e, rfl, hvisits.fault hfault s⟩

/-- The supply that is left tells how many sites were reached. -/
theorem generateFrom_supply (Γ : Scope) (t : Term) (s : Supply) :
    (t.generateFrom Γ s).2 = s.shift (Stop.reached Γ.contains t.itinerary).length := by
  rcases generateFrom_visits Γ t s with ⟨g, hclean, hrun, _⟩ | ⟨e, _, hrun⟩
  · rw [hrun, Stop.reached_of_clean hclean]
    rfl
  · rw [hrun]

/-- The walk fails exactly with the first fault of its itinerary. -/
theorem generateFrom_error_iff_firstFault? {e : ScopeFault} :
    (t.generateFrom Γ s).1 = .error e ↔ Stop.firstFault? Γ.contains t.itinerary = some e := by
  rcases generateFrom_visits Γ t s with ⟨g, hclean, hrun, _⟩ | ⟨e', hfault, hrun⟩
  · simp [hclean, hrun]
  · simp [hfault, hrun]

/-- A walk that comes to an end reaches all sites. -/
theorem settled_of_generateFrom (h : t.generateFrom Γ s = (.ok g, s')) :
    t.Settled Γ s.next s'.next (s.assign t.sites) g := by
  obtain ⟨rfl, hcarries⟩ : s' = s.shift t.sites.length ∧ g.trees.Carries (s.assign t.sites) := by
    rcases generateFrom_visits Γ t s with ⟨g', _, hrun, hcarries⟩ | ⟨e, _, hrun⟩
    · cases h.symm.trans hrun
      exact ⟨rfl, hcarries⟩
    · cases h.symm.trans hrun
  constructor
  case count =>
    rw [← length_sites]
    simp only [Supply.shift]
    omega
  case all =>
    intro σ hσ
    rw [Supply.map_fst_assign]
    exact mem_sites_iff.2 hσ
  case carries => exact hcarries
  case closed =>
    intro τ hτ i hi
    exact taken_or_mentions_of_generateFrom h hτ hi
  case origins => exact origins_of_generate t h

/-- An account of the sites that were reached, if those of a run that comes to an end are all there
are. -/
theorem accounts_assign {ε : Type} {run : Except ε (Generated TypedTerm) × Supply}
    {sites : List Site} {n : Int} (hsites : sites.Sublist t.sites)
    (hsupply : run.2 = Supply.shift sites.length ⟨n⟩)
    (hok : ∀ g, run.1 = .ok g → t.generateFrom Γ ⟨n⟩ = (.ok g, run.2)) :
    t.Accounts Γ n run (Supply.assign ⟨n⟩ sites) where
  charged := by
    rw [hsupply]
    exact charged_assign hsites ⟨n⟩
  settled := by
    intro g hg
    have hsettled := settled_of_generateFrom (hok g hg)
    -- As many variables were taken as there are sites, so none of these was left out.
    have hall : sites = t.sites := by
      apply hsites.eq_of_length
      have hcount := hsettled.count
      rw [hsupply, ← length_sites] at hcount
      simp only [Supply.shift] at hcount
      omega
    rw [hall]
    exact hsettled

/-- Variables and equations are accounted for, whether the walk comes to an end or not, and within
the limits too. -/
theorem accounts_generate (Γ : Scope) (t : Term) (n : Int) :
    t.Accounts Γ n (t.generateFrom Γ ⟨n⟩)
      (Supply.assign ⟨n⟩ (Stop.reached Γ.contains t.itinerary)) ∧
    (∀ e, (t.generateFrom Γ ⟨n⟩).1 = .error e ↔ Stop.firstFault? Γ.contains t.itinerary = some e) ∧
    t.Accounts Γ n (t.generateWithin Γ ⟨n⟩)
      (Supply.assign ⟨n⟩ (Stop.reached (Γ.nearest layerLimit).contains t.visible.itinerary)) := by
  refine ⟨?_, fun e => generateFrom_error_iff_firstFault?, ?_⟩
  · apply accounts_assign (Stop.reached_sublist _ _) (generateFrom_supply Γ t ⟨n⟩)
    intro g hg
    exact Prod.ext hg rfl
  · apply accounts_assign ((Stop.reached_sublist _ _).trans t.sites_visible_sublist)
    · rw [generateWithin_supply, generateFrom_supply]
    · intro g hg
      -- A result within the limits is a result without them.
      rcases generateWithin_cases Γ t ⟨n⟩ with ⟨g', s', hwithin, hfrom⟩ | ⟨e, s', hwithin, _⟩ |
        ⟨s', hwithin, _⟩
      · rw [hwithin] at hg ⊢
        cases hg
        exact hfrom
      · rw [hwithin] at hg
        cases hg
      · rw [hwithin] at hg
        cases hg

-- The result of the application is a site too, but the body of the function comes before it and is
-- a fault.
example : let t : Term := .app (.lam [⟨"x", none⟩, ⟨"y", some .int⟩] (.var "z")) [.lit (.int 1)]
    t.demand = 2 ∧ t.generateFrom .empty ⟨7⟩ = (.error (.unbound "z"), ⟨8⟩) := ⟨by decide, rfl⟩

end Term

end Monotype
