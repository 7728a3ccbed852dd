import Monotype.Proofs.Typing.FirstFault
import Monotype.Proofs.Typing.Parallel
import Monotype.Proofs.TypedTerm.Listing

/-!
# Writing inferred types back

The typed tree lists, at every node, the names that the node binds with their types.  A place is a
path to a node, as a list of child numbers, and a position in that list; the parts of a term have
the same numbers as the children of its tree.  `Term.annotate` writes types at places of a term,
wherever nothing is written yet.

Annotations are equalities, so those that stand in the tree of a derivation do not disturb it, and
neither does taking some away: `Term.exchanges_annotations` exchanges what is written on a term, if
the new types stand in the tree.  Both directions between a term and its annotated version are
instances of this.

Main statement: types without variables from the tree that inference answers can be written back at
any set of places, and the principal type keeps its normal form
(`Term.normal_principalType_writeBack`).
-/

namespace Monotype

/-- Types that are written at places: a path to a node, and the position of a name that the node
binds. -/
abbrev Writing := List Nat → Nat → Option Ty

def Writing.below (w : Writing) (k : Nat) : Writing := fun path => w (k :: path)

def Writing.All (Q : Ty → Prop) (w : Writing) : Prop := ∀ path i τ, w path i = some τ → Q τ

theorem Writing.All.below {Q : Ty → Prop} {w : Writing} (h : w.All Q) (k : Nat) :
    (w.below k).All Q :=
  fun path => h (k :: path)

/-! ## Places in a typed tree -/

namespace TypedTerm

/-- The type of the name in a position among those that the node at a path binds. -/
def boundAt? (T : TypedTerm) : Writing :=
  fun path i => (T.at? path).bind fun n => n.bound[i]?.map Prod.snd

/-- The types without variables among those of bound names, at the chosen places. -/
def closedAt? (chosen : List Nat → Nat → Bool) (T : TypedTerm) : Writing :=
  fun path i => if chosen path i then (T.boundAt? path i).filter fun τ => τ.vars.isEmpty else none

def Gives (T : TypedTerm) (w : Writing) : Prop :=
  ∀ path i τ, w path i = some τ → T.boundAt? path i = some τ

/-- A place below a child is looked for in the child. -/
theorem boundAt?_cons {T C : TypedTerm} {k : Nat} (hC : T.children[k]? = some C) (path : List Nat)
    (i : Nat) :
    T.boundAt? (k :: path) i = C.boundAt? path i := by
  simp [boundAt?, at?, hC]

/-- What stands in a tree stands in its children. -/
theorem Gives.below {T C : TypedTerm} {w : Writing} {k : Nat} (h : T.Gives w)
    (hC : T.children[k]? = some C) :
    C.Gives (w.below k) := by
  intro path i τ hτ
  rw [← boundAt?_cons hC]
  exact h (k :: path) i τ hτ

theorem Gives.snd {T : TypedTerm} {w : Writing} {names : List Text} {τs : List Ty} (h : T.Gives w)
    (hbound : T.bound = names.zip τs) : ∀ i τ, w [] i = some τ → τs[i]? = some τ := by
  intro i τ hτ
  have hgiven : ((names.zip τs)[i]?).map Prod.snd = some τ := by
    simpa [boundAt?, at?, hbound] using h [] i τ hτ
  obtain ⟨b, hb, rfl⟩ := Option.map_eq_some_iff.1 hgiven
  exact (List.getElem?_zip_eq_some.1 hb).2

/-- What is written on a binding group stands in the trees of the values and of the body. -/
theorem Gives.values_body {w : Writing} {term : Term} {type : Ty} {Vs : List TypedTerm}
    {B : TypedTerm} {bound : List (Text × Ty)} (h : (node term type (Vs ++ [B]) bound).Gives w) :
    (∀ (i : Nat) (V : TypedTerm), Vs[i]? = some V → V.Gives (w.below (0 + i))) ∧
      B.Gives (w.below Vs.length) := by
  constructor
  · intro i V hV
    rw [Nat.zero_add]
    refine h.below ?_
    rw [children, List.getElem?_append_left (List.getElem?_eq_some_iff.1 hV).1, hV]
  · exact h.below (by simp [children])

/-- A type is written back if its place is chosen and no variable occurs in it. -/
theorem closedAt?_eq_some {chosen : List Nat → Nat → Bool} {T : TypedTerm} {path : List Nat}
    {i : Nat} {τ : Ty} :
    T.closedAt? chosen path i = some τ ↔
      chosen path i = true ∧ T.boundAt? path i = some τ ∧ τ.vars = [] := by
  cases hchosen : chosen path i <;> simp [closedAt?, hchosen, Option.filter_eq_some_iff]

/-- What is written back is read off the tree. -/
theorem gives_closedAt? (chosen : List Nat → Nat → Bool) (T : TypedTerm) :
    T.Gives (T.closedAt? chosen) :=
  fun _ _ _ h => (closedAt?_eq_some.1 h).2.1

/-- Replacing types replaces those of bound names. -/
theorem boundAt?_mapTypes (f : Ty → Ty) (T : TypedTerm) (path : List Nat) (i : Nat) :
    (T.mapTypes f).boundAt? path i = (T.boundAt? path i).map f := by
  induction path generalizing T with
  | nil =>
      rcases T with ⟨term, type, children, bound⟩
      simp [boundAt?, at?, TypedTerm.bound, Function.comp_def]
  | cons k path ih =>
      rcases T with ⟨term, type, children, bound⟩
      cases hC : children[k]? with
      | none => simp [boundAt?, at?, TypedTerm.children, hC]
      | some C =>
          have hC' : (children.map (mapTypes f))[k]? = some (C.mapTypes f) := by simp [hC]
          rw [mapTypes_node, boundAt?_cons (C := C.mapTypes f) hC', boundAt?_cons (C := C) hC, ih]

end TypedTerm

/-! ## Annotating a term -/

def fillDeclared (w : Nat → Option Ty) : Nat → List (Option Ty) → List (Option Ty)
  | _, [] => []
  | i, d :: ds => d.or (w i) :: fillDeclared w (i + 1) ds

/-- An annotation that is there stays; otherwise the given one is taken. -/
theorem getElem?_fillDeclared (w : Nat → Option Ty) (i : Nat) (ds : List (Option Ty)) (k : Nat) :
    (fillDeclared w i ds)[k]? = ds[k]?.map fun d => d.or (w (i + k)) := by
  induction ds generalizing i k with
  | nil => rfl
  | cons d ds ih =>
      cases k with
      | zero => rfl
      | succ k =>
          rw [fillDeclared, List.getElem?_cons_succ, ih, Nat.add_right_comm]
          rfl

/-- Annotations may be exchanged for others, if those are the types in their places. -/
theorem Agrees.refill {w w' : Nat → Option Ty} {ds : List (Option Ty)} {τs : List Ty} {i : Nat}
    (h : Agrees some (fillDeclared w i ds) τs) (hw : ∀ k τ, w' (i + k) = some τ → τs[k]? = some τ) :
    Agrees some (fillDeclared w' i ds) τs := by
  induction ds generalizing i τs with
  | nil => exact h
  | cons d ds ih =>
      cases τs with
      | nil => exact h
      | cons τ τs =>
          refine ⟨?_, ih h.2 fun k τ hk => hw (k + 1) τ (by rwa [Nat.add_right_comm] at hk)⟩
          intro a ha
          cases d with
          -- What stood there before stays, whatever is written.
          | some b => exact h.1 a ha
          | none => exact (hw 0 a (by simpa using ha)).symm

def Param.annotateAll (w : Nat → Option Ty) : Nat → List Param → List Param
  | _, [] => []
  | i, ⟨x, declared⟩ :: ps => ⟨x, declared.or (w i)⟩ :: annotateAll w (i + 1) ps

namespace Term

mutual

/-- The term with annotations at the places for which there is a type, unless one is written there
already. -/
def annotate (w : Writing) : Term → Term
  | .hole => .hole
  | .lit v => .lit v
  | .var x => .var x
  | .cond c t e => .cond (annotate (w.below 0) c) (annotate (w.below 1) t) (annotate (w.below 2) e)
  | .binop op l r => .binop op (annotate (w.below 0) l) (annotate (w.below 1) r)
  | .lam ps b => .lam (Param.annotateAll (w []) 0 ps) (annotate (w.below 0) b)
  | .app f args => .app (annotate (w.below 0) f) (annotateAll w 1 args)
  | .letIn bs b => .letIn (annotateBindings w 0 bs) (annotate (w.below bs.length) b)
  | .letRec bs b => .letRec (annotateBindings w 0 bs) (annotate (w.below bs.length) b)

def annotateAll (w : Writing) : Nat → List Term → List Term
  | _, [] => []
  | k, t :: ts => annotate (w.below k) t :: annotateAll w (k + 1) ts

def annotateBindings (w : Writing) : Nat → List (Binding Term) → List (Binding Term)
  | _, [] => []
  | k, ⟨x, declared, v⟩ :: bs =>
      ⟨x, declared.or (w [] k), annotate (w.below k) v⟩ :: annotateBindings w (k + 1) bs

end

section Lists

variable (w : Writing)

theorem map_name_annotateParams (w : Nat → Option Ty) (i : Nat) (ps : List Param) :
    (Param.annotateAll w i ps).map Param.name = ps.map Param.name := by
  induction ps generalizing i with
  | nil => rfl
  | cons p ps ih => simp [Param.annotateAll, ih]

theorem map_declared_annotateParams (w : Nat → Option Ty) (i : Nat) (ps : List Param) :
    (Param.annotateAll w i ps).map Param.declared = fillDeclared w i (ps.map Param.declared) := by
  induction ps generalizing i with
  | nil => rfl
  | cons p ps ih => simp [Param.annotateAll, fillDeclared, ih]

theorem map_name_annotateBindings (k : Nat) (bs : List (Binding Term)) :
    (annotateBindings w k bs).map Binding.name = bs.map Binding.name := by
  induction bs generalizing k with
  | nil => rfl
  | cons x bs ih => simp [annotateBindings, ih]

/-- The annotations of bindings are filled in, position by position. -/
theorem map_declared_annotateBindings (k : Nat) (bs : List (Binding Term)) :
    (annotateBindings w k bs).map Binding.declared =
      fillDeclared (w []) k (bs.map Binding.declared) := by
  induction bs generalizing k with
  | nil => rfl
  | cons x bs ih => simp [annotateBindings, fillDeclared, ih]

theorem length_annotateBindings (k : Nat) (bs : List (Binding Term)) :
    (annotateBindings w k bs).length = bs.length := by
  induction bs generalizing k with
  | nil => rfl
  | cons x bs ih => simp [annotateBindings, ih]

theorem map_value_annotateBindings (k : Nat) (bs : List (Binding Term)) :
    (annotateBindings w k bs).map Binding.value = annotateAll w k (bs.map Binding.value) := by
  induction bs generalizing k with
  | nil => rfl
  | cons x bs ih => simp [annotateBindings, annotateAll, ih]

theorem getElem?_annotateAll (k : Nat) (ts : List Term) (j : Nat) :
    (annotateAll w k ts)[j]? = ts[j]?.map (annotate (w.below (k + j))) := by
  induction ts generalizing k j with
  | nil => rfl
  | cons t ts ih =>
      cases j with
      | zero => rfl
      | succ j =>
          rw [annotateAll, List.getElem?_cons_succ, ih, Nat.add_right_comm]
          rfl

end Lists

/-! ## What is written where -/

def ownDeclared : Term → List (Option Ty)
  | .lam ps _ => ps.map Param.declared
  | .letIn bs _ => bs.map Binding.declared
  | .letRec bs _ => bs.map Binding.declared
  | _ => []

/-- The annotation at a place, if there is such a place. -/
def declaredAt? : Term → List Nat → Nat → Option (Option Ty)
  | t, [], i => t.ownDeclared[i]?
  | t, k :: path, i => t.parts[k]?.bind fun part => part.2.declaredAt? path i

/-- The annotations at the root are filled in. -/
theorem ownDeclared_annotate (w : Writing) (t : Term) :
    (t.annotate w).ownDeclared = fillDeclared (w []) 0 t.ownDeclared := by
  cases t with
  | lam ps b => exact map_declared_annotateParams (w []) 0 ps
  | letIn bs b => exact map_declared_annotateBindings w 0 bs
  | letRec bs b => exact map_declared_annotateBindings w 0 bs
  | _ => rfl

/-- The parts of bindings, whatever names are bound over the values. -/
theorem getElem?_parts_bindings (w : Writing) (bs : List (Binding Term)) (b : Term)
    (outer inner : List Text) (k : Nat) :
    ((annotateBindings w 0 bs).map (fun x => (outer, x.value)) ++
        [(inner, b.annotate (w.below bs.length))])[k]? =
      (bs.map (fun x => (outer, x.value)) ++ [(inner, b)])[k]?.map
        fun part => (part.1, part.2.annotate (w.below k)) := by
  have hvalue : (annotateBindings w 0 bs)[k]?.map Binding.value =
      (bs[k]?.map Binding.value).map (annotate (w.below k)) := by
    rw [← List.getElem?_map, map_value_annotateBindings, getElem?_annotateAll, List.getElem?_map,
      Nat.zero_add]
  -- The part is a value, the body, or beyond the last one.
  rcases Nat.lt_trichotomy k bs.length with hk | rfl | hk
  · have hpart := congrArg (Option.map fun v => (outer, v)) hvalue
    rw [List.getElem?_append_left (by simpa [length_annotateBindings] using hk),
      List.getElem?_append_left (by simpa using hk)]
    simpa [Function.comp_def] using hpart
  · simp [length_annotateBindings]
  · simp [length_annotateBindings, hk]

/-- Annotating goes down into the parts. -/
theorem getElem?_parts_annotate (w : Writing) (t : Term) (k : Nat) :
    (t.annotate w).parts[k]? = t.parts[k]?.map
      fun part => (part.1, part.2.annotate (w.below k)) := by
  cases t with
  | hole => rfl
  | lit v => rfl
  | var x => rfl
  | cond c t e => rcases k with _ | _ | _ | k <;> rfl
  | binop op l r => rcases k with _ | _ | k <;> rfl
  | lam ps b =>
      rw [annotate, parts, map_name_annotateParams]
      cases k <;> rfl
  | app f args =>
      cases k with
      | zero => rfl
      | succ k => simp [annotate, parts, getElem?_annotateAll, Function.comp_def, Nat.add_comm]
  | letIn bs b =>
      rw [annotate, parts, map_name_annotateBindings]
      exact getElem?_parts_bindings w bs b [] _ k
  | letRec bs b =>
      rw [annotate, parts, map_name_annotateBindings]
      exact getElem?_parts_bindings w bs b _ _ k

/-- At every place stands what stood there, and otherwise what is written. -/
theorem declaredAt?_annotate (w : Writing) (t : Term) (path : List Nat) (i : Nat) :
    (t.annotate w).declaredAt? path i = (t.declaredAt? path i).map
      fun declared => declared.or (w path i) := by
  induction path generalizing t w with
  | nil => rw [declaredAt?, ownDeclared_annotate, getElem?_fillDeclared, Nat.zero_add, declaredAt?]
  | cons k path ih =>
      rw [declaredAt?, getElem?_parts_annotate, declaredAt?]
      cases t.parts[k]? with
      | none => rfl
      | some part => exact ih (w.below k) part.2

/-! ## Nothing written, and what all annotations have in common -/

def nothing : Writing := fun _ _ => none

theorem annotateAll_nothing {ts : List Term} (hts : ∀ t ∈ ts, t.annotate nothing = t) (k : Nat) :
    annotateAll nothing k ts = ts := by
  apply List.ext_getElem?
  intro j
  rw [getElem?_annotateAll]
  cases ht : ts[j]? with
  | none => rfl
  | some t => exact congrArg some (hts t (List.mem_of_getElem? ht))

theorem annotateBindings_nothing {bs : List (Binding Term)}
    (hbs : ∀ x ∈ bs, x.value.annotate nothing = x.value) (k : Nat) :
    annotateBindings nothing k bs = bs := by
  induction bs generalizing k with
  | nil => rfl
  | cons x bs ih =>
      have hx : x.value.annotate (nothing.below k) = x.value := hbs x List.mem_cons_self
      rw [annotateBindings, hx, ih fun y hy => hbs y (List.mem_cons_of_mem _ hy), nothing,
        Option.or_none]

/-- Where nothing is written, nothing changes. -/
theorem annotate_nothing (t : Term) : t.annotate nothing = t := by
  have hbelow : ∀ k, nothing.below k = nothing := fun _ => rfl
  induction t using Term.induct with
  | hole => rfl
  | lit v => rfl
  | var x => rfl
  | cond c t e ihc iht ihe => simp only [annotate, hbelow, ihc, iht, ihe]
  | binop op l r ihl ihr => simp only [annotate, hbelow, ihl, ihr]
  | lam ps b ihb =>
      have hps : ∀ i, Param.annotateAll (nothing []) i ps = ps := by
        induction ps with
        | nil => exact fun _ => rfl
        | cons p ps ih => simp [Param.annotateAll, ih, nothing]
      rw [annotate, hps, hbelow, ihb]
  | app f args ihf ihargs => rw [annotate, hbelow, ihf, annotateAll_nothing ihargs]
  | letIn bs b ihbs ihb => rw [annotate, hbelow, ihb, annotateBindings_nothing ihbs]
  | letRec bs b ihbs ihb => rw [annotate, hbelow, ihb, annotateBindings_nothing ihbs]

section Annotated

variable {Q : Ty → Prop} {w : Writing}

/-- Annotations that are filled in are good if the given ones are. -/
theorem forall_mem_fillDeclared {w : Nat → Option Ty} (hw : ∀ i τ, w i = some τ → Q τ)
    {ds : List (Option Ty)} (hds : ∀ a, some a ∈ ds → Q a) (i : Nat) :
    ∀ a, some a ∈ fillDeclared w i ds → Q a := by
  intro a ha
  obtain ⟨k, hk⟩ := List.mem_iff_getElem?.1 ha
  rw [getElem?_fillDeclared] at hk
  obtain ⟨d, hd, hor⟩ := Option.map_eq_some_iff.1 hk
  rcases Option.or_eq_some_iff.1 hor with rfl | ⟨-, hwritten⟩
  · exact hds a (List.mem_of_getElem? hd)
  · exact hw (i + k) a hwritten

theorem forall_mem_annotateAll {ts : List Term}
    (hts : ∀ t ∈ ts, ∀ k, (t.annotate (w.below k)).Annotated Q) (k : Nat) :
    ∀ t ∈ annotateAll w k ts, t.Annotated Q := by
  intro t' ht'
  obtain ⟨j, hj⟩ := List.mem_iff_getElem?.1 ht'
  rw [getElem?_annotateAll] at hj
  obtain ⟨t, ht, rfl⟩ := Option.map_eq_some_iff.1 hj
  exact hts t (List.mem_of_getElem? ht) (k + j)

theorem forall_mem_annotateBindings (hw : w.All Q) {bs : List (Binding Term)}
    (hvalues : ∀ x ∈ bs, ∀ k, (x.value.annotate (w.below k)).Annotated Q)
    (hdeclared : ∀ a, some a ∈ bs.map Binding.declared → Q a) (k : Nat) :
    (∀ x ∈ annotateBindings w k bs, x.value.Annotated Q) ∧
      ∀ a, some a ∈ (annotateBindings w k bs).map Binding.declared → Q a := by
  constructor
  · have hall := forall_mem_annotateAll (List.forall_mem_map.2 hvalues) k
    rw [← map_value_annotateBindings] at hall
    exact List.forall_mem_map.1 hall
  · rw [map_declared_annotateBindings]
    exact forall_mem_fillDeclared (hw []) hdeclared k

/-- A property that all annotations have, before and among those that are added, is one that they
have after. -/
theorem annotated_annotate {t : Term} (ht : t.Annotated Q) (hw : w.All Q) :
    (t.annotate w).Annotated Q := by
  -- What is written into a part is what is written below its number.
  induction t using Term.induct generalizing w with
  | hole => exact ht
  | lit v => exact ht
  | var x => exact ht
  | cond c t e ihc iht ihe =>
      obtain ⟨hc, ht, he⟩ := annotated_cond.1 ht
      exact annotated_cond.2 ⟨ihc hc (hw.below 0), iht ht (hw.below 1), ihe he (hw.below 2)⟩
  | binop op l r ihl ihr =>
      obtain ⟨hl, hr⟩ := annotated_binop.1 ht
      exact annotated_binop.2 ⟨ihl hl (hw.below 0), ihr hr (hw.below 1)⟩
  | lam ps b ihb =>
      obtain ⟨hps, hb⟩ := annotated_lam.1 ht
      refine annotated_lam.2 ⟨?_, ihb hb (hw.below 0)⟩
      rw [map_declared_annotateParams]
      exact forall_mem_fillDeclared (hw []) hps 0
  | app f args ihf ihargs =>
      obtain ⟨hf, hargs⟩ := annotated_app.1 ht
      have hargs' := forall_mem_annotateAll (fun a ha k => ihargs a ha (hargs a ha) (hw.below k)) 1
      exact annotated_app.2 ⟨ihf hf (hw.below 0), hargs'⟩
  | letIn bs b ihbs ihb =>
      obtain ⟨hvalues, hdeclared, hb⟩ := annotated_letIn.1 ht
      obtain ⟨hvalues', hdeclared'⟩ := forall_mem_annotateBindings hw
        (fun x hx k => ihbs x hx (hvalues x hx) (hw.below k)) hdeclared 0
      exact annotated_letIn.2 ⟨hvalues', hdeclared', ihb hb (hw.below _)⟩
  | letRec bs b ihbs ihb =>
      obtain ⟨hvalues, hdeclared, hb⟩ := annotated_letRec.1 ht
      obtain ⟨hvalues', hdeclared'⟩ := forall_mem_annotateBindings hw
        (fun x hx k => ihbs x hx (hvalues x hx) (hw.below k)) hdeclared 0
      exact annotated_letRec.2 ⟨hvalues', hdeclared', ihb hb (hw.below _)⟩

end Annotated

/-! ## Exchanging annotations in a derivation -/

/-- In a derivation of the term with some annotations, these can be exchanged for others that stand
in its tree. -/
def Exchanges (t : Term) : Prop :=
  ∀ {Δ : Context} {w w' : Writing} {T : TypedTerm}, Derives some Δ (t.annotate w) T → T.Gives w' →
    ∃ T', Derives some Δ (t.annotate w') T' ∧ T'.type = T.type

/-- Annotations can be exchanged in the derivations of a list of terms. -/
theorem exchanges_annotateAll {ts : List Term} (hts : ∀ t ∈ ts, Exchanges t) {Δ : Context}
    {w w' : Writing} {k : Nat} {Ts : List TypedTerm} (h : DerivesAll some Δ (annotateAll w k ts) Ts)
    (hw : ∀ (i : Nat) (T : TypedTerm), Ts[i]? = some T → T.Gives (w'.below (k + i))) :
    ∃ Ts', DerivesAll some Δ (annotateAll w' k ts) Ts' ∧
      Ts'.map TypedTerm.type = Ts.map TypedTerm.type := by
  induction ts generalizing k Ts with
  | nil => exact ⟨Ts, h, rfl⟩
  | cons t ts ih =>
      rw [annotateAll] at h
      cases h with
      | cons head tail =>
          obtain ⟨T', hT', htype⟩ := hts t List.mem_cons_self head (hw 0 _ rfl)
          obtain ⟨Ts', hTs', htypes⟩ := ih (fun u hu => hts u (List.mem_cons_of_mem _ hu)) tail (by
            intro i T hT
            rw [Nat.add_right_comm]
            exact hw (i + 1) T hT)
          exact ⟨T' :: Ts', .cons hT' hTs', by rw [List.map_cons, List.map_cons, htype, htypes]⟩

/-- Annotations can be exchanged in the derivations of bindings. -/
theorem exchanges_annotateBindings {bs : List (Binding Term)} (hbs : ∀ x ∈ bs, Exchanges x.value)
    {Δ : Context} {w w' : Writing} {term : Term} {type : Ty} {Vs : List TypedTerm} {B : TypedTerm}
    {names : List Text}
    (hvalues : DerivesAll some Δ ((annotateBindings w 0 bs).map Binding.value) Vs)
    (hdeclared : Agrees some ((annotateBindings w 0 bs).map Binding.declared)
      (Vs.map TypedTerm.type))
    (hw : (TypedTerm.node term type (Vs ++ [B]) (names.zip (Vs.map TypedTerm.type))).Gives w') :
    ∃ Vs', DerivesAll some Δ ((annotateBindings w' 0 bs).map Binding.value) Vs' ∧
      Vs'.map TypedTerm.type = Vs.map TypedTerm.type ∧
      Agrees some ((annotateBindings w' 0 bs).map Binding.declared) (Vs'.map TypedTerm.type) ∧
      B.Gives (w'.below bs.length) := by
  obtain ⟨hwvalues, hwbody⟩ := hw.values_body
  rw [← hvalues.length_eq, List.length_map, length_annotateBindings] at hwbody
  rw [map_value_annotateBindings] at hvalues
  obtain ⟨Vs', hVs', htypes⟩ := exchanges_annotateAll (List.forall_mem_map.2 hbs) hvalues hwvalues
  rw [map_declared_annotateBindings] at hdeclared
  have hdeclared' := hdeclared.refill fun i τ hτ => hw.snd rfl i τ (by rwa [Nat.zero_add] at hτ)
  refine ⟨Vs', ?_, htypes, ?_, hwbody⟩
  · rwa [map_value_annotateBindings]
  · rwa [map_declared_annotateBindings, htypes]

/-- Annotations can be exchanged in every derivation. -/
theorem exchanges_annotations (t : Term) : Exchanges t := by
  -- The types of all parts stay what they are, so every binder extends the context as before.
  induction t using Term.induct with
  | hole =>
      intro Δ w w' T h _
      cases h
  | lit v =>
      intro Δ w w' T h _
      exact ⟨T, h, rfl⟩
  | var x =>
      intro Δ w w' T h _
      exact ⟨T, h, rfl⟩
  | cond c t e ihc iht ihe =>
      intro Δ w w' T h hw
      cases h with
      | cond hc ht he htest hbranches =>
          obtain ⟨C', hC', hctype⟩ := ihc hc (hw.below (k := 0) rfl)
          obtain ⟨T', hT', httype⟩ := iht ht (hw.below (k := 1) rfl)
          obtain ⟨E', hE', hetype⟩ := ihe he (hw.below (k := 2) rfl)
          exact ⟨_, .cond hC' hT' hE' (hctype.trans htest) (by rw [hetype, httype, hbranches]),
            httype⟩
  | binop op l r ihl ihr =>
      intro Δ w w' T h hw
      cases h with
      | operator hop hl hr hleft hright =>
          obtain ⟨L', hL', hltype⟩ := ihl hl (hw.below (k := 0) rfl)
          obtain ⟨R', hR', hrtype⟩ := ihr hr (hw.below (k := 1) rfl)
          exact ⟨_, .operator hop hL' hR' (hltype.trans hleft) (hrtype.trans hright), rfl⟩
      | equality hop hl hr hoperands =>
          obtain ⟨L', hL', hltype⟩ := ihl hl (hw.below (k := 0) rfl)
          obtain ⟨R', hR', hrtype⟩ := ihr hr (hw.below (k := 1) rfl)
          exact ⟨_, .equality hop hL' hR' (by rw [hltype, hrtype, hoperands]), rfl⟩
  | lam ps b ihb =>
      intro Δ w w' T h hw
      rw [annotate] at h
      cases h with
      | lam hdeclared hb =>
          obtain ⟨B', hB', hbtype⟩ := ihb hb (hw.below (k := 0) rfl)
          rw [map_declared_annotateParams] at hdeclared
          have hdeclared' :=
            hdeclared.refill fun i τ hτ => hw.snd rfl i τ (by rwa [Nat.zero_add] at hτ)
          rw [map_name_annotateParams, ← map_name_annotateParams (w' [])] at hB'
          rw [← map_declared_annotateParams] at hdeclared'
          exact ⟨_, .lam hdeclared' hB', congrArg (Ty.fn _) hbtype⟩
  | app f args ihf ihargs =>
      intro Δ w w' T h hw
      rw [annotate] at h
      cases h with
      | app hf hargs hfunction =>
          obtain ⟨F', hF', hftype⟩ := ihf hf (hw.below (k := 0) rfl)
          obtain ⟨As', hAs', hatypes⟩ := exchanges_annotateAll ihargs hargs fun i A hA =>
            hw.below (by rw [Nat.add_comm]; exact hA)
          exact ⟨_, .app hF' hAs' (by rw [hftype, hatypes, hfunction]), rfl⟩
  | letIn bs b ihbs ihb =>
      intro Δ w w' T h hw
      rw [annotate] at h
      cases h with
      | letIn hvalues hdeclared hb =>
          obtain ⟨Vs', hVs', htypes, hdeclared', hwbody⟩ :=
            exchanges_annotateBindings ihbs hvalues hdeclared hw
          obtain ⟨B', hB', hbtype⟩ := ihb hb hwbody
          rw [map_name_annotateBindings, ← map_name_annotateBindings w' 0, ← htypes] at hB'
          exact ⟨_, .letIn hVs' hdeclared' hB', hbtype⟩
  | letRec bs b ihbs ihb =>
      intro Δ w w' T h hw
      rw [annotate] at h
      cases h with
      | letRec hvalues hdeclared hb =>
          obtain ⟨Vs', hVs', htypes, hdeclared', hwbody⟩ :=
            exchanges_annotateBindings ihbs hvalues hdeclared hw
          obtain ⟨B', hB', hbtype⟩ := ihb hb hwbody
          -- The values see the names with their types too.
          rw [map_name_annotateBindings, ← map_name_annotateBindings w' 0, ← htypes] at hVs' hB'
          exact ⟨_, .letRec hVs' hdeclared' hB', hbtype⟩

section HasType

variable {Γ : Scope} {t : Term} {w : Writing}

/-- Without its annotations a term keeps all its types. -/
theorem hasType_of_annotate {τ : Ty} (h : (t.annotate w).HasType Γ τ) : t.HasType Γ τ := by
  obtain ⟨T, hT, rfl⟩ := h
  have hnothing : T.Gives nothing := by
    intro path i τ hτ
    cases hτ
  obtain ⟨T', hT', htype⟩ := exchanges_annotations t hT hnothing
  rw [annotate_nothing] at hT'
  exact ⟨T', hT', htype⟩

/-- A term has the type of its derivation also with annotations that stand in the tree. -/
theorem hasType_annotate {T : TypedTerm} (h : Derives some Γ.lookup t T) (hw : T.Gives w) :
    (t.annotate w).HasType Γ T.type := by
  rw [← annotate_nothing t] at h
  exact exchanges_annotations t h hw

end HasType

/-! ## The types of bound names are known -/

def SameKnown (a b : Ty) : Prop := a.Known ∧ a = b

/-- Being the same known type goes through function types. -/
theorem congruence_sameKnown : Ty.Congruence SameKnown where
  const := fun c => ⟨.const c, rfl⟩
  fn := by
    intro ps qs r s hps hr
    obtain ⟨hknown, hsame⟩ := (List.forall₂_and_left ps qs).1 hps
    exact ⟨.fn hknown hr.1, Ty.congruence_eq.fn hsame hr.2⟩

/-- Trees with the same known types have known types at all places. -/
theorem known_boundAt?_of_alike {T T' : TypedTerm} (h : TypedTerm.Alike SameKnown T T') :
    T.boundAt?.All Ty.Known := by
  intro path i τ hτ
  induction path generalizing T T' with
  | nil =>
      cases h with
      | node _ _ _ hbound =>
          obtain ⟨hknown, -⟩ := (List.forall₂_and_left _ _).1 hbound
          obtain ⟨b, hb, rfl⟩ := Option.map_eq_some_iff.1 hτ
          exact hknown b.2 (List.mem_map_of_mem (List.mem_of_getElem? hb))
  | cons k path ih =>
      cases h with
      | node _ _ hchildren _ =>
          obtain ⟨n, hn, -⟩ := Option.bind_eq_some_iff.1 hτ
          obtain ⟨C, hC, -⟩ := Option.bind_eq_some_iff.1 hn
          rw [TypedTerm.boundAt?_cons hC] at hτ
          obtain ⟨hk, rfl⟩ := List.getElem?_eq_some_iff.1 hC
          obtain ⟨hlen, halike⟩ := List.forall₂_iff_get.1 hchildren
          exact ih (halike k hk (hlen ▸ hk)) hτ

section Known

variable {Γ : Scope} {t : Term}

/-- In a known scope, the walk over a term with known annotations gives known types to all bound
names. -/
theorem known_boundAt?_of_generate (hΓ : Γ.All Ty.Known) (ht : t.Annotated Ty.Known) {s s' : Supply}
    {g : Generated TypedTerm} (h : (generate Γ t).eval s = (.ok g, s')) :
    g.trees.boundAt?.All Ty.Known := by
  have hscope : Scope.Parallel SameKnown Eq Γ Γ := by
    rintro x _ rfl
    refine ⟨?_, fun _ => rfl⟩
    cases hx : Γ.lookup x with
    | none => exact .none
    | some τ => exact .some ⟨hΓ x τ hx, rfl⟩
  -- The walk runs beside itself, and the relation holds of known types only.
  have hwalks : WalksParallel SameKnown 0 Γ Γ t t :=
    parallel_generate congruence_sameKnown (alpha_rfl (fun _ => rfl) t)
      (fun a ha => ⟨ht a ha, rfl⟩) hscope
  have hsupply : s.Ahead SameKnown 0 := fun i _ => ⟨.var i, by rw [Int.add_zero]⟩
  obtain ⟨-, g', -, halike⟩ := hwalks.ok hsupply h
  exact known_boundAt?_of_alike halike.trees

end Known

/-! ## Main statement -/

section Answer

variable {Γ : Scope} {t : Term} {r : Inference}

/-- What inference finds out has the principal type, with or without limits. -/
theorem principalType_of_infer_or_check (h : t.infer Γ = .ok r ∨ (t.check Γ).2 = .ok r) :
    t.principalType Γ = .ok r.type := by
  obtain ⟨g, s, hfrom, hsolve, htree, htype⟩ := exists_solve_of_infer_or_check h
  rw [principalType_of_solve hfrom hsolve, htype, htree, TypedTerm.type_mapTypes]

/-- The tree that is found is a derivation. -/
theorem derives_of_infer_or_check (hΓ : Γ.All Ty.Ground) (ht : t.Annotated Ty.Ground)
    (h : t.infer Γ = .ok r ∨ (t.check Γ).2 = .ok r) : Derives some Γ.lookup t r.tree := by
  obtain ⟨g, s, hfrom, hsolve, htree, -⟩ := exists_solve_of_infer_or_check h
  have hderives := derives_of_generate r.solution.assign t hfrom (holds_of_solve hsolve)
  rw [context_of_ground hΓ, ← htree] at hderives
  exact hderives.congr fun a ha => congrArg some ((ht a ha).bind _)

/-- Whatever stands in the tree of an answer is known, so that without variables it is ground. -/
theorem ground_closedAt? (hΓ : Γ.All Ty.Ground) (ht : t.Annotated Ty.Ground)
    (h : t.infer Γ = .ok r ∨ (t.check Γ).2 = .ok r) (chosen : List Nat → Nat → Bool) :
    (r.tree.closedAt? chosen).All Ty.Ground := by
  have hΓknown : Γ.All Ty.Known := fun x τ hx => (hΓ x τ hx).1
  have htknown : t.Annotated Ty.Known := fun a ha => (ht a ha).1
  obtain ⟨g, s, hfrom, hsolve, htree, -⟩ := exists_solve_of_infer_or_check h
  have hequations := (known_of_generate htknown hΓknown hfrom).1
  have hsolution : r.solution.Known :=
    known_of_solveFrom Subst.resolved_empty Subst.known_empty hequations hsolve
  intro path i τ hτ
  obtain ⟨-, hbound, hvars⟩ := TypedTerm.closedAt?_eq_some.1 hτ
  rw [htree, TypedTerm.boundAt?_mapTypes] at hbound
  obtain ⟨ρ, hρ, rfl⟩ := Option.map_eq_some_iff.1 hbound
  exact ⟨hsolution.bind_assign (known_boundAt?_of_generate hΓknown htknown hfrom path i ρ hρ),
    hvars⟩

end Answer

/-- The term with the types without variables that stand in a tree, at the chosen places. -/
def writeBack (T : TypedTerm) (chosen : List Nat → Nat → Bool) (t : Term) : Term :=
  t.annotate (T.closedAt? chosen)

/-- Types without variables from the tree of an answer can be written back on the term, at any set
of places where nothing is written: it stays well typed, and its principal type keeps its normal
form. -/
theorem normal_principalType_writeBack (Γ : Scope) (t : Term) (r : Inference)
    (chosen : List Nat → Nat → Bool) (hΓ : Γ.All Ty.Ground) (ht : t.Annotated Ty.Ground)
    (h : t.infer Γ = .ok r ∨ (t.check Γ).2 = .ok r) :
    t.principalType Γ = .ok r.type ∧
      (∀ path i, (t.writeBack r.tree chosen).declaredAt? path i =
        (t.declaredAt? path i).map fun declared => declared.or (r.tree.closedAt? chosen path i)) ∧
      ∃ T, (t.writeBack r.tree chosen).principalType Γ = .ok T ∧ T.normal = r.type.normal ∧
        ((t.writeBack r.tree chosen).checkType Γ = .ok T ∨
          (t.writeBack r.tree chosen).Refused Γ) := by
  have hprincipal := principalType_of_infer_or_check h
  obtain ⟨_, _, _, _, _, hroot⟩ := exists_solve_of_infer_or_check h
  have ht' : (t.writeBack r.tree chosen).Annotated Ty.Ground :=
    annotated_annotate ht (ground_closedAt? hΓ ht h chosen)
  -- The tree is a derivation of the new term too, so the old principal type is an instance of the
  -- new one.
  have hold : (t.writeBack r.tree chosen).HasType Γ r.type := by
    rw [hroot]
    exact hasType_annotate (derives_of_infer_or_check hΓ ht h) (r.tree.gives_closedAt? chosen)
  obtain ⟨T, hT, f, hf⟩ := exists_principalType_of_hasType hΓ ht' hold
  -- Without the annotations the new principal type is still a type of the term, hence an instance
  -- of the old one.
  have hnew : t.HasType Γ T := hasType_of_annotate (hasType_of_principalType hΓ ht' hT)
  obtain ⟨T₀, hT₀, g, hg⟩ := exists_principalType_of_hasType hΓ ht hnew
  cases hprincipal.symm.trans hT₀
  refine ⟨hprincipal, declaredAt?_annotate _ t, T, hT, Ty.normal_eq_of_instances hf hg, ?_⟩
  rw [← hT]
  exact checkType_eq_principalType Γ _

/-- A search for a bound above its argument, with the annotations as given for `x`, `y` and `f`:
`fun x -> let y = x + 1 in letrec f = fun n -> if n == y then y else f n in fun z -> f x`. -/
def searchWith (x y f : Option Ty) : Term :=
  .lam [⟨"x", x⟩] (.letIn [⟨"y", y, .binop (.arithmetic .int .add) (.var "x") (.lit (.int 1))⟩]
    (.letRec [⟨"f", f, .lam [⟨"n", none⟩]
        (.cond (.binop .equal (.var "n") (.var "y")) (.var "y") (.app (.var "f") [.var "n"]))⟩]
      (.lam [⟨"z", none⟩] (.app (.var "f") [.var "x"]))))

/-- All places but the parameter `n`. -/
def exceptInner (path : List Nat) (_ : Nat) : Bool := path != [0, 1, 0]

/-- Of a search function, all annotations but the one that is left out are written back. -/
theorem normal_principalType_writeBack_search :
    Scope.empty.All Ty.Ground ∧ (searchWith none none none).Annotated Ty.Ground ∧
      ∃ r, (searchWith none none none).infer .empty = .ok r ∧
        (searchWith none none none).writeBack r.tree exceptInner =
          searchWith (some .int) (some .int) (some (.fn [.int] .int)) ∧
        ∃ T, (searchWith (some .int) (some .int) (some (.fn [.int] .int))).principalType .empty =
          .ok T ∧
          T.normal = r.type.normal := by
  have hΓ : Scope.empty.All Ty.Ground := Scope.all_empty
  have ht : (searchWith none none none).Annotated Ty.Ground := by
    simp only [Annotated]
    decide
  let σ : Subst := ⟨[(0, .int), (2, .int), (1, .fn [.int] .int), (3, .int), (5, .int)], by decide⟩
  obtain ⟨g, s, hfrom, hsides, hx, hy, hf, hz⟩ : ∃ g s,
      (searchWith none none none).generateFrom .empty .initial = (.ok g, s) ∧
        g.equations.map (fun e => (e.left, e.right)) =
          [(.var 0, .int), (.int, .int), (.var 2, .int), (.var 1, .fn [.var 2] (.var 3)),
            (.bool, .bool), (.int, .var 3), (.var 1, .fn [.var 2] .int),
            (.var 1, .fn [.var 0] (.var 5))] ∧
        g.trees.boundAt? [] 0 = some (.var 0) ∧ g.trees.boundAt? [0] 0 = some .int ∧
        g.trees.boundAt? [0, 1] 0 = some (.var 1) ∧ g.trees.boundAt? [0, 1, 1] 0 = some (.var 4) :=
    ⟨_, _, rfl, rfl, rfl, rfl, rfl, rfl⟩
  have hsolve : (solve none g.equations).outcome = .ok σ := solveFrom_ok_of_sides hsides (by cbv)
  have hwritten :
      (searchWith none none none).writeBack (g.trees.mapTypes (Ty.bind σ.assign)) exceptInner =
        searchWith (some .int) (some .int) (some (.fn [.int] .int)) := by
    have hσx : σ.assign 0 = .int := rfl
    have hσf : σ.assign 1 = .fn [.int] .int := rfl
    have hσz : σ.assign 4 = .var 4 := rfl
    simp [writeBack, searchWith, annotate, annotateBindings, annotateAll, Param.annotateAll,
      Writing.below, TypedTerm.closedAt?, TypedTerm.boundAt?_mapTypes, exceptInner, hx, hy, hf, hz,
      hσx, hσf, hσz, Ty.int]
  obtain ⟨r, hr⟩ := Generated.exists_infer_of_solve hsolve
  have hinfer : (searchWith none none none).infer .empty = .ok r := by
    simpa only [infer, inferTraced, hfrom] using hr
  obtain ⟨g', s', hfrom', hsolve', htree, -⟩ := exists_solve_of_infer_or_check (Or.inl hinfer)
  cases hfrom.symm.trans hfrom'
  have hσ : σ = r.solution := Except.ok.inj (hsolve.symm.trans hsolve')
  rw [hσ, ← htree] at hwritten
  obtain ⟨-, -, T, hT, hnormal, -⟩ :=
    normal_principalType_writeBack .empty (searchWith none none none) r exceptInner hΓ ht
      (Or.inl hinfer)
  rw [hwritten] at hT
  exact ⟨hΓ, ht, r, hinfer, hwritten, T, hT, hnormal⟩

end Term

end Monotype
