import Mathlib.Data.List.Forall2
import Monotype.Proofs.Typing.Limits

/-!
# Names that are bound

Two terms are α-equivalent if they differ in the names that they bind only.  `Alpha S t t'` says
this of terms under binders: `S` tells which names of the one stand for which names of the other.  A
binder changes that relation for the names that it binds (`Under`); they correspond by their places,
and of a repeated name the last place counts.  At the top, where nothing is bound, `S` is equality.

* Only the names that occur free matter for the relation (`Alpha.congr`).
* Every term is α-equivalent to itself (`alpha_rfl`).
* What is visible of α-equivalent terms is α-equivalent (`Alpha.visible`).
-/

namespace Monotype

namespace Term

/-! ## Free names -/

mutual

def freeNames : Term → List Text
  | .hole => []
  | .lit _ => []
  | .var x => [x]
  | .cond c t e => freeNames c ++ freeNames t ++ freeNames e
  | .binop _ l r => freeNames l ++ freeNames r
  | .lam ps b => (freeNames b).filter (· ∉ ps.map Param.name)
  | .app f args => freeNames f ++ freeNamesAll args
  | .letIn bs b => freeNamesBindings bs ++ (freeNames b).filter (· ∉ bs.map Binding.name)
  | .letRec bs b => (freeNamesBindings bs ++ freeNames b).filter (· ∉ bs.map Binding.name)

def freeNamesAll : List Term → List Text
  | [] => []
  | t :: ts => freeNames t ++ freeNamesAll ts

def freeNamesBindings : List (Binding Term) → List Text
  | [] => []
  | ⟨_, _, v⟩ :: bs => freeNames v ++ freeNamesBindings bs

end

theorem mem_freeNamesAll {ts : List Term} {t : Term} (ht : t ∈ ts) {x : Text}
    (hx : x ∈ t.freeNames) :
    x ∈ freeNamesAll ts := by
  induction ts with
  | nil => cases ht
  | cons u ts ih =>
      rcases List.mem_cons.1 ht with rfl | ht
      · exact List.mem_append_left _ hx
      · exact List.mem_append_right _ (ih ht)

theorem freeNamesBindings_eq (bs : List (Binding Term)) :
    freeNamesBindings bs = freeNamesAll (bs.map Binding.value) := by
  induction bs with
  | nil => rfl
  | cons x bs ih => simp [freeNamesBindings, freeNamesAll, ih]

end Term

/-! ## Corresponding names -/

/-- Names correspond under a binder if they stand for the same of its places, of a repeated name the
last one, or if neither is bound by it and they correspond outside. -/
def Under (S : Text → Text → Prop) (xs ys : List Text) (x y : Text) : Prop :=
  xs.reverse.idxOf? x = ys.reverse.idxOf? y ∧ (x ∉ xs → S x y)

/-- What corresponds under a binder depends on names that it does not bind. -/
theorem Under.imp {S S' : Text → Text → Prop} {xs ys : List Text} {x y : Text}
    (h : Under S xs ys x y) (himp : x ∉ xs → S x y → S' x y) : Under S' xs ys x y :=
  ⟨h.1, fun hx => himp hx (h.2 hx)⟩

/-- Under one binder every name that it binds corresponds to itself. -/
theorem under_self {S : Text → Text → Prop} {xs : List Text} {x : Text} (h : x ∉ xs → S x x) :
    Under S xs xs x x :=
  ⟨rfl, h⟩

namespace Term

/-- The terms differ in the names that they bind only, and free names of the one stand for names of
the other as the relation tells. -/
inductive Alpha : (Text → Text → Prop) → Term → Term → Prop where
  | hole {S} : Alpha S .hole .hole
  | lit {S} (v : Literal) : Alpha S (.lit v) (.lit v)
  | var {S x y} (h : S x y) : Alpha S (.var x) (.var y)
  | cond {S c c' t t' e e'} (hc : Alpha S c c') (ht : Alpha S t t') (he : Alpha S e e') :
      Alpha S (.cond c t e) (.cond c' t' e')
  | binop {S l l' r r'} (op : Operator) (hl : Alpha S l l') (hr : Alpha S r r') :
      Alpha S (.binop op l r) (.binop op l' r')
  | lam {S b b'} {ps ps' : List Param} (hdeclared : ps.map Param.declared = ps'.map Param.declared)
      (hb : Alpha (Under S (ps.map Param.name) (ps'.map Param.name)) b b') :
      Alpha S (.lam ps b) (.lam ps' b')
  | app {S f f' args args'} (hf : Alpha S f f') (hlen : args.length = args'.length)
      (hargs : ∀ {a a'}, (a, a') ∈ args.zip args' → Alpha S a a') :
      Alpha S (.app f args) (.app f' args')
  -- The values of a `let` stand outside of it.
  | letIn {S b b'} {bs bs' : List (Binding Term)}
      (hdeclared : bs.map Binding.declared = bs'.map Binding.declared)
      (hvalues : ∀ {v v'}, (v, v') ∈ (bs.map Binding.value).zip (bs'.map Binding.value) →
        Alpha S v v')
      (hb : Alpha (Under S (bs.map Binding.name) (bs'.map Binding.name)) b b') :
      Alpha S (.letIn bs b) (.letIn bs' b')
  -- The values of a `letrec` see all its names.
  | letRec {S b b'} {bs bs' : List (Binding Term)}
      (hdeclared : bs.map Binding.declared = bs'.map Binding.declared)
      (hvalues : ∀ {v v'}, (v, v') ∈ (bs.map Binding.value).zip (bs'.map Binding.value) →
        Alpha (Under S (bs.map Binding.name) (bs'.map Binding.name)) v v')
      (hb : Alpha (Under S (bs.map Binding.name) (bs'.map Binding.name)) b b') :
      Alpha S (.letRec bs b) (.letRec bs' b')

variable {S S' : Text → Text → Prop} {t t' : Term}

/-- Only the names that occur free have to correspond. -/
theorem Alpha.congr (h : Alpha S t t') (hfree : ∀ x y, x ∈ t.freeNames → S x y → S' x y) :
    Alpha S' t t' := by
  induction h generalizing S' with
  | hole => exact .hole
  | lit v => exact .lit v
  | var h => exact .var (hfree _ _ (by simp [freeNames]) h)
  | cond _ _ _ ihc iht ihe =>
      simp only [freeNames, List.mem_append] at hfree
      exact .cond (ihc fun x y hx => hfree x y (Or.inl (Or.inl hx)))
        (iht fun x y hx => hfree x y (Or.inl (Or.inr hx))) (ihe fun x y hx => hfree x y (Or.inr hx))
  | binop op _ _ ihl ihr =>
      simp only [freeNames, List.mem_append] at hfree
      exact .binop op (ihl fun x y hx => hfree x y (Or.inl hx))
        (ihr fun x y hx => hfree x y (Or.inr hx))
  | lam hdeclared _ ihb =>
      -- A bound name corresponds by its place, whatever the names outside do.
      simp only [freeNames, List.mem_filter, decide_eq_true_eq] at hfree
      exact .lam hdeclared (ihb fun x y hx hxy => hxy.imp fun hxs => hfree x y ⟨hx, hxs⟩)
  | app _ hlen _ ihf ihargs =>
      simp only [freeNames, List.mem_append] at hfree
      refine .app (ihf fun x y hx => hfree x y (Or.inl hx)) hlen ?_
      intro a a' ha
      exact ihargs ha fun x y hx => hfree x y (Or.inr (mem_freeNamesAll (List.of_mem_zip ha).1 hx))
  | letIn hdeclared _ _ ihvalues ihb =>
      simp only [freeNames, freeNamesBindings_eq, List.mem_append, List.mem_filter,
        decide_eq_true_eq] at hfree
      refine .letIn hdeclared ?_ (ihb fun x y hx hxy => hxy.imp
        fun hxs => hfree x y (Or.inr ⟨hx, hxs⟩))
      intro v v' hv
      exact ihvalues hv fun x y hx => hfree x y
        (Or.inl (mem_freeNamesAll (List.of_mem_zip hv).1 hx))
  | letRec hdeclared _ _ ihvalues ihb =>
      simp only [freeNames, freeNamesBindings_eq, List.mem_filter, List.mem_append,
        decide_eq_true_eq] at hfree
      refine .letRec hdeclared ?_ (ihb fun x y hx hxy => hxy.imp
        fun hxs => hfree x y ⟨Or.inr hx, hxs⟩)
      intro v v' hv
      exact ihvalues hv fun x y hx hxy => hxy.imp fun hxs =>
        hfree x y ⟨Or.inl (mem_freeNamesAll (List.of_mem_zip hv).1 hx), hxs⟩

theorem eq_of_mem_zip_self {ts : List Term} {a b : Term} (h : (a, b) ∈ ts.zip ts) :
    b = a ∧ a ∈ ts := by
  have hall : List.Forall₂ (fun a b => b = a ∧ a ∈ ts) ts ts :=
    List.forall₂_same.2 fun a ha => ⟨rfl, ha⟩
  exact (List.forall₂_iff_zip.1 hall).2 h

/-- A term is α-equivalent to itself if every name corresponds to itself. -/
theorem alpha_rfl (hS : ∀ x, S x x) (t : Term) : Alpha S t t := by
  induction t using Term.induct generalizing S with
  | hole => exact .hole
  | lit v => exact .lit v
  | var x => exact .var (hS x)
  | cond c t e ihc iht ihe => exact .cond (ihc hS) (iht hS) (ihe hS)
  | binop op l r ihl ihr => exact .binop op (ihl hS) (ihr hS)
  | lam ps b ihb => exact .lam rfl (ihb fun x => under_self fun _ => hS x)
  | app f args ihf ihargs =>
      refine .app (ihf hS) rfl ?_
      intro a a' ha
      obtain ⟨rfl, ha⟩ := eq_of_mem_zip_self ha
      exact ihargs _ ha hS
  | letIn bs b ihbs ihb =>
      refine .letIn rfl ?_ (ihb fun x => under_self fun _ => hS x)
      intro v v' hv
      obtain ⟨rfl, hv⟩ := eq_of_mem_zip_self hv
      obtain ⟨x, hx, rfl⟩ := List.mem_map.1 hv
      exact ihbs x hx hS
  | letRec bs b ihbs ihb =>
      refine .letRec rfl ?_ (ihb fun x => under_self fun _ => hS x)
      intro v v' hv
      obtain ⟨rfl, hv⟩ := eq_of_mem_zip_self hv
      obtain ⟨x, hx, rfl⟩ := List.mem_map.1 hv
      exact ihbs x hx fun x => under_self fun _ => hS x

/-! ## What is visible -/

/-- The depth of bindings is that of their values. -/
theorem depthBindings_eq (bs : List (Binding Term)) :
    depthBindings bs = depthAll (bs.map Binding.value) := by
  induction bs with
  | nil => rfl
  | cons x bs ih => simp [depthBindings, depthAll, ih]

theorem depthAll_congr {ts ts' : List Term} (hlen : ts.length = ts'.length)
    (h : ∀ {a a'}, (a, a') ∈ ts.zip ts' → a.depth = a'.depth) : depthAll ts = depthAll ts' := by
  have hall := List.forall₂_iff_zip.2 ⟨hlen, h⟩
  clear h hlen
  induction hall with
  | nil => rfl
  | cons hhead _ ih => rw [depthAll, depthAll, hhead, ih]

theorem length_value_eq {bs bs' : List (Binding Term)}
    (h : bs.map Binding.declared = bs'.map Binding.declared) :
    (bs.map Binding.value).length = (bs'.map Binding.value).length := by
  simpa using congrArg List.length h

/-- Terms that differ in bound names only nest equally deeply. -/
theorem Alpha.depth_eq (h : Alpha S t t') : t.depth = t'.depth := by
  induction h with
  | hole => rfl
  | lit v => rfl
  | var h => rfl
  | cond _ _ _ ihc iht ihe => rw [depth, depth, ihc, iht, ihe]
  | binop op _ _ ihl ihr => rw [depth, depth, ihl, ihr]
  | lam _ _ ihb => rw [depth, depth, ihb]
  | app _ hlen _ ihf ihargs => rw [depth, depth, ihf, depthAll_congr hlen ihargs]
  | letIn hdeclared _ _ ihvalues ihb =>
      rw [depth, depth, depthBindings_eq, depthBindings_eq,
        depthAll_congr (length_value_eq hdeclared) ihvalues, ihb]
  | letRec hdeclared _ _ ihvalues ihb =>
      rw [depth, depth, depthBindings_eq, depthBindings_eq,
        depthAll_congr (length_value_eq hdeclared) ihvalues, ihb]

theorem pruneAll_eq (n : Nat) (ts : List Term) : pruneAll n ts = ts.map (prune n) := by
  induction ts with
  | nil => rfl
  | cons t ts ih => simp [pruneAll, ih]

/-- Pruning leaves annotations alone. -/
theorem map_declared_pruneBindings (n : Nat) (bs : List (Binding Term)) :
    (pruneBindings n bs).map Binding.declared = bs.map Binding.declared := by
  induction bs with
  | nil => rfl
  | cons x bs ih => simp [pruneBindings, ih]

theorem map_value_pruneBindings (n : Nat) (bs : List (Binding Term)) :
    (pruneBindings n bs).map Binding.value = (bs.map Binding.value).map (prune n) := by
  induction bs with
  | nil => rfl
  | cons x bs ih => simp [pruneBindings, ih]

theorem forall_zip_map_prune {n : Nat} {P : Term → Term → Prop} {ts ts' : List Term}
    (h : ∀ {a a'}, (a, a') ∈ ts.zip ts' → P (a.prune n) (a'.prune n)) :
    ∀ {a a'}, (a, a') ∈ (ts.map (prune n)).zip (ts'.map (prune n)) → P a a' := by
  intro a a' ha
  rw [List.zip_map] at ha
  obtain ⟨⟨b, b'⟩, hb, heq⟩ := List.mem_map.1 ha
  cases heq
  exact h hb

/-- Terms that differ in bound names only are pruned in the same places. -/
theorem Alpha.prune (h : Alpha S t t') (n : Nat) : Alpha S (t.prune n) (t'.prune n) := by
  -- Both terms have one shape, so that the limit cuts both off in the same places.
  induction h generalizing n with
  | hole => cases n <;> exact .hole
  | lit v =>
      cases n with
      | zero => exact .hole
      | succ n => exact .lit v
  | var h =>
      cases n with
      | zero => exact .hole
      | succ n => exact .var h
  | cond _ _ _ ihc iht ihe =>
      cases n with
      | zero => exact .hole
      | succ n => exact .cond (ihc n) (iht n) (ihe n)
  | binop op _ _ ihl ihr =>
      cases n with
      | zero => exact .hole
      | succ n => exact .binop op (ihl n) (ihr n)
  | lam hdeclared _ ihb =>
      cases n with
      | zero => exact .hole
      | succ n => exact .lam hdeclared (ihb n)
  | app _ hlen _ ihf ihargs =>
      cases n with
      | zero => exact .hole
      | succ n =>
          simp only [Term.prune, pruneAll_eq]
          exact .app (ihf n) (by simpa using hlen) (forall_zip_map_prune fun ha => ihargs ha n)
  | letIn hdeclared _ _ ihvalues ihb =>
      cases n with
      | zero => exact .hole
      | succ n =>
          refine .letIn ?_ ?_ ?_
          · simpa only [map_declared_pruneBindings] using hdeclared
          · simp only [map_value_pruneBindings]
            exact forall_zip_map_prune fun hv => ihvalues hv n
          · simpa only [map_name_pruneBindings] using ihb n
  | letRec hdeclared _ _ ihvalues ihb =>
      cases n with
      | zero => exact .hole
      | succ n =>
          refine .letRec ?_ ?_ ?_
          · simpa only [map_declared_pruneBindings] using hdeclared
          · simp only [map_value_pruneBindings, map_name_pruneBindings]
            exact forall_zip_map_prune fun hv => ihvalues hv n
          · simpa only [map_name_pruneBindings] using ihb n

/-- What is looked at of such terms differs in bound names only. -/
theorem Alpha.visible (h : Alpha S t t') : Alpha S t.visible t'.visible := by
  simp only [Term.visible, h.depth_eq]
  split
  · exact h
  · exact h.prune depthLimit

end Term

end Monotype
