import Mathlib.Tactic.Tauto
import Monotype.Proofs.Codec.Grammar
import Monotype.Proofs.Typing.Derivation

/-!
# Reading back what was written

A term is writable when it is well formed, nothing is missing from it, and its annotations are built
from variables, functions and the three base types (`Term.Writable`).  Writing such a term succeeds,
and reading the result returns the term, if the budget of depth allows it: `Term.readDepth` is the
least budget that does.

`ReadsBack` says this of any kind of thing that is written and read: types, parameters, bindings,
terms and lists of them.
-/

namespace Monotype

/-! ## Reading back -/

def readWithin {α : Type} (need budget : Nat) (a : α) : Except DecodeFault α :=
  if need ≤ budget then .ok a else .error .tooDeep

def greatest {α : Type} (need : α → Nat) (xs : List α) : Nat :=
  xs.foldr (fun x k => max (need x) k) 0

/-- Writing succeeds, and reading the result returns what was written if the budget is enough. -/
def ReadsBack {α : Type} (write : α → Except Malformed Json)
    (read : Nat → Json → Except DecodeFault α) (need : α → Nat) (a : α) : Prop :=
  ∃ v, write a = .ok v ∧ ∀ n, read n v = readWithin (need a) n a

section ReadWithin

variable {α β : Type}

theorem readWithin_zero (n : Nat) (a : α) : readWithin 0 n a = .ok a := by
  simp [readWithin]

theorem readWithin_succ (k n : Nat) (a : α) : readWithin (k + 1) (n + 1) a = readWithin k n a := by
  simp [readWithin]

/-- Two readings in a row need the greater one of their budgets. -/
theorem readWithin_bind {j k n : Nat} {a : α} {b : β} {f : α → Except DecodeFault β}
    (h : f a = readWithin k n b) : (readWithin j n a >>= f) = readWithin (max j k) n b := by
  by_cases hj : j ≤ n
  · have hmax : max j k ≤ n ↔ k ≤ n := by omega
    have hread : readWithin j n a = .ok a := if_pos hj
    rw [hread]
    exact h.trans (by simp only [readWithin, hmax])
  · have hmax : ¬ max j k ≤ n := by omega
    simp only [readWithin, hj, hmax, if_false]
    rfl

/-- The last step of a reader returns what the parts before it make. -/
theorem readWithin_map {j n : Nat} {a : α} (f : α → β) :
    (readWithin j n a >>= fun a => pure (f a)) = readWithin j n (f a) := by
  have h := readWithin_bind (j := j) (f := fun a => pure (f a)) (readWithin_zero n (f a)).symm
  rwa [Nat.max_zero] at h

/-- If every item reads back, the whole list does, with the greatest of the needs. -/
theorem readsBack_list {write : α → Except Malformed Json}
    {read : Nat → Json → Except DecodeFault α} {need : α → Nat} {xs : List α}
    (h : ∀ x ∈ xs, ReadsBack write read need x) :
    ∃ vs, xs.mapM write = .ok vs ∧ ∀ n, vs.mapM (read n) = readWithin (greatest need xs) n xs := by
  induction xs with
  | nil => exact ⟨[], rfl, fun n => (readWithin_zero n []).symm⟩
  | cons x xs ih =>
      obtain ⟨v, hv, hread⟩ := h x (by simp)
      obtain ⟨vs, hvs, hreads⟩ := ih fun y hy => h y (by simp [hy])
      refine ⟨v :: vs, by rw [List.mapM_cons, hv, hvs]; rfl, ?_⟩
      intro n
      rw [List.mapM_cons, hread, hreads]
      exact readWithin_bind (readWithin_map _)

end ReadWithin

/-! ## Types -/

namespace Ty

/-- The type is built from variables, functions and the base types. -/
inductive Writable : Ty → Prop where
  | var (i : Int) : Writable (.var i)
  | base {name : String} (h : name ∈ Json.baseNames) : Writable (.const name)
  | fn {ps : List Ty} {r : Ty} (params : ∀ p ∈ ps, Writable p) (result : Writable r) :
      Writable (.fn ps r)

theorem toJsons_eq (ts : List Ty) : toJsons ts = ts.mapM toJson := by
  induction ts with
  | nil => rfl
  | cons t ts ih => rw [toJsons, List.mapM_cons, ih]

theorem depthAll_eq (ts : List Ty) : depthAll ts = greatest depth ts := by
  induction ts with
  | nil => rfl
  | cons t ts ih => rw [depthAll, ih]; rfl

/-- The base types are found by their names. -/
theorem ofBaseName?_of_mem {name : String} (h : name ∈ Json.baseNames) :
    ofBaseName? name = some (.const name) := by
  simp only [Json.baseNames, List.mem_cons, List.not_mem_nil, or_false] at h
  rcases h with rfl | rfl | rfl <;> rfl

/-- A type that can be written reads back, and its depth is the budget that this needs. -/
theorem Writable.readsBack {t : Ty} (h : t.Writable) : ReadsBack toJson ofJson depth t := by
  induction h with
  | var i =>
      refine ⟨_, rfl, ?_⟩
      intro n
      cases n with
      | zero => rfl
      | succ n => rw [depth, readWithin_succ, readWithin_zero]; rfl
  | base h =>
      refine ⟨_, rfl, ?_⟩
      intro n
      cases n with
      | zero => rfl
      | succ n => simp only [ofJson, ofBaseName?_of_mem h, depth, readWithin_succ, readWithin_zero]
  | @fn ps r _ _ ihp ihr =>
      obtain ⟨vs, hvs, hreads⟩ := readsBack_list ihp
      obtain ⟨v, hv, hread⟩ := ihr
      refine ⟨.obj [("params", .arr vs), ("result", v)], ?_, ?_⟩
      · rw [toJson, toJsons_eq, hvs, hv]
        rfl
      · intro n
        cases n with
        | zero => rfl
        | succ n =>
            rw [depth, readWithin_succ, depthAll_eq]
            -- The members are read in the order in which they were written.
            have hread' : ofJson (n + 1) (.obj [("params", .arr vs), ("result", v)]) =
                (vs.mapM (ofJson n) >>= fun params =>
                  ofJson n v >>= fun result => pure (.fn params result)) := rfl
            rw [hread', hreads, hread]
            exact readWithin_bind (readWithin_map _)

end Ty

/-! ## Writable terms -/

/-- Every operator is found by its own symbol. -/
theorem Operator.ofSymbol?_symbol (op : Operator) : ofSymbol? op.symbol = some op := by
  cases op with
  | arithmetic family operation => cases family <;> cases operation <;> decide
  | order family relation => cases family <;> cases relation <;> decide
  | equal => decide
  | unequal => decide

namespace Term

mutual

/-- No term is missing. -/
def Complete : Term → Prop
  | .hole => False
  | .lit _ => True
  | .var _ => True
  | .cond c t e => Complete c ∧ Complete t ∧ Complete e
  | .binop _ l r => Complete l ∧ Complete r
  | .lam _ b => Complete b
  | .app f args => Complete f ∧ CompleteAll args
  | .letIn bs b => CompleteBindings bs ∧ Complete b
  | .letRec bs b => CompleteBindings bs ∧ Complete b

def CompleteAll : List Term → Prop
  | [] => True
  | t :: ts => Complete t ∧ CompleteAll ts

def CompleteBindings : List (Binding Term) → Prop
  | [] => True
  | ⟨_, _, v⟩ :: bs => Complete v ∧ CompleteBindings bs

end

/-- The term was put together properly, nothing is missing, and its annotations can be written. -/
structure Writable (t : Term) : Prop where
  wellFormed : t.WellFormed
  complete : t.Complete
  annotated : t.Annotated Ty.Writable

theorem wellFormedAll_iff {ts : List Term} : WellFormedAll ts ↔ ∀ t ∈ ts, t.WellFormed := by
  induction ts with
  | nil => simp [WellFormedAll]
  | cons t ts ih => simp [WellFormedAll, ih]

theorem wellFormedBindings_iff {bs : List (Binding Term)} :
    WellFormedBindings bs ↔ ∀ x ∈ bs, x.value.WellFormed := by
  induction bs with
  | nil => simp [WellFormedBindings]
  | cons x bs ih => simp [WellFormedBindings, ih]

theorem completeAll_iff {ts : List Term} : CompleteAll ts ↔ ∀ t ∈ ts, t.Complete := by
  induction ts with
  | nil => simp [CompleteAll]
  | cons t ts ih => simp [CompleteAll, ih]

theorem completeBindings_iff {bs : List (Binding Term)} :
    CompleteBindings bs ↔ ∀ x ∈ bs, x.value.Complete := by
  induction bs with
  | nil => simp [CompleteBindings]
  | cons x bs ih => simp [CompleteBindings, ih]

section Writable

/-- What it takes to write a term, as one conjunction. -/
theorem writable_iff {t : Term} :
    t.Writable ↔ t.WellFormed ∧ t.Complete ∧ t.Annotated Ty.Writable :=
  ⟨fun h => ⟨h.1, h.2, h.3⟩, fun h => ⟨h.1, h.2.1, h.2.2⟩⟩

theorem writable_lit (v : Literal) : (Term.lit v).Writable :=
  ⟨trivial, trivial, by simp [Annotated, annotations]⟩

theorem writable_var (x : Text) : (Term.var x).Writable :=
  ⟨trivial, trivial, by simp [Annotated, annotations]⟩

theorem writable_cond {c t e : Term} :
    (Term.cond c t e).Writable ↔ c.Writable ∧ t.Writable ∧ e.Writable := by
  simp only [writable_iff, WellFormed, Complete, annotated_cond]
  tauto

theorem writable_binop {op : Operator} {l r : Term} :
    (Term.binop op l r).Writable ↔ l.Writable ∧ r.Writable := by
  simp only [writable_iff, WellFormed, Complete, annotated_binop]
  tauto

def DeclaredWritable (declared : Option Ty) : Prop := ∀ a ∈ declared, a.Writable

/-- A condition on all annotations that are written is one on every annotation that may be
missing. -/
theorem forall_declared {α : Type} {xs : List α} {f : α → Option Ty} :
    (∀ a, some a ∈ xs.map f → a.Writable) ↔ ∀ x ∈ xs, DeclaredWritable (f x) := by
  simp only [List.mem_map, DeclaredWritable, Option.mem_def]
  constructor
  · intro h x hx a ha
    exact h a ⟨x, hx, ha⟩
  · rintro h a ⟨x, hx, ha⟩
    exact h x hx a ha

/-- The annotations of a function are those of its parameters and of its body. -/
theorem writable_lam {ps : List Param} {b : Term} :
    (Term.lam ps b).Writable ↔ (∀ p ∈ ps, DeclaredWritable p.declared) ∧ b.Writable := by
  simp only [writable_iff, WellFormed, Complete, annotated_lam, forall_declared]
  tauto

theorem writable_app {f : Term} {args : List Term} :
    (Term.app f args).Writable ↔ f.Writable ∧ ∀ a ∈ args, a.Writable := by
  simp only [writable_iff, WellFormed, Complete, annotated_app, wellFormedAll_iff, completeAll_iff,
    forall_and]
  tauto

def BindingWritable (x : Binding Term) : Prop := x.value.Writable ∧ DeclaredWritable x.declared

theorem writable_letIn {bs : List (Binding Term)} {b : Term} :
    (Term.letIn bs b).Writable ↔ bs ≠ [] ∧ (∀ x ∈ bs, BindingWritable x) ∧ b.Writable := by
  simp only [writable_iff, WellFormed, Complete, annotated_letIn, wellFormedBindings_iff,
    completeBindings_iff, forall_declared, BindingWritable, forall_and]
  tauto

theorem writable_letRec {bs : List (Binding Term)} {b : Term} :
    (Term.letRec bs b).Writable ↔
      (bs ≠ [] ∧ ∀ x ∈ bs, x.value.isLam = true) ∧ (∀ x ∈ bs, BindingWritable x) ∧ b.Writable := by
  simp only [writable_iff, WellFormed, Complete, annotated_letRec, wellFormedBindings_iff,
    completeBindings_iff, forall_declared, BindingWritable, forall_and]
  tauto

end Writable

/-! ## The budget that reading back needs -/

def declaredDepth (declared : Option Ty) : Nat := (declared.map Ty.depth).getD 0

mutual

/-- The budget that reading back a term needs. -/
def readDepth : Term → Nat
  | .hole => 1
  | .lit _ => 1
  | .var _ => 1
  | .cond c t e => max (readDepth c) (max (readDepth t) (readDepth e)) + 1
  | .binop _ l r => max (readDepth l) (readDepth r) + 1
  | .lam ps b => max (greatest (fun p => declaredDepth p.declared) ps) (readDepth b) + 1
  | .app f args => max (readDepth f) (readDepthAll args) + 1
  | .letIn bs b => max (readDepthBindings bs) (readDepth b) + 1
  | .letRec bs b => max (readDepthBindings bs) (readDepth b) + 1

def readDepthAll : List Term → Nat
  | [] => 0
  | t :: ts => max (readDepth t) (readDepthAll ts)

def readDepthBindings : List (Binding Term) → Nat
  | [] => 0
  | ⟨_, declared, v⟩ :: bs =>
      max (max (readDepth v) (declaredDepth declared)) (readDepthBindings bs)

end

def bindingDepth (x : Binding Term) : Nat := max x.value.readDepth (declaredDepth x.declared)

theorem readDepthAll_eq (ts : List Term) : readDepthAll ts = greatest readDepth ts := by
  induction ts with
  | nil => rfl
  | cons t ts ih => rw [readDepthAll, ih]; rfl

theorem readDepthBindings_eq (bs : List (Binding Term)) :
    readDepthBindings bs = greatest bindingDepth bs := by
  induction bs with
  | nil => rfl
  | cons x bs ih => rw [readDepthBindings, ih]; rfl

/-! ## Annotations, parameters and bindings -/

/-- What is written for an annotation is read back from behind any members that are no
annotation. -/
theorem readsBack_declared {declared : Option Ty} (h : DeclaredWritable declared) :
    ∃ ms, declaredMember declared = .ok ms ∧
      ∀ n before, Json.get? before "annotation" = none →
        Json.declared n (before ++ ms) = readWithin (declaredDepth declared) n declared := by
  cases declared with
  | none =>
      refine ⟨[], rfl, ?_⟩
      intro n before hbefore
      have hlookup : Json.get? (before ++ []) "annotation" = none := by simpa using hbefore
      simp only [Json.declared, hlookup]
      exact (readWithin_zero n none).symm
  | some t =>
      obtain ⟨v, hv, hread⟩ := (h t rfl).readsBack
      refine ⟨[("annotation", v)], by rw [declaredMember, hv]; rfl, ?_⟩
      intro n before hbefore
      have hlookup : Json.get? (before ++ [(.plain "annotation", v)]) "annotation" = some v := by
        simp [List.lookup_append, hbefore]
      -- A type is never written as null, since null is not read as a type.
      have hnull : v ≠ .null := by
        rintro rfl
        have hnone := hread 1
        have hsome := hread (t.depth + 1)
        simp [Ty.ofJson, readWithin, Malformed.stop] at hnone hsome
      have hdeclared : Json.declared n (before ++ [(.plain "annotation", v)]) =
          (Ty.ofJson n v).map some := by
        simp only [Json.declared, hlookup]
      rw [hdeclared, hread]
      by_cases hdepth : t.depth ≤ n <;> simp [readWithin, declaredDepth, hdepth, Except.map]

/-- A parameter reads back as an object or as a bare name. -/
theorem readsBack_param {p : Param} (h : DeclaredWritable p.declared) :
    ReadsBack paramToJson Param.ofJson (fun p => declaredDepth p.declared) p := by
  obtain ⟨ms, hms, hread⟩ := readsBack_declared h
  refine ⟨.obj (("name", .str p.name) :: ms), by rw [paramToJson, hms]; rfl, ?_⟩
  intro n
  have hdeclared : Json.declared n (("name", .str p.name) :: ms) = _ :=
    hread n [("name", .str p.name)] (by simp [Entries.lookup_cons])
  have hparam : Param.ofJson n (.obj (("name", .str p.name) :: ms)) =
      (Json.declared n (("name", .str p.name) :: ms) >>= fun declared =>
        pure ⟨p.name, declared⟩) := rfl
  rw [hparam, hdeclared]
  exact readWithin_map _

def bindingToJson (x : Binding Term) : Except Malformed Json := do
  let v ← toJson x.value
  let declared ← declaredMember x.declared
  return .obj (("name", .str x.name) :: ("value", v) :: declared)

theorem toJsons_eq (ts : List Term) : toJsons ts = ts.mapM toJson := by
  induction ts with
  | nil => rfl
  | cons t ts ih => rw [toJsons, List.mapM_cons, ih]

theorem bindingsToJson_eq (bs : List (Binding Term)) :
    bindingsToJson bs = bs.mapM bindingToJson := by
  induction bs with
  | nil => rfl
  | cons x bs ih => simp [bindingsToJson, ih, bindingToJson]

/-- A binding reads back if its value does. -/
theorem readsBack_binding {x : Binding Term} (hvalue : ReadsBack toJson ofJson readDepth x.value)
    (hdeclared : DeclaredWritable x.declared) :
    ReadsBack bindingToJson (fun n => bindingOfJson n (ofJson n)) bindingDepth x := by
  obtain ⟨v, hv, hread⟩ := hvalue
  obtain ⟨ms, hms, hreads⟩ := readsBack_declared hdeclared
  refine ⟨.obj (("name", .str x.name) :: ("value", v) :: ms),
    by rw [bindingToJson, hv, hms]; rfl, ?_⟩
  intro n
  have hrest : Json.declared n (("name", .str x.name) :: ("value", v) :: ms) = _ :=
    hreads n [("name", .str x.name), ("value", v)] (by simp [Entries.lookup_cons])
  have hbinding : bindingOfJson n (ofJson n) (.obj (("name", .str x.name) :: ("value", v) :: ms)) =
      (ofJson n v >>= fun value =>
        Json.declared n (("name", .str x.name) :: ("value", v) :: ms) >>= fun declared =>
          pure ⟨x.name, declared, value⟩) := rfl
  refine hbinding.trans ?_
  rw [hread, hrest]
  exact readWithin_bind (readWithin_map _)

/-! ## Terms -/

/-- The members that are written for a literal are read as the literal. -/
theorem ofMembers_literal (n : Nat) (read : Json → Except DecodeFault Term) (v : Literal) :
    ofMembers n read [("node", .str "literal"), ("kind", .str v.kind.name), ("value", v.toJson)]
      (.str "literal") = .ok (.lit v) := by
  cases v <;> rfl

/-- The operator and its operands are read one after the other. -/
theorem ofMembers_binop {n : Nat} {read : Json → Except DecodeFault Term} {ms : List (Text × Json)}
    {s : Text} {op : Operator} {l r : Json} (hop : Json.get? ms "op" = some (.str s))
    (hs : Operator.ofSymbol? s = some op) (hl : Json.get? ms "lhs" = some l)
    (hr : Json.get? ms "rhs" = some r) :
    ofMembers n read ms (.str "binop") =
      (read l >>= fun l => read r >>= fun r => pure (.binop op l r)) := by
  have hsymbol : (Json.text? (.str s)).bind Operator.ofSymbol? = some op := hs
  simp only [ofMembers, Json.required, hop, hl, hr, bind, Except.bind, hsymbol]

theorem nodeFault?_letIn_eq_none {bs : List (Binding Term)} {b : Term} :
    (Term.letIn bs b).nodeFault? = none ↔ bs ≠ [] := by
  cases bs <;> simp [nodeFault?]

theorem nodeFault?_letRec_eq_none {bs : List (Binding Term)} {b : Term} :
    (Term.letRec bs b).nodeFault? = none ↔ bs ≠ [] ∧ ∀ x ∈ bs, x.value.isLam = true := by
  cases bs with
  | nil => simp [nodeFault?]
  | cons x bs => simp [nodeFault?, List.find?_eq_none]

/-- What is written for a node is read with one unit of the budget less for its parts. -/
theorem readsBack_node {t : Term} {need : Nat} {ms : List (Text × Json)} {tag : Text}
    (hwrite : toJson t = .ok (.obj (("node", .str tag) :: ms))) (hneed : t.readDepth = need + 1)
    (h : ∀ n, ofMembers n (ofJson n) (("node", .str tag) :: ms) (.str tag) = readWithin need n t) :
    ReadsBack toJson ofJson readDepth t := by
  refine ⟨_, hwrite, ?_⟩
  intro n
  rw [hneed]
  cases n with
  | zero => rfl
  | succ n =>
      rw [readWithin_succ, ← h n]
      rfl

/-- Both kinds of binding blocks are written and read in the same way. -/
theorem readsBack_block {node : List (Binding Term) → Term → Term} (tag : Text)
    {bs : List (Binding Term)} {b : Term}
    (hwrite : ∀ vs v, bindingsToJson bs = .ok vs → toJson b = .ok v →
      toJson (node bs b) = .ok (.obj [("node", .str tag), ("bindings", .arr vs), ("body", v)]))
    (hread : ∀ n vs v, ofMembers n (ofJson n)
        [("node", .str tag), ("bindings", .arr vs), ("body", v)] (.str tag) =
      (vs.mapM (bindingOfJson n (ofJson n)) >>= fun bs =>
        ofJson n v >>= fun b => (fitted (node bs b)).mapError .malformed))
    (hneed : (node bs b).readDepth = max (readDepthBindings bs) b.readDepth + 1)
    (hfault : (node bs b).nodeFault? = none)
    (hbs : ∀ x ∈ bs, ReadsBack bindingToJson (fun n => bindingOfJson n (ofJson n)) bindingDepth x)
    (hb : ReadsBack toJson ofJson readDepth b) : ReadsBack toJson ofJson readDepth (node bs b) := by
  obtain ⟨vs, hvs, hreads⟩ := readsBack_list hbs
  obtain ⟨v, hv, hbody⟩ := hb
  have hfitted : (fitted (node bs b)).mapError DecodeFault.malformed = .ok (node bs b) := by
    simp only [fitted, hfault]
    rfl
  refine readsBack_node (hwrite vs v (by rw [bindingsToJson_eq, hvs]) hv) hneed ?_
  intro n
  -- The check of the block comes last and needs no budget.
  have hlast : (ofJson n v >>= fun b => (fitted (node bs b)).mapError .malformed) =
      readWithin (max b.readDepth 0) n (node bs b) := by
    rw [hbody]
    exact readWithin_bind (hfitted.trans (readWithin_zero n _).symm)
  rw [Nat.max_zero] at hlast
  rw [hread, hreads n, readDepthBindings_eq]
  exact readWithin_bind hlast

/-- Writing a writable term succeeds, and what is written is read back. -/
theorem Writable.readsBack {t : Term} (h : t.Writable) : ReadsBack toJson ofJson readDepth t := by
  -- Each case says what is written, and that reading it is reading the members in turn.
  induction t using Term.induct with
  | hole => exact h.complete.elim
  | lit v =>
      refine readsBack_node rfl rfl fun n => ?_
      rw [ofMembers_literal, readWithin_zero]
  | var x =>
      refine readsBack_node rfl rfl fun n => ?_
      rw [readWithin_zero]
      rfl
  | cond c t e ihc iht ihe =>
      obtain ⟨hc, ht, he⟩ := writable_cond.1 h
      obtain ⟨vc, hvc, hreadc⟩ := ihc hc
      obtain ⟨vt, hvt, hreadt⟩ := iht ht
      obtain ⟨ve, hve, hreade⟩ := ihe he
      have hwrite : toJson (.cond c t e) =
          .ok (.obj [("node", .str "if"), ("test", vc), ("then", vt), ("else", ve)]) := by
        rw [toJson, hvc, hvt, hve]
        rfl
      refine readsBack_node hwrite rfl fun n => ?_
      have hmembers : ofMembers n (ofJson n)
          [("node", .str "if"), ("test", vc), ("then", vt), ("else", ve)] (.str "if") =
          (ofJson n vc >>= fun c => ofJson n vt >>= fun t => ofJson n ve >>= fun e =>
            pure (.cond c t e)) := rfl
      rw [hmembers, hreadc, hreadt, hreade]
      exact readWithin_bind (readWithin_bind (readWithin_map _))
  | binop op l r ihl ihr =>
      obtain ⟨hl, hr⟩ := writable_binop.1 h
      obtain ⟨vl, hvl, hreadl⟩ := ihl hl
      obtain ⟨vr, hvr, hreadr⟩ := ihr hr
      have hwrite : toJson (.binop op l r) =
          .ok (.obj [("node", .str "binop"), ("op", .str op.symbol), ("lhs", vl),
            ("rhs", vr)]) := by
        rw [toJson, hvl, hvr]
        rfl
      refine readsBack_node hwrite rfl fun n => ?_
      have hmembers : ofMembers n (ofJson n)
          [("node", .str "binop"), ("op", .str op.symbol), ("lhs", vl), ("rhs", vr)]
            (.str "binop") =
          (ofJson n vl >>= fun l => ofJson n vr >>= fun r => pure (.binop op l r)) :=
        ofMembers_binop rfl op.ofSymbol?_symbol rfl rfl
      rw [hmembers, hreadl, hreadr]
      exact readWithin_bind (readWithin_map _)
  | lam ps b ihb =>
      obtain ⟨hps, hb⟩ := writable_lam.1 h
      obtain ⟨vs, hvs, hreads⟩ := readsBack_list fun p hp => readsBack_param (hps p hp)
      obtain ⟨v, hv, hread⟩ := ihb hb
      have hwrite : toJson (.lam ps b) =
          .ok (.obj [("node", .str "lambda"), ("params", .arr vs), ("body", v)]) := by
        rw [toJson, hvs, hv]
        rfl
      refine readsBack_node hwrite rfl fun n => ?_
      have hmembers : ofMembers n (ofJson n)
          [("node", .str "lambda"), ("params", .arr vs), ("body", v)] (.str "lambda") =
          (vs.mapM (Param.ofJson n) >>= fun ps => ofJson n v >>= fun b => pure (.lam ps b)) := rfl
      rw [hmembers, hreads, hread]
      exact readWithin_bind (readWithin_map _)
  | app f args ihf ihargs =>
      obtain ⟨hf, hargs⟩ := writable_app.1 h
      obtain ⟨v, hv, hread⟩ := ihf hf
      obtain ⟨vs, hvs, hreads⟩ := readsBack_list fun a ha => ihargs a ha (hargs a ha)
      have hwrite : toJson (.app f args) =
          .ok (.obj [("node", .str "app"), ("function", v), ("arguments", .arr vs)]) := by
        rw [toJson, hv, toJsons_eq, hvs]
        rfl
      refine readsBack_node hwrite rfl fun n => ?_
      have hmembers : ofMembers n (ofJson n)
          [("node", .str "app"), ("function", v), ("arguments", .arr vs)] (.str "app") =
          (ofJson n v >>= fun f => vs.mapM (ofJson n) >>= fun args => pure (.app f args)) := rfl
      rw [hmembers, hread, hreads, readDepthAll_eq]
      exact readWithin_bind (readWithin_map _)
  | letIn bs b ihbs ihb =>
      obtain ⟨hne, hbs, hb⟩ := writable_letIn.1 h
      have hparts := fun x hx => readsBack_binding (ihbs x hx (hbs x hx).1) (hbs x hx).2
      refine readsBack_block "let" ?_ (fun n vs v => rfl) rfl
        (nodeFault?_letIn_eq_none.2 hne) hparts
        (ihb hb)
      intro vs v hvs hv
      rw [toJson, hvs, hv]
      rfl
  | letRec bs b ihbs ihb =>
      obtain ⟨hfun, hbs, hb⟩ := writable_letRec.1 h
      have hparts := fun x hx => readsBack_binding (ihbs x hx (hbs x hx).1) (hbs x hx).2
      refine readsBack_block "letrec" ?_ (fun n vs v => rfl) rfl
        (nodeFault?_letRec_eq_none.2 hfun) hparts
        (ihb hb)
      intro vs v hvs hv
      rw [toJson, hvs, hv]
      rfl

end Term

end Monotype
