import Monotype.Proofs.Typing.Walk

/-!
# Typing derivations

The declarative type system: no equations, no supply, no order of work.  A derivation is a typed
tree, so `Derives read Δ t T` says that `T` repeats the term `t` node for node and that the typing
rule of every node holds of the types that stand there.

* Contexts give types to names.  Extending one shadows what was there, and of a name that is
  repeated in one binder the last occurrence counts (`Context.extend`).
* Functions take all arguments at once, and nothing is generalised at a `let`.
* Annotations are equalities.  They are read through `read`, which is `some` where an annotation
  stands for itself and the application of a solution where it may hold variables.

There is no rule for a missing term.
-/

namespace Monotype

abbrev Context := Text → Option Ty

/-- The context with the names of one more binder: of a repeated name the last one counts. -/
def Context.extend (Δ : Context) (bound : List (Text × Ty)) : Context :=
  fun x => (bound.reverse.lookup x).or (Δ x)

/-- Every written annotation, read, is the type in its place. -/
def Agrees (read : Ty → Option Ty) : List (Option Ty) → List Ty → Prop
  | [], [] => True
  | declared :: rest, τ :: τs => (∀ a ∈ declared, read a = some τ) ∧ Agrees read rest τs
  | _, _ => False

mutual

/-- The tree is a typing derivation of the term. -/
inductive Derives (read : Ty → Option Ty) : Context → Term → TypedTerm → Prop where
  | lit {Δ : Context} (v : Literal) : Derives read Δ (.lit v) (.leaf (.lit v) v.kind.type)
  | var {Δ : Context} {x : Text} {τ : Ty} (hx : Δ x = some τ) :
      Derives read Δ (.var x) (.leaf (.var x) τ)
  -- The test is a truth value, and the branches have the type of the whole.
  | cond {Δ : Context} {c t e : Term} {C T E : TypedTerm} (hc : Derives read Δ c C)
      (ht : Derives read Δ t T) (he : Derives read Δ e E) (htest : C.type = .bool)
      (hbranches : E.type = T.type) :
      Derives read Δ (.cond c t e) (.node (.cond c t e) T.type [C, T, E] [])
  | operator {Δ : Context} {op : Operator} {l r : Term} {L R : TypedTerm} {operand result : Ty}
      (hop : op.signature? = some (operand, result)) (hl : Derives read Δ l L)
      (hr : Derives read Δ r R) (hleft : L.type = operand) (hright : R.type = operand) :
      Derives read Δ (.binop op l r) (.node (.binop op l r) result [L, R] [])
  -- Equality compares operands of one type.
  | equality {Δ : Context} {op : Operator} {l r : Term} {L R : TypedTerm}
      (hop : op.signature? = none) (hl : Derives read Δ l L) (hr : Derives read Δ r R)
      (hoperands : L.type = R.type) :
      Derives read Δ (.binop op l r) (.node (.binop op l r) .bool [L, R] [])
  | lam {Δ : Context} {ps : List Param} {b : Term} {τs : List Ty} {B : TypedTerm}
      (hdeclared : Agrees read (ps.map Param.declared) τs)
      (hb : Derives read (Δ.extend ((ps.map Param.name).zip τs)) b B) :
      Derives read Δ (.lam ps b)
        (.node (.lam ps b) (.fn τs B.type) [B] ((ps.map Param.name).zip τs))
  | app {Δ : Context} {f : Term} {args : List Term} {F : TypedTerm} {As : List TypedTerm} {τ : Ty}
      (hf : Derives read Δ f F) (hargs : DerivesAll read Δ args As)
      (hfunction : F.type = .fn (As.map TypedTerm.type) τ) :
      Derives read Δ (.app f args) (.node (.app f args) τ (F :: As) [])
  -- The values of a `let` are typed outside of it.
  | letIn {Δ : Context} {bs : List (Binding Term)} {b : Term} {Vs : List TypedTerm} {B : TypedTerm}
      (hvalues : DerivesAll read Δ (bs.map Binding.value) Vs)
      (hdeclared : Agrees read (bs.map Binding.declared) (Vs.map TypedTerm.type))
      (hb : Derives read (Δ.extend ((bs.map Binding.name).zip (Vs.map TypedTerm.type))) b B) :
      Derives read Δ (.letIn bs b)
        (.node (.letIn bs b) B.type (Vs ++ [B])
          ((bs.map Binding.name).zip (Vs.map TypedTerm.type)))
  -- The values of a `letrec` see its names, each with the type of its value.
  | letRec {Δ : Context} {bs : List (Binding Term)} {b : Term} {Vs : List TypedTerm} {B : TypedTerm}
      (hvalues : DerivesAll read
        (Δ.extend ((bs.map Binding.name).zip (Vs.map TypedTerm.type))) (bs.map Binding.value) Vs)
      (hdeclared : Agrees read (bs.map Binding.declared) (Vs.map TypedTerm.type))
      (hb : Derives read (Δ.extend ((bs.map Binding.name).zip (Vs.map TypedTerm.type))) b B) :
      Derives read Δ (.letRec bs b)
        (.node (.letRec bs b) B.type (Vs ++ [B])
          ((bs.map Binding.name).zip (Vs.map TypedTerm.type)))

inductive DerivesAll (read : Ty → Option Ty) : Context → List Term → List TypedTerm → Prop where
  | nil {Δ : Context} : DerivesAll read Δ [] []
  | cons {Δ : Context} {t : Term} {ts : List Term} {T : TypedTerm} {Ts : List TypedTerm}
      (head : Derives read Δ t T) (tail : DerivesAll read Δ ts Ts) :
      DerivesAll read Δ (t :: ts) (T :: Ts)

end

/-! ## Annotations -/

namespace Term

mutual

/-- The annotations of a term, in source order. -/
def annotations : Term → List Ty
  | .hole | .lit _ | .var _ => []
  | .cond c t e => annotations c ++ annotations t ++ annotations e
  | .binop _ l r => annotations l ++ annotations r
  | .lam ps b => ps.filterMap Param.declared ++ annotations b
  | .app f args => annotations f ++ annotationsAll args
  | .letIn bs b => annotationsBindings bs ++ annotations b
  | .letRec bs b => annotationsBindings bs ++ annotations b

def annotationsAll : List Term → List Ty
  | [] => []
  | t :: ts => annotations t ++ annotationsAll ts

def annotationsBindings : List (Binding Term) → List Ty
  | [] => []
  | ⟨_, declared, v⟩ :: bs => declared.toList ++ annotations v ++ annotationsBindings bs

end

theorem annotationsAll_eq (ts : List Term) : annotationsAll ts = ts.flatMap annotations := by
  induction ts with
  | nil => rfl
  | cons t ts ih => simp [annotationsAll, ih]

theorem annotationsBindings_eq (bs : List (Binding Term)) :
    annotationsBindings bs = bs.flatMap fun x => x.declared.toList ++ x.value.annotations := by
  induction bs with
  | nil => rfl
  | cons x bs ih => simp [annotationsBindings, ih]

/-- Every annotation of the term has the property. -/
def Annotated (Q : Ty → Prop) (t : Term) : Prop := ∀ a ∈ t.annotations, Q a

section Annotated

variable {Q : Ty → Prop}

theorem annotated_cond {c t e : Term} :
    (Term.cond c t e).Annotated Q ↔ c.Annotated Q ∧ t.Annotated Q ∧ e.Annotated Q := by
  simp only [Annotated, annotations, List.mem_append, or_imp, forall_and, and_assoc]

theorem annotated_binop {op : Operator} {l r : Term} :
    (Term.binop op l r).Annotated Q ↔ l.Annotated Q ∧ r.Annotated Q := by
  simp only [Annotated, annotations, List.mem_append, or_imp, forall_and]

/-- The annotations of a function are those of its parameters and of its body. -/
theorem annotated_lam {ps : List Param} {b : Term} :
    (Term.lam ps b).Annotated Q ↔
      (∀ a, some a ∈ ps.map Param.declared → Q a) ∧ b.Annotated Q := by
  simp only [Annotated, annotations, List.mem_append, List.mem_filterMap, List.mem_map, or_imp,
    forall_and]

theorem annotated_app {f : Term} {args : List Term} :
    (Term.app f args).Annotated Q ↔ f.Annotated Q ∧ ∀ t ∈ args, t.Annotated Q := by
  simp only [Annotated, annotations, annotationsAll_eq, List.mem_append, List.mem_flatMap, or_imp,
    forall_and]
  grind

/-- The annotations of bindings are their own and those of their values. -/
theorem forall_mem_annotationsBindings {bs : List (Binding Term)} :
    (∀ a ∈ annotationsBindings bs, Q a) ↔
      (∀ x ∈ bs, x.value.Annotated Q) ∧ ∀ a, some a ∈ bs.map Binding.declared → Q a := by
  simp only [annotationsBindings_eq, Annotated, List.mem_flatMap, List.mem_append,
    Option.mem_toList, List.mem_map]
  grind

theorem annotated_letIn {bs : List (Binding Term)} {b : Term} :
    (Term.letIn bs b).Annotated Q ↔
      (∀ x ∈ bs, x.value.Annotated Q) ∧ (∀ a, some a ∈ bs.map Binding.declared → Q a) ∧
        b.Annotated Q := by
  rw [← and_assoc, ← forall_mem_annotationsBindings]
  simp only [Annotated, annotations, List.mem_append, or_imp, forall_and]

theorem annotated_letRec {bs : List (Binding Term)} {b : Term} :
    (Term.letRec bs b).Annotated Q ↔
      (∀ x ∈ bs, x.value.Annotated Q) ∧ (∀ a, some a ∈ bs.map Binding.declared → Q a) ∧
        b.Annotated Q := by
  rw [← and_assoc, ← forall_mem_annotationsBindings]
  simp only [Annotated, annotations, List.mem_append, or_imp, forall_and]

end Annotated

end Term

/-- Only what is read of the annotations that are there matters. -/
theorem Agrees.congr {read read' : Ty → Option Ty} {ds : List (Option Ty)} {τs : List Ty}
    (heq : ∀ a, some a ∈ ds → read a = read' a) (h : Agrees read ds τs) : Agrees read' ds τs := by
  induction ds generalizing τs with
  | nil =>
      cases τs with
      | nil => trivial
      | cons τ τs => exact h
  | cons d ds ih =>
      cases τs with
      | nil => exact h
      | cons τ τs =>
          refine ⟨?_, ih (fun a ha => heq a (by simp [ha])) h.2⟩
          intro a ha
          rw [← heq a (by simp [Option.mem_def.1 ha])]
          exact h.1 a ha

theorem DerivesAll.congr {read read' : Ty → Option Ty} {Δ : Context} {ts : List Term}
    {Ts : List TypedTerm}
    (hts : ∀ t ∈ ts, ∀ T, Derives read Δ t T → Derives read' Δ t T)
    (h : DerivesAll read Δ ts Ts) : DerivesAll read' Δ ts Ts := by
  induction ts generalizing Ts with
  | nil =>
      cases h
      exact .nil
  | cons t ts ih =>
      cases h with
      | cons head tail =>
          exact .cons (hts t (by simp) _ head) (ih (fun u hu => hts u (by simp [hu])) tail)

/-- A derivation depends on how the annotations of its term are read, and on nothing else that is
read. -/
theorem Derives.congr {read read' : Ty → Option Ty} {Δ : Context} {t : Term} {T : TypedTerm}
    (heq : t.Annotated fun a => read a = read' a) (h : Derives read Δ t T) :
    Derives read' Δ t T := by
  -- The form of the term tells the last rule of the derivation.
  induction t using Term.induct generalizing Δ T with
  | hole => cases h
  | lit v =>
      cases h
      exact .lit v
  | var x =>
      cases h with
      | var hx => exact .var hx
  | cond c t e ihc iht ihe =>
      rcases Term.annotated_cond.1 heq with ⟨heqc, heqt, heqe⟩
      cases h with
      | cond hc ht he htest hbranches =>
          exact .cond (ihc heqc hc) (iht heqt ht) (ihe heqe he) htest hbranches
  | binop op l r ihl ihr =>
      rcases Term.annotated_binop.1 heq with ⟨heql, heqr⟩
      cases h with
      | operator hop hl hr hleft hright =>
          exact .operator hop (ihl heql hl) (ihr heqr hr) hleft hright
      | equality hop hl hr hoperands => exact .equality hop (ihl heql hl) (ihr heqr hr) hoperands
  | lam ps b ihb =>
      rcases Term.annotated_lam.1 heq with ⟨heqps, heqb⟩
      cases h with
      | lam hdeclared hb => exact .lam (hdeclared.congr heqps) (ihb heqb hb)
  | app f args ihf ihargs =>
      rcases Term.annotated_app.1 heq with ⟨heqf, heqargs⟩
      cases h with
      | app hf hargs hfunction =>
          exact .app (ihf heqf hf) (hargs.congr fun a ha _ => ihargs a ha (heqargs a ha)) hfunction
  | letIn bs b ihbs ihb =>
      rcases Term.annotated_letIn.1 heq with ⟨heqvs, heqbs, heqb⟩
      cases h with
      | letIn hvalues hdeclared hb =>
          refine .letIn (hvalues.congr ?_) (hdeclared.congr heqbs) (ihb heqb hb)
          intro v hv _
          obtain ⟨x, hx, rfl⟩ := List.mem_map.1 hv
          exact ihbs x hx (heqvs x hx)
  | letRec bs b ihbs ihb =>
      rcases Term.annotated_letRec.1 heq with ⟨heqvs, heqbs, heqb⟩
      cases h with
      | letRec hvalues hdeclared hb =>
          refine .letRec (hvalues.congr ?_) (hdeclared.congr heqbs) (ihb heqb hb)
          intro v hv _
          obtain ⟨x, hx, rfl⟩ := List.mem_map.1 hv
          exact ihbs x hx (heqvs x hx)

end Monotype
