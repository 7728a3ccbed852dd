import Monotype.Proofs.Typing.FirstFault
import Monotype.Proofs.TypedTerm.Listing

/-!
# The types of bound names

A node of the typed tree lists the names that it binds, with their types.  The list is used in three
ways: the scope of the node is made of it, the JSON form of the node holds it as an object, and
`TypedTerm.boundType?` looks a name up in it.

`Term.RefersTo` says, in terms of the rules of scope alone, which variables below a term refer to a
name that the term binds.  Such a variable has the type that stands in the last place of its name
(`Derives.exists_variable_of_refersTo`), and so says the JSON form
(`TypedTerm.member?_bound_toJson`).  Looking the name up finds its first place.  This is the same
unless one binder repeats the name.

Main statement: `Term.boundTypes_of_infer_or_check`; what happens to a repeated name is shown by
`Term.boundType?_of_twiceBound`.
-/

namespace Monotype

/-! ## Variables and their binders -/

namespace Term

/-- The names that the term itself binds, in order. -/
def boundNames : Term → List Text
  | .lam ps _ => ps.map Param.name
  | .letIn bs _ | .letRec bs _ => bs.map Binding.name
  | _ => []

/-- At the end of the path stands a variable that refers to the name as the term itself binds it:
the term binds the name over the part that the path leads into, and nothing further down the path
binds it again. -/
def RefersTo (t : Term) (x : Text) : List Nat → Prop
  | [] => False
  | i :: path => ∃ names u inner,
      t.parts[i]? = some (names, u) ∧ x ∈ names ∧ u.locate? path = some (inner, .var x) ∧ x ∉ inner

end Term

/-! ## Contexts -/

namespace Context

variable {Δ : Context} {bound : List (Text × Ty)} {x : Text}

/-- A binder does not change the type of a name that it does not bind. -/
theorem extend_of_notMem (hx : x ∉ bound.map Prod.fst) : Δ.extend bound x = Δ x := by
  have hnone : bound.reverse.lookup x = none := by
    rw [List.lookup_eq_none_iff]
    intro b hb
    have hne : x ≠ b.1 := fun hxb => hx (hxb ▸ List.mem_map_of_mem (List.mem_reverse.1 hb))
    simpa using hne
  simp [extend, hnone]

/-- Of a name in the list the last place counts. -/
theorem extend_of_mem (hx : x ∈ bound.map Prod.fst) :
    (bound.reverse.lookup x).isSome ∧ Δ.extend bound x = bound.reverse.lookup x := by
  obtain ⟨b, hb, rfl⟩ := List.mem_map.1 hx
  have hsome : (bound.reverse.lookup b.1).isSome :=
    List.lookup_isSome_iff.2 ⟨b, List.mem_reverse.2 hb, by simp⟩
  obtain ⟨τ, hτ⟩ := Option.isSome_iff_exists.1 hsome
  exact ⟨hsome, by simp [extend, hτ]⟩

end Context

/-! ## Derivations part by part -/

/-- There is a type for every place that may have an annotation. -/
theorem Agrees.length_eq {read : Ty → Option Ty} {ds : List (Option Ty)} {τs : List Ty}
    (h : Agrees read ds τs) : ds.length = τs.length := by
  induction ds generalizing τs with
  | nil =>
      cases τs with
      | nil => rfl
      | cons τ τs => exact h.elim
  | cons d ds ih =>
      cases τs with
      | nil => exact h.elim
      | cons τ τs => simp [ih h.2]

/-- The tree of a part is a derivation of the part.  Names that the term binds over the part have
the types that the root of the tree lists for them. -/
def DerivesPart (read : Ty → Option Ty) (Δ : Context) (T : TypedTerm) (part : List Text × Term)
    (C : TypedTerm) : Prop :=
  ∃ bound, Derives read (Δ.extend bound) part.2 C ∧ bound.map Prod.fst = part.1 ∧
    (part.1 ≠ [] → bound = T.bound)

section Parts

variable {read : Ty → Option Ty} {Δ : Context} {t : Term} {T : TypedTerm}

/-- A part over which nothing is bound is derived in the context of the whole. -/
theorem DerivesPart.outside {u : Term} {C : TypedTerm} (h : Derives read Δ u C) :
    DerivesPart read Δ T ([], u) C := by
  refine ⟨[], ?_, rfl, fun hne => absurd rfl hne⟩
  have hsame : Δ.extend [] = Δ := funext fun x => by simp [Context.extend]
  rwa [hsame]

/-- A part over which all names are bound is derived in the extended context. -/
theorem DerivesPart.inside {u : Term} {C : TypedTerm} {names : List Text}
    (h : Derives read (Δ.extend T.bound) u C) (hnames : T.bound.map Prod.fst = names) :
    DerivesPart read Δ T (names, u) C :=
  ⟨T.bound, h, hnames, fun _ => rfl⟩

theorem DerivesAll.forall₂ {R : List Text × Term → TypedTerm → Prop} {names : List Text}
    {ts : List Term} {Ts : List TypedTerm} (h : DerivesAll read Δ ts Ts)
    (hR : ∀ {u C}, Derives read Δ u C → R (names, u) C) :
    List.Forall₂ R (ts.map fun t => (names, t)) Ts := by
  induction ts generalizing Ts with
  | nil =>
      cases h
      exact .nil
  | cons t ts ih =>
      cases h with
      | cons head tail => exact .cons (hR head) (ih tail)

/-- The root of a derivation carries the term. -/
theorem Derives.term_eq (h : Derives read Δ t T) : T.term = t := by
  cases h <;> rfl

/-- The root of a derivation lists the names that the term binds, in order. -/
theorem Derives.map_fst_bound (h : Derives read Δ t T) : T.bound.map Prod.fst = t.boundNames := by
  cases h with
  | lit _ | var _ | cond _ _ _ _ _ | operator _ _ _ _ _ | equality _ _ _ _ | app _ _ _ => rfl
  | lam hdeclared _ =>
      have hlen := hdeclared.length_eq
      rw [List.length_map] at hlen
      exact List.map_fst_zip (by simp [hlen])
  | letIn hvalues _ _ =>
      have hlen := hvalues.length_eq
      rw [List.length_map] at hlen
      exact List.map_fst_zip (by simp [hlen])
  | letRec hvalues _ _ =>
      have hlen := hvalues.length_eq
      rw [List.length_map] at hlen
      exact List.map_fst_zip (by simp [hlen])

/-- The children of the root are the trees of the parts, in order. -/
theorem Derives.parts (h : Derives read Δ t T) :
    List.Forall₂ (DerivesPart read Δ T) t.parts T.children := by
  have hnames := h.map_fst_bound
  cases h with
  | lit _ | var _ => exact .nil
  | cond hc ht he _ _ => exact .cons (.outside hc) (.cons (.outside ht) (.cons (.outside he) .nil))
  | operator _ hl hr _ _ => exact .cons (.outside hl) (.cons (.outside hr) .nil)
  | equality _ hl hr _ => exact .cons (.outside hl) (.cons (.outside hr) .nil)
  | lam _ hb => exact .cons (.inside hb hnames) .nil
  | app hf hargs _ => exact .cons (.outside hf) (hargs.forall₂ .outside)
  | letIn hvalues _ hb =>
      refine List.rel_append ?_ (.cons (.inside hb hnames) .nil)
      simpa only [List.map_map, Function.comp_def] using hvalues.forall₂ .outside
  | letRec hvalues _ hb =>
      refine List.rel_append ?_ (.cons (.inside hb hnames) .nil)
      simpa only [List.map_map, Function.comp_def] using hvalues.forall₂ fun hv => .inside hv hnames

/-- Every part of a term has its derivation among the children, in the context that its scope asks
for. -/
theorem Derives.part (h : Derives read Δ t T) {i : Nat} {part : List Text × Term}
    (hpart : t.parts[i]? = some part) :
    ∃ C, T.children[i]? = some C ∧ DerivesPart read Δ T part C := by
  obtain ⟨hlen, hparts⟩ := List.forall₂_iff_get.1 h.parts
  obtain ⟨hi, rfl⟩ := List.getElem?_eq_some_iff.1 hpart
  have hi' : i < T.children.length := hlen ▸ hi
  exact ⟨T.children[i], List.getElem?_eq_getElem hi', hparts i hi hi'⟩

/-- Every child of a derivation is a derivation itself. -/
theorem Derives.child (h : Derives read Δ t T) {i : Nat} {C : TypedTerm}
    (hC : T.children[i]? = some C) :
    ∃ Δ' u, Derives read Δ' u C := by
  obtain ⟨hlen, hparts⟩ := List.forall₂_iff_get.1 h.parts
  obtain ⟨hi, rfl⟩ := List.getElem?_eq_some_iff.1 hC
  obtain ⟨bound, hpart, _⟩ := hparts i (hlen ▸ hi) hi
  exact ⟨_, _, hpart⟩

/-- Every node of a derivation is a derivation of its own term. -/
theorem Derives.node (h : Derives read Δ t T) {path : List Nat} {n : TypedTerm}
    (hn : T.at? path = some n) :
    ∃ Δ', Derives read Δ' n.term n := by
  induction path generalizing Δ t T with
  | nil =>
      cases hn
      exact ⟨Δ, h.term_eq.symm ▸ h⟩
  | cons i path ih =>
      obtain ⟨C, hC, hn'⟩ := Option.bind_eq_some_iff.1 hn
      obtain ⟨Δ', u, hpart⟩ := h.child hC
      exact ih hpart hn'

/-- A variable that nothing on the way to it binds has the type that the context gives it. -/
theorem Derives.exists_variable (h : Derives read Δ t T) {path : List Nat} {inner : List Text}
    {x : Text} (hfound : t.locate? path = some (inner, .var x)) (hfree : x ∉ inner) :
    ∃ v, T.at? path = some v ∧ v.term = .var x ∧ Δ x = some v.type := by
  induction path generalizing Δ t T inner with
  | nil =>
      cases hfound
      cases h with
      | var hx => exact ⟨_, rfl, rfl, hx⟩
  | cons i path ih =>
      obtain ⟨names, u, rest, hpart, hfound', rfl⟩ := Term.locate?_cons.1 hfound
      obtain ⟨hnames, hrest⟩ : x ∉ names ∧ x ∉ rest := by simpa using hfree
      obtain ⟨C, hC, bound, hu, rfl, _⟩ := h.part hpart
      obtain ⟨v, hv, hterm, hx⟩ := ih hu hfound' hrest
      rw [Context.extend_of_notMem hnames] at hx
      exact ⟨v, by simp [TypedTerm.at?, hC, hv], hterm, hx⟩

/-- A variable that refers to a name of the root has the type in the last place of that name. -/
theorem Derives.exists_variable_of_refersTo (h : Derives read Δ t T) {path : List Nat} {x : Text}
    (href : t.RefersTo x path) :
    ∃ v, T.at? path = some v ∧ v.term = .var x ∧ T.bound.reverse.lookup x = some v.type := by
  cases path with
  | nil => exact href.elim
  | cons i path =>
      obtain ⟨names, u, inner, hpart, hx, hfound, hfree⟩ := href
      obtain ⟨C, hC, bound, hu, rfl, hbound⟩ := h.part hpart
      obtain ⟨v, hv, hterm, htype⟩ := hu.exists_variable hfound hfree
      rw [(Context.extend_of_mem hx).2, hbound (List.ne_nil_of_mem hx)] at htype
      exact ⟨v, by simp [TypedTerm.at?, hC, hv], hterm, htype⟩

end Parts

/-! ## The list of bound names -/

namespace TypedTerm

variable {n : TypedTerm} {x : Text}

/-- The JSON form of a node gives a name the type in its last place. -/
theorem member?_bound_toJson (hx : x ∈ n.bound.map Prod.fst) :
    (n.toJson.member? "bound").bind (Json.member? x) =
      (n.bound.reverse.lookup x).map fun τ => .str τ.text := by
  rcases n with ⟨term, type, children, bound⟩
  have hnames : (bound.map fun b => (b.1, Json.str b.2.text)).isEmpty = false := by
    cases bound with
    | nil => simp [TypedTerm.bound] at hx
    | cons b bound => rfl
  have hmember : ((node term type children bound).toJson).member? "bound" =
      some (.obj (Entries.putAll [] (bound.map (Prod.map id fun τ => Json.str τ.text)))) := by
    simp only [toJson, hnames, Json.member?, Entries.lookup_cons]
    rfl
  rw [hmember, Option.bind_some, Json.member?, Json.get?, Entries.lookup_putAll, List.lookup_nil,
    Option.or_none, ← List.map_reverse, Entries.lookup_map_value]
  rfl

/-- A name that is not repeated is looked up in its only place. -/
theorem boundType?_of_count (h : (n.bound.map Prod.fst).count x ≤ 1) :
    n.boundType? x = n.bound.reverse.lookup x :=
  (Entries.lookup_reverse h).symm

/-- A name has a type at the root if all entries for it agree. -/
theorem boundType?_of_forall (hx : x ∈ n.bound.map Prod.fst) {τ : Ty}
    (h : ∀ τ', (x, τ') ∈ n.bound → τ' = τ) : n.boundType? x = some τ := by
  obtain ⟨b, hb, rfl⟩ := List.mem_map.1 hx
  obtain ⟨τ', hτ'⟩ :=
    Option.isSome_iff_exists.1 (List.lookup_isSome_iff.2 ⟨b, hb, beq_self_eq_true b.1⟩)
  obtain ⟨before, after, hbound, _⟩ := List.lookup_eq_some_iff.1 hτ'
  rw [boundType?, hτ', h τ' (by simp [hbound])]

end TypedTerm

/-! ## Main statement -/

namespace Term

/-- A node of the tree that inference answers, with or without limits, lists the names that its term
binds.  For each of them one type is that of all variables that refer to the name as this node binds
it, and is what the JSON form of the node says.  If the node binds the name only once, or always
with this type, then looking it up gives it too. -/
theorem boundTypes_of_infer_or_check (Γ : Scope) (t : Term) (r : Inference)
    (h : t.infer Γ = .ok r ∨ (t.check Γ).2 = .ok r) (path : List Nat) (n : TypedTerm)
    (hn : r.tree.at? path = some n) :
    n.bound.map Prod.fst = n.term.boundNames ∧
    ∀ x ∈ n.term.boundNames, ∃ τ,
      (∀ below, n.term.RefersTo x below → ∃ v, n.at? below = some v ∧ v.term = .var x ∧
        v.type = τ) ∧
      (n.toJson.member? "bound").bind (Json.member? x) = some (.str τ.text) ∧
      (n.term.boundNames.count x = 1 ∨ (∀ τ', (x, τ') ∈ n.bound → τ' = τ) →
        n.boundType? x = some τ) := by
  obtain ⟨g, s, hfrom, hsolve, htree, -⟩ := exists_solve_of_infer_or_check h
  have hderives := derives_of_generate r.solution.assign t hfrom (holds_of_solve hsolve)
  rw [← htree] at hderives
  obtain ⟨Δ, hnode⟩ := hderives.node hn
  have hnames := hnode.map_fst_bound
  refine ⟨hnames, fun x hx => ?_⟩
  have hbound : x ∈ n.bound.map Prod.fst := hnames.symm ▸ hx
  -- The type that a look-up finds below the node is the same whatever stands around it.
  obtain ⟨τ, hτ⟩ := Option.isSome_iff_exists.1 (Context.extend_of_mem (Δ := Δ) hbound).1
  refine ⟨τ, ?_, ?_, ?_⟩
  · intro below href
    obtain ⟨v, hv, hterm, htype⟩ := hnode.exists_variable_of_refersTo href
    exact ⟨v, hv, hterm, Option.some.inj (htype.symm.trans hτ)⟩
  · rw [TypedTerm.member?_bound_toJson hbound, hτ]
    rfl
  · rintro (honce | hall)
    · rw [TypedTerm.boundType?_of_count (by rw [hnames, honce]), hτ]
    · exact TypedTerm.boundType?_of_forall hbound hall

/-- A parameter whose name is bound again inside: `fun x -> let x = x == 1 in if x then x else
x`. -/
def boundAgain : Term :=
  .lam [⟨"x", none⟩] (.letIn [⟨"x", none, .binop .equal (.var "x") (.lit (.int 1))⟩]
    (.cond (.var "x") (.var "x") (.var "x")))

/-- Only the value of the `let` refers to the parameter, which is a number; the test and the
branches refer to the name of the `let`, which is a truth value. -/
theorem boundTypes_of_boundAgain :
    ∃ r n, boundAgain.infer .empty = .ok r ∧ r.tree.at? [0] = some n ∧
      boundAgain.RefersTo "x" [0, 0, 0] ∧ r.tree.boundType? "x" = some .int ∧
      (∃ v, r.tree.at? [0, 0, 0] = some v ∧ v.term = .var "x" ∧ v.type = .int) ∧
      n.term.RefersTo "x" [1, 2] ∧ n.boundType? "x" = some .bool ∧
      ∃ v, n.at? [1, 2] = some v ∧ v.term = .var "x" ∧ v.type = .bool := by
  let inner : TypedTerm := .node (.letIn [⟨"x", none, .binop .equal (.var "x") (.lit (.int 1))⟩]
    (.cond (.var "x") (.var "x") (.var "x"))) .bool
    [.node (.binop .equal (.var "x") (.lit (.int 1))) .bool
      [.leaf (.var "x") .int, .leaf (.lit (.int 1)) .int] [],
      .node (.cond (.var "x") (.var "x") (.var "x")) .bool
        [.leaf (.var "x") .bool, .leaf (.var "x") .bool, .leaf (.var "x") .bool] []] [("x", .bool)]
  let σ : Subst := ⟨[(0, .int)], by decide⟩
  obtain ⟨g, s, hfrom, hsides, hread⟩ : ∃ g s,
      boundAgain.generateFrom .empty .initial = (.ok g, s) ∧
        g.equations.map (fun e => (e.left, e.right)) =
          [(.var 0, .int), (.bool, .bool), (.bool, .bool)] ∧
        g.trees.mapTypes (Ty.bind σ.assign) =
          .node boundAgain (.fn [.int] .bool) [inner] [("x", .int)] := ⟨_, _, rfl, rfl, rfl⟩
  have hsolve : (solve none g.equations).outcome = .ok σ := solveFrom_ok_of_sides hsides (by cbv)
  obtain ⟨r, hsolved⟩ := Generated.exists_infer_of_solve hsolve
  have hr : boundAgain.infer .empty = .ok r := by
    simpa only [infer, inferTraced, hfrom] using hsolved
  obtain ⟨g', s', hfrom', hsolve', htree, -⟩ := exists_solve_of_infer_or_check (Or.inl hr)
  cases hfrom.symm.trans hfrom'
  rw [← Except.ok.inj (hsolve.symm.trans hsolve'), hread] at htree
  have houter : boundAgain.RefersTo "x" [0, 0, 0] := ⟨["x"], _, [], rfl, by decide, rfl, by decide⟩
  have hinner : inner.term.RefersTo "x" [1, 2] := ⟨["x"], _, [], rfl, by decide, rfl, by decide⟩
  have hat : r.tree.at? [0] = some inner := by rw [htree]; rfl
  have hroot := (boundTypes_of_infer_or_check .empty boundAgain r (Or.inl hr) [] r.tree rfl).2
  have hlet := (boundTypes_of_infer_or_check .empty boundAgain r (Or.inl hr) [0] inner hat).2
  rw [htree] at hroot
  obtain ⟨τ, hvariable, _, hlookup⟩ := hroot "x" (by decide)
  obtain ⟨τ', hvariable', _, hlookup'⟩ := hlet "x" (by decide)
  have hint : some Ty.int = some τ := hlookup (Or.inl (by decide))
  have hbool : some Ty.bool = some τ' := hlookup' (Or.inl (by decide))
  obtain rfl := Option.some.inj hint
  obtain rfl := Option.some.inj hbool
  refine ⟨r, inner, hr, hat, houter, ?_, ?_, hinner, rfl, hvariable' _ hinner⟩
  · rw [htree]
    rfl
  · rw [htree]
    exact hvariable _ houter

/-- Two parameters of one name: `fun (x : Int) (x : Bool) -> x`. -/
def twiceBound : Term := .lam [⟨"x", some .int⟩, ⟨"x", some .bool⟩] (.var "x")

/-- The body sees the second parameter, and the JSON form of the node says so; looking the name up
gives the type of the first one. -/
theorem boundType?_of_twiceBound :
    ∃ r v, twiceBound.infer .empty = .ok r ∧ (twiceBound.check .empty).2 = .ok r ∧
      twiceBound.RefersTo "x" [0] ∧ r.tree.at? [0] = some v ∧ v.type = .bool ∧
      (r.tree.toJson.member? "bound").bind (Json.member? "x") = some (.str "Bool") ∧
      r.tree.boundType? "x" = some .int := by
  refine ⟨⟨.fn [.int, .bool] .bool, .empty,
    .node twiceBound (.fn [.int, .bool] .bool) [.leaf (.var "x") .bool]
    [("x", .int), ("x", .bool)], [], 0⟩, .leaf (.var "x") .bool, ?_, ?_, ?_, ?_, ?_, ?_, ?_⟩
  · rfl
  · rfl
  · exact ⟨["x", "x"], .var "x", [], rfl, by decide, rfl, by decide⟩
  · rfl
  · rfl
  · rfl
  · rfl

end Term

end Monotype
