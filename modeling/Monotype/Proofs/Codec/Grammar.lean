import Mathlib.Logic.Relation
import Monotype.Codec.Basic

/-!
# The grammar of written terms

Which JSON values stand for types and terms, said without reading them: `Json.IsType` and
`Json.IsTerm`.  A node is an object, its tag is its `node` member, and the tag says which other
members it needs; more members may be there.

`Json.Below` and `Json.Inside` relate a value to the values that contain it.  What is below nests
less deeply (`depth_lt_of_below`), and what is inside something that can be shown can be shown
(`isShowable_of_inside`).  `Json.Part` picks out those values below a node that should stand for
terms.
-/

namespace Monotype

open Relation (TransGen ReflTransGen)

namespace Json

/-! ## Types -/

def baseNames : List String := ["Int", "Float", "Bool"]

/-- The value stands for a type. -/
inductive IsType : Json → Prop where
  | base {name : String} (h : name ∈ baseNames) : IsType (.str name)
  | var {ms : List (Text × Json)} {i : Int} (h : get? ms "var" = some (.int i)) : IsType (.obj ms)
  | fn {ms : List (Text × Json)} {ps : List Json} {r : Json} (hvar : get? ms "var" = none)
      (hps : get? ms "params" = some (.arr ps)) (hr : get? ms "result" = some r)
      (params : ∀ p ∈ ps, IsType p) (result : IsType r) : IsType (.obj ms)

/-- Without a `var` member an object is a type exactly if it spells a function type. -/
theorem isType_fn_iff {ms : List (Text × Json)} (hvar : get? ms "var" = none) :
    IsType (.obj ms) ↔ ∃ ps r, get? ms "params" = some (.arr ps) ∧ get? ms "result" = some r ∧
      (∀ p ∈ ps, IsType p) ∧ IsType r := by
  constructor
  · intro h
    cases h with
    | var h => simp [hvar] at h
    | fn _ hps hr params result => exact ⟨_, _, hps, hr, params, result⟩
  · rintro ⟨ps, r, hps, hr, params, result⟩
    exact .fn hvar hps hr params result

/-- The annotation among the members is missing, null or a type. -/
def IsAnnotated (ms : List (Text × Json)) : Prop :=
  ∀ v, get? ms "annotation" = some v → v = .null ∨ v.IsType

/-! ## Terms -/

def symbols : List Text :=
  ["+", "-", "*", "/", "<", "<=", ">", ">=", "+.", "-.", "*.", "/.", "<.", "<=.", ">.", ">=.",
   "==", "!="]

/-- The value stands for a literal of the kind with that name.  Truth values are no integers, and an
integer may stand for a floating-point number. -/
inductive IsLiteral : Text → Json → Prop where
  | int (n : Int) : IsLiteral "Int" (.int n)
  | float (x : Binary64) : IsLiteral "Float" (.float x)
  | whole (n : Int) : IsLiteral "Float" (.int n)
  | bool (b : Bool) : IsLiteral "Bool" (.bool b)

/-- The literals, kind by kind. -/
theorem isLiteral_iff {kind : Text} {v : Json} :
    IsLiteral kind v ↔ (kind = "Int" ∧ ∃ n, v = .int n) ∨
      (kind = "Float" ∧ ((∃ x, v = .float x) ∨ ∃ n, v = .int n)) ∨
        (kind = "Bool" ∧ ∃ b, v = .bool b) := by
  constructor
  · intro h
    cases h <;> simp
  · rintro (⟨rfl, n, rfl⟩ | ⟨rfl, ⟨x, rfl⟩ | ⟨n, rfl⟩⟩ | ⟨rfl, b, rfl⟩)
    · exact .int n
    · exact .float x
    · exact .whole n
    · exact .bool b

/-- The value stands for a parameter. -/
inductive IsParam : Json → Prop where
  | name (x : Text) : IsParam (.str x)
  | object {ms : List (Text × Json)} {x : Text} (hname : get? ms "name" = some (.str x))
      (hdeclared : IsAnnotated ms) : IsParam (.obj ms)

def tag? (v : Json) : Option Json := v.member? "node"

def BindsLambda (v : Json) : Prop := (v.member? "value").bind tag? = some (.str "lambda")

mutual

/-- The value stands for a term. -/
inductive IsTerm : Json → Prop where
  | literal {ms : List (Text × Json)} {kind : Text} {v : Json}
      (hnode : get? ms "node" = some (.str "literal")) (hkind : get? ms "kind" = some (.str kind))
      (hvalue : get? ms "value" = some v) (value : IsLiteral kind v) : IsTerm (.obj ms)
  | var {ms : List (Text × Json)} {x : Text} (hnode : get? ms "node" = some (.str "var"))
      (hname : get? ms "name" = some (.str x)) : IsTerm (.obj ms)
  | cond {ms : List (Text × Json)} {c t e : Json} (hnode : get? ms "node" = some (.str "if"))
      (hc : get? ms "test" = some c) (ht : get? ms "then" = some t)
      (he : get? ms "else" = some e) (test : IsTerm c) (yes : IsTerm t) (no : IsTerm e) :
      IsTerm (.obj ms)
  | binop {ms : List (Text × Json)} {s : Text} {l r : Json}
      (hnode : get? ms "node" = some (.str "binop")) (hop : get? ms "op" = some (.str s))
      (hl : get? ms "lhs" = some l) (hr : get? ms "rhs" = some r) (symbol : s ∈ symbols)
      (lhs : IsTerm l) (rhs : IsTerm r) : IsTerm (.obj ms)
  | lambda {ms : List (Text × Json)} {ps : List Json} {b : Json}
      (hnode : get? ms "node" = some (.str "lambda")) (hps : get? ms "params" = some (.arr ps))
      (hb : get? ms "body" = some b) (params : ∀ p ∈ ps, IsParam p) (body : IsTerm b) :
      IsTerm (.obj ms)
  | app {ms : List (Text × Json)} {f : Json} {args : List Json}
      (hnode : get? ms "node" = some (.str "app")) (hf : get? ms "function" = some f)
      (hargs : get? ms "arguments" = some (.arr args)) (function : IsTerm f)
      (arguments : ∀ a ∈ args, IsTerm a) : IsTerm (.obj ms)
  | letIn {ms : List (Text × Json)} {bs : List Json} {b : Json}
      (hnode : get? ms "node" = some (.str "let")) (hbs : get? ms "bindings" = some (.arr bs))
      (hb : get? ms "body" = some b) (nonempty : bs ≠ []) (bindings : ∀ x ∈ bs, IsBinding x)
      (body : IsTerm b) : IsTerm (.obj ms)
  | letRec {ms : List (Text × Json)} {bs : List Json} {b : Json}
      (hnode : get? ms "node" = some (.str "letrec"))
      (hbs : get? ms "bindings" = some (.arr bs)) (hb : get? ms "body" = some b)
      (nonempty : bs ≠ []) (functions : ∀ x ∈ bs, x.BindsLambda)
      (bindings : ∀ x ∈ bs, IsBinding x) (body : IsTerm b) : IsTerm (.obj ms)

/-- The value stands for a binding of a name to a term. -/
inductive IsBinding : Json → Prop where
  | object {ms : List (Text × Json)} {x : Text} {v : Json}
      (hname : get? ms "name" = some (.str x)) (hvalue : get? ms "value" = some v)
      (value : IsTerm v) (hdeclared : IsAnnotated ms) : IsBinding (.obj ms)

end

section Nodes

variable {ms : List (Text × Json)}

/-- The members that make an object a term depend on its tag; here it is `literal`. -/
theorem isTerm_literal_iff (hnode : get? ms "node" = some (.str "literal")) :
    IsTerm (.obj ms) ↔ ∃ kind v, get? ms "kind" = some (.str kind) ∧
      get? ms "value" = some v ∧ IsLiteral kind v := by
  constructor
  · intro h
    cases h with
    | literal _ hkind hvalue value => exact ⟨_, _, hkind, hvalue, value⟩
    | _ => simp_all
  · rintro ⟨kind, v, hkind, hvalue, value⟩
    exact .literal hnode hkind hvalue value

theorem isTerm_var_iff (hnode : get? ms "node" = some (.str "var")) :
    IsTerm (.obj ms) ↔ ∃ x, get? ms "name" = some (.str x) := by
  constructor
  · intro h
    cases h with
    | var _ hname => exact ⟨_, hname⟩
    | _ => simp_all
  · rintro ⟨x, hname⟩
    exact .var hnode hname

theorem isTerm_cond_iff (hnode : get? ms "node" = some (.str "if")) :
    IsTerm (.obj ms) ↔ ∃ c t e, get? ms "test" = some c ∧ get? ms "then" = some t ∧
      get? ms "else" = some e ∧ IsTerm c ∧ IsTerm t ∧ IsTerm e := by
  constructor
  · intro h
    cases h with
    | cond _ hc ht he test yes no => exact ⟨_, _, _, hc, ht, he, test, yes, no⟩
    | _ => simp_all
  · rintro ⟨c, t, e, hc, ht, he, test, yes, no⟩
    exact .cond hnode hc ht he test yes no

theorem isTerm_binop_iff (hnode : get? ms "node" = some (.str "binop")) :
    IsTerm (.obj ms) ↔ ∃ s l r, get? ms "op" = some (.str s) ∧ get? ms "lhs" = some l ∧
      get? ms "rhs" = some r ∧ s ∈ symbols ∧ IsTerm l ∧ IsTerm r := by
  constructor
  · intro h
    cases h with
    | binop _ hop hl hr symbol lhs rhs => exact ⟨_, _, _, hop, hl, hr, symbol, lhs, rhs⟩
    | _ => simp_all
  · rintro ⟨s, l, r, hop, hl, hr, symbol, lhs, rhs⟩
    exact .binop hnode hop hl hr symbol lhs rhs

theorem isTerm_lambda_iff (hnode : get? ms "node" = some (.str "lambda")) :
    IsTerm (.obj ms) ↔ ∃ ps b, get? ms "params" = some (.arr ps) ∧ get? ms "body" = some b ∧
      (∀ p ∈ ps, IsParam p) ∧ IsTerm b := by
  constructor
  · intro h
    cases h with
    | lambda _ hps hb params body => exact ⟨_, _, hps, hb, params, body⟩
    | _ => simp_all
  · rintro ⟨ps, b, hps, hb, params, body⟩
    exact .lambda hnode hps hb params body

theorem isTerm_app_iff (hnode : get? ms "node" = some (.str "app")) :
    IsTerm (.obj ms) ↔ ∃ f args, get? ms "function" = some f ∧
      get? ms "arguments" = some (.arr args) ∧ IsTerm f ∧ ∀ a ∈ args, IsTerm a := by
  constructor
  · intro h
    cases h with
    | app _ hf hargs function arguments => exact ⟨_, _, hf, hargs, function, arguments⟩
    | _ => simp_all
  · rintro ⟨f, args, hf, hargs, function, arguments⟩
    exact .app hnode hf hargs function arguments

theorem isTerm_letIn_iff (hnode : get? ms "node" = some (.str "let")) :
    IsTerm (.obj ms) ↔ ∃ bs b, get? ms "bindings" = some (.arr bs) ∧ get? ms "body" = some b ∧
      (bs ≠ []) ∧ (∀ x ∈ bs, IsBinding x) ∧ IsTerm b := by
  constructor
  · intro h
    cases h with
    | letIn _ hbs hb nonempty bindings body => exact ⟨_, _, hbs, hb, nonempty, bindings, body⟩
    | _ => simp_all
  · rintro ⟨bs, b, hbs, hb, nonempty, bindings, body⟩
    exact .letIn hnode hbs hb nonempty bindings body

theorem isTerm_letRec_iff (hnode : get? ms "node" = some (.str "letrec")) :
    IsTerm (.obj ms) ↔ ∃ bs b, get? ms "bindings" = some (.arr bs) ∧ get? ms "body" = some b ∧
      (bs ≠ [] ∧ ∀ x ∈ bs, x.BindsLambda) ∧ (∀ x ∈ bs, IsBinding x) ∧ IsTerm b := by
  constructor
  · intro h
    cases h with
    | letRec _ hbs hb nonempty functions bindings body =>
        exact ⟨_, _, hbs, hb, ⟨nonempty, functions⟩, bindings, body⟩
    | _ => simp_all
  · rintro ⟨bs, b, hbs, hb, ⟨nonempty, functions⟩, bindings, body⟩
    exact .letRec hnode hbs hb nonempty functions bindings body

end Nodes

/-! ## What a value contains -/

def Child (v d : Json) : Prop := v ∈ d.items ∨ ∃ key, (key, v) ∈ d.members

def Below : Json → Json → Prop := TransGen Child

/-- The value is the other or is contained in it. -/
def Inside : Json → Json → Prop := ReflTransGen Child

theorem child_of_mem {v : Json} {items : List Json} (h : v ∈ items) : Child v (.arr items) :=
  Or.inl h

theorem child_of_lookup {v : Json} {ms : List (Text × Json)} {key : Text}
    (h : get? ms key = some v) : Child v (.obj ms) := by
  obtain ⟨before, after, hms, _⟩ := List.lookup_eq_some_iff.1 h
  exact Or.inr ⟨key, by simp [members, hms]⟩

theorem below_of_lookup {v : Json} {ms : List (Text × Json)} {key : Text}
    (h : get? ms key = some v) : Below v (.obj ms) :=
  .single (child_of_lookup h)

theorem below_of_mem_lookup {v : Json} {items : List Json} {ms : List (Text × Json)} {key : Text}
    (hitems : get? ms key = some (.arr items)) (h : v ∈ items) : Below v (.obj ms) :=
  .tail (.single (child_of_mem h)) (child_of_lookup hitems)

theorem Below.inside {v d : Json} (h : Below v d) : Inside v d := h.to_reflTransGen

/-- A part of a value nests less deeply than the value. -/
theorem depth_lt_of_child {v d : Json} (h : Child v d) : v.depth < d.depth := by
  rcases h with h | ⟨key, h⟩
  · cases d with
    | arr items =>
        have hle : ∀ vs : List Json, v ∈ vs → v.depth ≤ depthOfItems vs := by
          intro vs hv
          induction vs with
          | nil => cases hv
          | cons w vs ih =>
              rcases List.mem_cons.1 hv with rfl | hv
              · exact Nat.le_max_left _ _
              · exact Nat.le_trans (ih hv) (Nat.le_max_right _ _)
        exact Nat.lt_succ_of_le (hle items h)
    | _ => simp [items] at h
  · cases d with
    | obj ms =>
        have hle : ∀ ms : List (Text × Json), (key, v) ∈ ms → v.depth ≤ depthOfMembers ms := by
          intro ms hv
          induction ms with
          | nil => cases hv
          | cons m ms ih =>
              rcases List.mem_cons.1 hv with rfl | hv
              · exact Nat.le_max_left _ _
              · exact Nat.le_trans (ih hv) (Nat.le_max_right _ _)
        exact Nat.lt_succ_of_le (hle ms h)
    | _ => simp [members] at h

/-- Whatever is contained in a value nests less deeply. -/
theorem depth_lt_of_below {v d : Json} (h : Below v d) : v.depth < d.depth := by
  induction h with
  | single h => exact depth_lt_of_child h
  | tail _ h ih => exact Nat.lt_trans ih (depth_lt_of_child h)

theorem depth_le_of_inside {v d : Json} (h : Inside v d) : v.depth ≤ d.depth := by
  rcases Relation.reflTransGen_iff_eq_or_transGen.1 h with rfl | h
  · exact Nat.le_refl _
  · exact Nat.le_of_lt (depth_lt_of_below h)

/-- A part of a value that can be shown can be shown. -/
theorem isShowable_of_child {v d : Json} (h : Child v d) (hd : d.toDocument.isShowable) :
    v.toDocument.isShowable := by
  rcases h with h | ⟨key, h⟩
  · cases d with
    | arr items =>
        have hall : ∀ vs : List Json, v ∈ vs → Document.areShowable (toDocuments vs) →
            v.toDocument.isShowable := by
          intro vs hv hvs
          induction vs with
          | nil => cases hv
          | cons w vs ih =>
              have hparts := Bool.and_eq_true_iff.1 hvs
              rcases List.mem_cons.1 hv with rfl | hv
              · exact hparts.1
              · exact ih hv hparts.2
        exact hall items h hd
    | _ => simp [items] at h
  · cases d with
    | obj ms =>
        have hall : ∀ ms : List (Text × Json), (key, v) ∈ ms →
            Document.entriesShowable (toEntries ms) → v.toDocument.isShowable := by
          intro ms hv hms
          induction ms with
          | nil => cases hv
          | cons m ms ih =>
              have hparts := Bool.and_eq_true_iff.1 hms
              rcases List.mem_cons.1 hv with rfl | hv
              · exact (Bool.and_eq_true_iff.1 hparts.1).2
              · exact ih hv hparts.2
        exact hall ms h hd
    | _ => simp [members] at h

/-- Whatever is inside a value that can be shown can be shown. -/
theorem isShowable_of_inside {v d : Json} (h : Inside v d) (hd : d.toDocument.isShowable) :
    v.toDocument.isShowable := by
  induction h with
  | refl => exact hd
  | tail _ h ih => exact ih (isShowable_of_child h hd)

/-! ## Parts of a node -/

def termKeys : List (Text × String) :=
  [("if", "test"), ("if", "then"), ("if", "else"), ("binop", "lhs"), ("binop", "rhs"),
   ("lambda", "body"), ("app", "function"), ("let", "body"), ("letrec", "body")]

/-- The value stands in a node where a term is expected. -/
inductive Part : Json → Json → Prop where
  | member {ms : List (Text × Json)} {tag : Text} {key : String} {v : Json}
      (hnode : get? ms "node" = some (.str tag)) (hkey : (tag, key) ∈ termKeys)
      (h : get? ms key = some v) : Part v (.obj ms)
  | argument {ms : List (Text × Json)} {args : List Json} {v : Json}
      (hnode : get? ms "node" = some (.str "app")) (hargs : get? ms "arguments" = some (.arr args))
      (h : v ∈ args) : Part v (.obj ms)
  | value {ms xs : List (Text × Json)} {tag : Text} {bs : List Json} {v : Json}
      (hnode : get? ms "node" = some (.str tag)) (htag : tag = "let" ∨ tag = "letrec")
      (hbs : get? ms "bindings" = some (.arr bs)) (hx : .obj xs ∈ bs)
      (h : get? xs "value" = some v) : Part v (.obj ms)

/-- A term part of a node is contained in it. -/
theorem Part.below {v d : Json} (h : Part v d) : Below v d := by
  cases h with
  | member _ _ h => exact below_of_lookup h
  | argument _ hargs h => exact below_of_mem_lookup hargs h
  | value _ _ hbs hx h => exact (below_of_lookup h).trans (below_of_mem_lookup hbs hx)

/-- Some `Float` literal holds an integer that is beyond the largest floating-point number. -/
inductive HasLargeFloat : Json → Prop where
  | literal {ms : List (Text × Json)} {n : Int} (hnode : get? ms "node" = some (.str "literal"))
      (hkind : get? ms "kind" = some (.str "Float")) (hvalue : get? ms "value" = some (.int n))
      (large : Binary64.ofInt? n = none) : HasLargeFloat (.obj ms)
  | part {v d : Json} (h : Part v d) (large : HasLargeFloat v) : HasLargeFloat d

end Json

end Monotype
