import Monotype.Codec.Malformed

/-!
# Terms and types as JSON values

Terms are objects with a tag in their `node` member:

- `literal` with `kind` and `value`; an integer may stand for a floating-point number;
- `var` with `name`; `if` with `test`, `then`, `else`; `binop` with `op`, `lhs`, `rhs`;
- `lambda` with `params`, names or objects with `name` and `annotation`, and `body`;
- `app` with `function` and `arguments`;
- `let` and `letrec` with `bindings`, objects with `name`, `value` and `annotation`, and `body`.

Types are the names `Int`, `Float`, `Bool`, objects with an integer `var`, or objects with `params`
and `result`.  An annotation may be missing or null.  Members that a node does not use are ignored.

Reading checks the members of a node in the order above, and the node as a whole after its parts.
It has a budget for the nesting depth and refuses what nests deeper.  `Term.decode` and `Ty.decode`
also refuse to show a value that nests deeper, so that a value of any depth is refused in the end.
-/

namespace Monotype

inductive DecodeFault where
  | malformed (cause : Malformed)
  | tooDeep
  -- An integer that stands for a floating-point number is beyond the largest one.
  | overflow

/-- The fault, if its wording shows nothing that nests deeper than a limit. -/
def DecodeFault.within (limit : Nat) : DecodeFault → DecodeFault
  | .malformed m => if m.isShowable limit then .malformed m else .tooDeep
  | fault => fault

def Malformed.stop {α : Type} (m : Malformed) : Except DecodeFault α := .error (.malformed m)

/-! ## Types -/

namespace Ty

def ofBaseName? (name : Text) : Option Ty :=
  (LiteralKind.ofName? name).map LiteralKind.type

def ofJson : Nat → Json → Except DecodeFault Ty
  | 0, _ => .error .tooDeep
  | _ + 1, .str name =>
      match ofBaseName? name with
      | some t => .ok t
      | none => Malformed.stop (.unknownBase name)
  | n + 1, .obj ms =>
      match Json.get? ms "var" with
      | some (.int i) => .ok (.var i)
      | some v => Malformed.stop (.badVariable v)
      | none =>
          match Json.get? ms "params", Json.get? ms "result" with
          | some (.arr ps), some r => do
              let params ← ps.mapM (ofJson n)
              let result ← ofJson n r
              return .fn params result
          | some _, some _ => Malformed.stop (.notList "params")
          | _, _ => Malformed.stop (.notType (.obj ms))
  | _ + 1, v => Malformed.stop (.notType v)

def decode (limit : Nat) (v : Json) : Except DecodeFault Ty :=
  (ofJson limit v).mapError (.within limit)

mutual

def toJson : Ty → Except Malformed Json
  | .unknown => .error .unwritableType
  | .var i => .ok (.obj [("var", .int i)])
  | .const c => .ok (.str c)
  | .fn ps r => do
      let params ← toJsons ps
      let result ← toJson r
      return .obj [("params", .arr params), ("result", result)]

def toJsons : List Ty → Except Malformed (List Json)
  | [] => .ok []
  | t :: ts => do
      let v ← toJson t
      let vs ← toJsons ts
      return v :: vs

end

end Ty

/-! ## Reading terms -/

namespace Json

def required (ms : List (Text × Json)) (key : String) : Except DecodeFault Json :=
  match Json.get? ms key with
  | some v => .ok v
  | none => Malformed.stop (.missing (Json.get? ms "node") key)

def requiredList (ms : List (Text × Json)) (key : String) : Except DecodeFault (List Json) := do
  match ← required ms key with
  | .arr items => return items
  | _ => Malformed.stop (.notList key)

def requiredText (ms : List (Text × Json)) (key : String) : Except DecodeFault Text := do
  match ← required ms key with
  | .str s => return s
  | _ => Malformed.stop (.notText key)

/-- The annotation of a parameter or binding, if there is one that is not null. -/
def declared (budget : Nat) (ms : List (Text × Json)) : Except DecodeFault (Option Ty) :=
  match Json.get? ms "annotation" with
  | none | some .null => .ok none
  | some v => (Ty.ofJson budget v).map some

end Json

namespace Literal

def ofJson? : LiteralKind → Json → Option Literal
  | .int, .int n => some (.int n)
  | .float, .float x => some (.float x)
  | .bool, .bool b => some (.bool b)
  | _, _ => none

def ofJson (kind : LiteralKind) (value : Json) : Except Malformed Literal :=
  match ofJson? kind value with
  | some v => .ok v
  | none => .error (.badLiteral kind value)

def toJson : Literal → Json
  | .int n => .int n
  | .float x => .float x
  | .bool b => .bool b

/-- A value as a literal of a kind takes it: an integer becomes a floating-point number. -/
def promote (kind : LiteralKind) (value : Json) : Except DecodeFault Json :=
  match kind, value with
  | .float, .int n =>
      match Binary64.ofInt? n with
      | some x => .ok (.float x)
      | none => .error .overflow
  | _, v => .ok v

def ofMembers (ms : List (Text × Json)) : Except DecodeFault Literal := do
  let kindValue ← Json.required ms "kind"
  let some kind := kindValue.text?.bind LiteralKind.ofName?
    | Malformed.stop (.unknownKind kindValue)
  let value ← Json.required ms "value"
  let value ← promote kind value
  (ofJson kind value).mapError .malformed

end Literal

namespace Param

def ofJson (budget : Nat) : Json → Except DecodeFault Param
  | .str name => .ok ⟨name, none⟩
  | .obj ms => do
      let name ← Json.requiredText ms "name"
      let declared ← Json.declared budget ms
      return ⟨name, declared⟩
  | _ => Malformed.stop .badParam

end Param

namespace Term

def fitted (t : Term) : Except Malformed Term :=
  match t.nodeFault? with
  | some fault => .error (.node fault)
  | none => .ok t

def bindingOfJson (budget : Nat) (readValue : Json → Except DecodeFault Term) :
    Json → Except DecodeFault (Binding Term)
  | .obj ms => do
      let name ← Json.requiredText ms "name"
      let value ← Json.required ms "value"
      let value ← readValue value
      let declared ← Json.declared budget ms
      return ⟨name, declared, value⟩
  | _ => Malformed.stop .badBinding

def ofMembers (budget : Nat) (readTerm : Json → Except DecodeFault Term)
    (ms : List (Text × Json)) (tag : Json) : Except DecodeFault Term :=
  match tag with
  | .str (.plain "literal") => return .lit (← Literal.ofMembers ms)
  | .str (.plain "var") => return .var (← Json.requiredText ms "name")
  | .str (.plain "if") => do
      let test ← readTerm (← Json.required ms "test")
      let yes ← readTerm (← Json.required ms "then")
      let no ← readTerm (← Json.required ms "else")
      return .cond test yes no
  | .str (.plain "binop") => do
      let symbol ← Json.required ms "op"
      let some op := symbol.text?.bind Operator.ofSymbol?
        | Malformed.stop (.unknownOperator symbol)
      let lhs ← readTerm (← Json.required ms "lhs")
      let rhs ← readTerm (← Json.required ms "rhs")
      return .binop op lhs rhs
  | .str (.plain "lambda") => do
      let params ← (← Json.requiredList ms "params").mapM (Param.ofJson budget)
      let body ← readTerm (← Json.required ms "body")
      return .lam params body
  | .str (.plain "app") => do
      let function ← readTerm (← Json.required ms "function")
      let args ← (← Json.requiredList ms "arguments").mapM readTerm
      return .app function args
  | .str (.plain "let") => do
      let bindings ← (← Json.requiredList ms "bindings").mapM (bindingOfJson budget readTerm)
      let body ← readTerm (← Json.required ms "body")
      (fitted (.letIn bindings body)).mapError .malformed
  | .str (.plain "letrec") => do
      let bindings ← (← Json.requiredList ms "bindings").mapM (bindingOfJson budget readTerm)
      let body ← readTerm (← Json.required ms "body")
      (fitted (.letRec bindings body)).mapError .malformed
  | tag => Malformed.stop (.unknownNode tag)

/-- Read a term that nests no deeper than the budget. -/
def ofJson : Nat → Json → Except DecodeFault Term
  | 0, _ => .error .tooDeep
  | n + 1, .obj ms => do
      let tag ← Json.required ms "node"
      ofMembers n (ofJson n) ms tag
  | _ + 1, v => Malformed.stop (.notObject v)

def decode (limit : Nat) (v : Json) : Except DecodeFault Term :=
  (ofJson limit v).mapError (.within limit)

/-! ## Writing terms -/

def declaredMember (declared : Option Ty) : Except Malformed (List (Text × Json)) :=
  match declared with
  | none => .ok []
  | some t => do
      let v ← t.toJson
      return [("annotation", v)]

def paramToJson (p : Param) : Except Malformed Json := do
  let declared ← declaredMember p.declared
  return .obj (("name", .str p.name) :: declared)

mutual

/-- Write a term; a missing term cannot be written. -/
def toJson : Term → Except Malformed Json
  | .hole => .error .unwritableTerm
  | .lit v =>
      .ok (.obj [("node", .str "literal"), ("kind", .str v.kind.name), ("value", v.toJson)])
  | .var x => .ok (.obj [("node", .str "var"), ("name", .str x)])
  | .cond c t e => do
      let c ← toJson c
      let t ← toJson t
      let e ← toJson e
      return .obj [("node", .str "if"), ("test", c), ("then", t), ("else", e)]
  | .binop op l r => do
      let l ← toJson l
      let r ← toJson r
      return .obj [("node", .str "binop"), ("op", .str op.symbol), ("lhs", l), ("rhs", r)]
  | .lam ps b => do
      let ps ← ps.mapM paramToJson
      let b ← toJson b
      return .obj [("node", .str "lambda"), ("params", .arr ps), ("body", b)]
  | .app f args => do
      let f ← toJson f
      let args ← toJsons args
      return .obj [("node", .str "app"), ("function", f), ("arguments", .arr args)]
  | .letIn bs b => do
      let bs ← bindingsToJson bs
      let b ← toJson b
      return .obj [("node", .str "let"), ("bindings", .arr bs), ("body", b)]
  | .letRec bs b => do
      let bs ← bindingsToJson bs
      let b ← toJson b
      return .obj [("node", .str "letrec"), ("bindings", .arr bs), ("body", b)]

def toJsons : List Term → Except Malformed (List Json)
  | [] => .ok []
  | t :: ts => do
      let v ← toJson t
      let vs ← toJsons ts
      return v :: vs

def bindingsToJson : List (Binding Term) → Except Malformed (List Json)
  | [] => .ok []
  | ⟨x, declared, v⟩ :: bs => do
      let v ← toJson v
      let declared ← declaredMember declared
      let rest ← bindingsToJson bs
      return .obj (("name", .str x) :: ("value", v) :: declared) :: rest

end

end Term

end Monotype
