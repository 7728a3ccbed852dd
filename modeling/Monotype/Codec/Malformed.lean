import Monotype.Document
import Monotype.Json.Reader
import Monotype.Report
import Monotype.Text.Utf8

/-!
# Malformed terms

Everything that can be wrong with a term that comes from outside: its bytes, its text, the shape of
its JSON value, or the way its nodes are put together.  `Malformed.message` words each cause,
`Malformed.field?` names the member that it concerns, and `Malformed.found?` is the value that the
wording shows.
-/

namespace Monotype

/-- What is wrong with a term that comes from outside. -/
inductive Malformed where
  | notUtf8 (path : String) (fault : Text.Utf8Fault)
  | notJson (path : String) (fault : Json.SyntaxFault) (line : Nat)
  | notObject (found : Json)
  -- An object without a required member; `tag` is what its `node` member holds.
  | missing (tag : Option Json) (key : String)
  | notList (key : String)
  | notText (key : String)
  | unknownNode (tag : Json)
  | unknownKind (kind : Json)
  | badLiteral (kind : LiteralKind) (value : Json)
  | unknownOperator (symbol : Json)
  | badParam
  | badBinding
  | unknownBase (name : Text)
  | badVariable (id : Json)
  | notType (found : Json)
  | node (fault : Term.NodeFault)
  | hole
  | unwritableTerm
  | unwritableType

namespace Json

def sort : Json → String
  | .null => "NoneType"
  | .bool _ => "bool"
  | .int _ => "int"
  | .float _ => "float"
  | .str _ => "str"
  | .arr _ => "list"
  | .obj _ => "dict"

end Json

namespace Malformed

def message : Malformed → Text
  | .notUtf8 path fault =>
      path ++ ": not valid UTF-8 (" ++ fault.reason.message ++ " at byte " ++
        toString fault.start ++ ")"
  | .notJson path fault line =>
      path ++ ": invalid JSON (" ++ fault.message ++ " at line " ++ toString line ++ ")"
  | .notObject found => "Expected a term object, got " ++ found.sort
  | .missing tag key =>
      "'" ++ (tag.getD (.str "?")).plain ++ "' node is missing '" ++ key ++ "'"
  | .notList key => "'" ++ key ++ "' must be a list"
  | .notText key => "'" ++ key ++ "' must be a string"
  | .unknownNode tag => "Unknown node type " ++ tag.shown
  | .unknownKind kind => "Unknown literal kind " ++ kind.shown
  | .badLiteral kind value => kind.name ++ " literal cannot hold " ++ value.shown
  | .unknownOperator symbol => "Unknown operator " ++ symbol.shown
  | .badParam => "parameter must be a name or an object"
  | .badBinding => "binding must be an object"
  | .unknownBase name => "Unknown base type '" ++ name ++ "'"
  | .badVariable id => "Type variable id must be an integer, got " ++ id.shown
  | .notType found => "Cannot decode type from " ++ found.shown
  | .node (.noBindings false) => "let needs at least one binding"
  | .node (.noBindings true) => "letrec needs at least one binding"
  | .node (.notFunction name) => "letrec binding '" ++ name ++ "' must be a lambda"
  | .hole => "Unknown term " ++ Term.hole.kind
  | .unwritableTerm => "Cannot encode " ++ Term.hole.kind
  | .unwritableType => "Cannot encode type " ++ Ty.unknown.form

/-- The member that a cause concerns. -/
def field? : Malformed → Option String
  | .notUtf8 _ _ | .notJson _ _ _ | .notObject _ => none
  | .missing _ key | .notList key | .notText key => some key
  | .unknownNode _ => some "node"
  | .unknownKind _ => some "kind"
  | .badLiteral _ _ => some "value"
  | .unknownOperator _ => some "op"
  | .badParam => some "params"
  | .badBinding => some "bindings"
  | .unknownBase _ | .notType _ => some "type"
  | .badVariable _ => some "var"
  | .node _ => some "bindings"
  | .hole | .unwritableTerm | .unwritableType => none

/-- The value that the wording shows, if it shows one. -/
def found? : Malformed → Option Json
  | .missing tag _ => tag
  | .unknownNode v | .unknownKind v | .badLiteral _ v | .unknownOperator v | .badVariable v
  | .notType v => some v
  | _ => none

/-- Whether the value that the wording shows nests no deeper than a limit. -/
def isShowable (limit : Nat) (m : Malformed) : Bool := m.found?.all fun v => v.depth ≤ limit

def report (m : Malformed) : Report := .malformed m.message m.field?

end Malformed

end Monotype
