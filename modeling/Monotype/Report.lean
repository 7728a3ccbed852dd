import Monotype.Equation
import Monotype.Json.Printer
import Monotype.Ty.Text

/-!
# Reports

A report is what the outside sees of a fault: its kind, a message, details for machines, and the
equation that could not be solved, if there is one.
-/

namespace Monotype

inductive ReportKind where
  | unboundVariable
  | typeMismatch
  | arityMismatch
  | infiniteType
  | malformedTerm
  | termTooDeep
  deriving DecidableEq, Repr

def ReportKind.name : ReportKind → String
  | .unboundVariable => "unbound_variable"
  | .typeMismatch => "type_mismatch"
  | .arityMismatch => "arity_mismatch"
  | .infiniteType => "infinite_type"
  | .malformedTerm => "malformed_term"
  | .termTooDeep => "term_too_deep"

/-- What the outside sees of a fault. -/
structure Report where
  kind : ReportKind
  message : Text
  details : List (Text × Json)
  equation : Option String

namespace Report

def unbound (name : Text) : Report :=
  ⟨.unboundVariable, "Unbound variable '" ++ name ++ "'", [("name", .str name)], none⟩

def mismatch (a b : Ty) : Report :=
  ⟨.typeMismatch, "Cannot unify '" ++ a.text ++ "' with '" ++ b.text ++ "'",
    [("type_a", .str a.text), ("type_b", .str b.text)], none⟩

def arity (expected actual : Int) : Report :=
  ⟨.arityMismatch,
    "Function arity " ++ toString expected ++ " does not match arity " ++ toString actual,
    [("expected", .int expected), ("actual", .int actual)], none⟩

def infinite (id : Int) (t : Ty) : Report :=
  ⟨.infiniteType, "Infinite type: '" ++ (Ty.var id).text ++ "' occurs in '" ++ t.text ++ "'",
    [("variable", .str (Ty.var id).text), ("type", .str t.text)], none⟩

def malformed (message : Text) (field : Option Text) : Report :=
  ⟨.malformedTerm, message,
    match field with
    | some name => if name.isEmpty then [] else [("field", .str name)]
    | none => [],
    none⟩

def tooDeep (limit : Int) : Report :=
  ⟨.termTooDeep,
    "Term is nested too deeply to check (recursion limit " ++ toString limit ++ ")",
    [("limit", .int limit)], none⟩

def custom (message : Text) (details : List (Text × Json)) : Report :=
  ⟨.typeMismatch, message, details, none⟩

/-- The report with the equation that could not be solved; the form of the term that it comes from
joins the details. -/
def attach (r : Report) (e : Equation) : Report :=
  { r with
    equation := some e.text
    details :=
      match e.originKind with
      | some kind => Entries.put "origin" (.str kind) r.details
      | none => r.details }

def members (kindName : String) (r : Report) : List (Text × Json) :=
  let equation : List (Text × Json) :=
    match r.equation with
    | some e => [("constraint", .str e)]
    | none => []
  (kindName, .str r.kind.name) :: ("message", .str r.message) ::
    if r.details.isEmpty then equation else ("details", .obj r.details) :: equation

def toJson (r : Report) : Json := .obj (r.members "kind")

def text (r : Report) : Text := "[" ++ r.kind.name ++ "]: " ++ r.message

def originText (r : Report) : Text :=
  match r.details.lookup ("origin" : Text) with
  | some v => match v with
    | .str kind => " (from " ++ kind ++ ")"
    | _ => ""
  | none => ""

def line (r : Report) : Text := "error" ++ r.text

def equationLine? (r : Report) : Option Text :=
  r.equation.map fun e => "  while solving " ++ e ++ r.originText

end Report

end Monotype
