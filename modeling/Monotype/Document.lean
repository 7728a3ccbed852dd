import Monotype.Binary64.Shortest
import Monotype.Json.Basic
import Monotype.Moment
import Monotype.Text.Digit
import Monotype.Text.Quoted

/-!
# Document values

What a structured document can hold: scalars, lists, and mappings whose keys are documents too.
Every JSON value is one, with texts as keys.  Keys are the same if their values are equal, so `1`,
`1.0` and `true` are one key.

Messages show a document on one line: `Document.shown` puts texts in quotes, so that the shown form
tells `1` from `'1'`, and `Document.plain` leaves a text that stands alone as it is.  A document
with an integer of too many digits cannot be shown (`Document.isShowable`).
-/

namespace Monotype

inductive Document where
  | null
  | bool (value : Bool)
  | int (value : Int)
  | float (value : Binary64)
  | str (value : Text)
  | moment (value : Moment)
  | list (items : List Document)
  | map (entries : List (Document × Document))
  deriving Repr, Inhabited

namespace Document

mutual

def shown : Document → String
  | .null => "None"
  | .bool b => if b then "True" else "False"
  | .int n => toString n
  | .float x => x.text
  | .str s => s.quoted
  | .moment m => m.shown
  | .list items => "[" ++ ", ".intercalate (shownItems items) ++ "]"
  | .map entries => "\x7b" ++ ", ".intercalate (shownEntries entries) ++ "\x7d"

def shownItems : List Document → List String
  | [] => []
  | d :: ds => shown d :: shownItems ds

def shownEntries : List (Document × Document) → List String
  | [] => []
  | (k, d) :: es => (shown k ++ ": " ++ shown d) :: shownEntries es

end

/-- The form in which messages write a document out: a text as it is, a moment in its usual form,
anything else as shown. -/
def plain : Document → Text
  | .str s => s
  | .moment m => m.text
  | d => d.shown

mutual

/-- Whether the document can be shown: none of its integers has too many digits. -/
def isShowable : Document → Bool
  | .int n => n.natAbs < 10 ^ Text.digitLimit
  | .list items => areShowable items
  | .map entries => entriesShowable entries
  | _ => true

def areShowable : List Document → Bool
  | [] => true
  | d :: ds => isShowable d && areShowable ds

def entriesShowable : List (Document × Document) → Bool
  | [] => true
  | (k, d) :: es => isShowable k && isShowable d && entriesShowable es

end

/-! ## Mappings -/

/-- The exact value of a finite number, as an integer times a power of two; truth values count as
zero and one. -/
def scaled? : Document → Option (Int × Int)
  | .bool b => some (if b then 1 else 0, 0)
  | .int n => some (n, 0)
  | .float x => x.scaled?
  | _ => none

/-- Whether two documents are the same key of a mapping.  Numbers are compared by value; lists and
mappings are no keys. -/
def isSameKey (a b : Document) : Bool :=
  match a.scaled?, b.scaled? with
  | some x, some y => Binary64.sameScaled x y
  | none, none =>
      match a, b with
      | .null, .null => true
      | .float x, .float y => x == y
      | .str s, .str t => s == t
      | .moment m, .moment n => m == n
      | _, _ => false
  | _, _ => false

/-- Write an entry of a mapping; a key that is there already keeps its place and its spelling. -/
def putEntry (key value : Document) :
    List (Document × Document) → List (Document × Document)
  | [] => [(key, value)]
  | (k, d) :: es => if isSameKey k key then (k, value) :: es else (k, d) :: putEntry key value es

def valueAt? (key : Text) : List (Document × Document) → Option Document
  | [] => none
  | (.str k, d) :: es => if k = key then some d else valueAt? key es
  | _ :: es => valueAt? key es

end Document

namespace Json

mutual

def toDocument : Json → Document
  | .null => .null
  | .bool b => .bool b
  | .int n => .int n
  | .float x => .float x
  | .str s => .str s
  | .arr items => .list (toDocuments items)
  | .obj members => .map (toEntries members)

def toDocuments : List Json → List Document
  | [] => []
  | v :: vs => toDocument v :: toDocuments vs

def toEntries : List (Text × Json) → List (Document × Document)
  | [] => []
  | (name, v) :: ms => (.str name, toDocument v) :: toEntries ms

end

def shown (v : Json) : String := v.toDocument.shown

def plain (v : Json) : Text := v.toDocument.plain

end Json

end Monotype
