import Monotype.Disk.Basic
import Monotype.Document
import Monotype.Json.Reader
import Monotype.Text.Upper
import Monotype.Text.Utf8

/-!
# Settings

The settings of a project: whether the built-in functions are in scope, the output format, whether
every type is printed, and the log level.  A mapping may give each of them; what it does not give
has a default, and what it gives besides is ignored.
-/

namespace Monotype

inductive OutputFormat where
  | pretty
  | json
  deriving DecidableEq, Repr

namespace OutputFormat

def name : OutputFormat → String
  | .pretty => "pretty"
  | .json => "json"

def all : List OutputFormat := [.pretty, .json]

def names : List String := all.map name

def ofName? (name : Text) : Option OutputFormat := all.find? fun f => Text.plain f.name == name

end OutputFormat

structure Config where
  builtin : Bool
  format : OutputFormat
  everyType : Bool
  logLevel : Text
  deriving DecidableEq, Repr

inductive ConfigFault where
  | unreadable (path : String) (fault : ReadFault)
  | notJson (path : String) (fault : Json.SyntaxFault) (place : Json.Place)
  | notYaml (path : String)
  | notMapping (path : String)
  | badFlag (key : String) (shown : String)
  | badFormat (text : Text)

namespace ConfigFault

def message : ConfigFault → Text
  | .unreadable path fault => "cannot read " ++ path ++ ": " ++ fault.message path
  | .notJson path fault place => "cannot parse " ++ path ++ ": " ++ fault.located place
  | .notYaml path => "cannot parse " ++ path
  | .notMapping path => path ++ ": top level must be a mapping"
  | .badFlag key shown => key ++ " must be true or false, got " ++ shown
  | .badFormat text =>
      "format must be one of " ++ ", ".intercalate OutputFormat.names ++ ", got '" ++ text ++ "'"

end ConfigFault

/-! ## Values of settings -/

inductive ShowStop where
  | tooLong
  | tooDeep
  deriving DecidableEq, Repr

/-- What is looked at in the value of a setting: whether it is on or off, the form in which messages
show it, and the text that it is.  A value that cannot be written out has no such form and text. -/
structure Setting where
  truth? : Option Bool
  shown : Except ShowStop String
  plain : Except ShowStop Text

/-- A document as the value of a setting; `fits` says whether it can be written out at all. -/
def Document.setting (fits : Bool) (d : Document) : Setting where
  truth? :=
    match d with
    | .bool b => some b
    | _ => none
  shown := if !fits then .error .tooDeep else if d.isShowable then .ok d.shown else .error .tooLong
  plain := if !fits then .error .tooDeep else if d.isShowable then .ok d.plain else .error .tooLong

/-- What a settings file holds: nothing, settings with their values, or something else. -/
inductive Settings where
  | none
  | mapping (value? : String → Option Setting)
  | other

/-- What a document says as settings; `fits` says which values can be written out at all. -/
def Document.settings (fits : Document → Bool) : Document → Settings
  | .null => .none
  | .map entries => .mapping fun key => (valueAt? key entries).map fun d => d.setting (fits d)
  | _ => .other

/-! ## Settings with their values -/

/-- Why a mapping gives no settings. -/
inductive ConfigStop where
  | fault (fault : ConfigFault)
  | unshowable (cause : ShowStop)

namespace Config

def default : Config := ⟨false, .pretty, false, "WARNING"⟩

def flag? (value? : String → Option Setting) (key : String) : Except ConfigStop (Option Bool) :=
  match value? key with
  | none => .ok none
  | some value =>
      match value.truth? with
      | some b => .ok (some b)
      | none => do throw (.fault (.badFlag key (← value.shown.mapError .unshowable)))

def format? (value? : String → Option Setting) : Except ConfigStop (Option OutputFormat) :=
  match value? "format" with
  | none => .ok none
  | some value => do
      let text ← value.plain.mapError .unshowable
      match OutputFormat.ofName? text with
      | some f => return some f
      | none => throw (.fault (.badFormat text))

def logLevel? (value? : String → Option Setting) : Except ConfigStop (Option Text) :=
  match value? "log_level" with
  | none => .ok none
  | some value => do return some (← value.plain.mapError .unshowable).upper

/-- The settings that a mapping gives. -/
def ofMapping (value? : String → Option Setting) : Except ConfigStop Config := do
  let builtin ← flag? value? "prelude"
  let format ← format? value?
  let everyType ← flag? value? "annotate"
  let logLevel ← logLevel? value?
  return { builtin := builtin.getD default.builtin
           format := format.getD default.format
           everyType := everyType.getD default.everyType
           logLevel := logLevel.getD default.logLevel }

def ofEntries (entries : List (Document × Document)) : Except ConfigStop Config :=
  ofMapping fun key => (Document.valueAt? key entries).map (Document.setting true)

end Config

end Monotype
