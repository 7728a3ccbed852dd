import Monotype.Command.Run
import Monotype.Yaml.Reader

/-!
# The standard host

The host that the command line runs on.  It reads the YAML that settings files are written in, has
room for a fixed number of levels of everything, and takes every text without lone surrogates.
-/

namespace Monotype

namespace Host

def jsonLimit : Nat := 500

def readsJson (text : List Char) : Bool :=
  match Json.read { Json.Limits.forFiles with depth := some jsonLimit } text with
  | .error .tooDeep => false
  | _ => true

def decodes (v : Json) : Bool :=
  match Term.decode Term.readLimit v with
  | .error .tooDeep => false
  | _ => true

/-- Whether the walk over a term stays within the limits. -/
def walks (Γ : Scope) (t : Term) : Bool :=
  match (t.generateWithin Γ .initial).1 with
  | .error .tooDeep => false
  | _ => true

def hasTexts (t : TypedTerm) : Bool :=
  t.nodes.all fun n => n.type.hasText && n.bound.all fun b => b.2.hasText

def standardRoom : Task → Bool
  | .readJson text => readsJson text
  | .decode v => decodes v
  | .writeSetting _ => true
  | .generate Γ t => walks Γ t
  | .equation e => e.left.hasText && e.right.hasText
  | .summary r => r.type.hasText
  | .typeText t => t.hasText
  | .listing t => hasTexts t
  | .typeJson t => t.hasText
  | .writeJson _ tree => tree.all hasTexts

def hasWording : InferFault → Bool
  | .unbound _ | .hole => true
  | .conflict (.mismatch a b) _ => a.hasText && b.hasText
  | .conflict (.infinite _ t) _ => t.hasText
  | .conflict (.arity _ _) _ => true
  | .endless | .tooDeep => false

def hasRecord : Event → Bool
  | .bound _ t => t.hasText
  | _ => true

/-- The events before a limit comes up in the inference of a term, if one does.  The log needs the
texts of the types that variables are bound to. -/
def standardCut? (c : Config) (t : Term) : Option (List Event) :=
  let (events, outcome) := t.check (Command.scopeFor c)
  let isLogged := Command.threshold c.logLevel ≤ Command.threshold "DEBUG"
  if isLogged && !events.all hasRecord then some (events.takeWhile hasRecord)
  else
    match outcome with
    | .ok _ => none
    | .error fault => if hasWording fault then none else some events

/-- The host that the command line runs on. -/
def standard : Host where
  readYaml text := (Yaml.read text).map (·.settings fun _ => true)
  hasRoom := standardRoom
  cutShort? := standardCut?
  write? := Text.string?

end Host

end Monotype
