import Monotype.Codec.Basic
import Monotype.Config.Basic
import Monotype.Infer
import Monotype.Yaml.Fault

/-!
# The host of a run

A run leaves some decisions to the system that it runs on: what a YAML text holds, how much may nest
before there is no room left for another level, and which texts the output takes.  Nothing is known
about them here; a run is defined for every host.
-/

namespace Monotype

/-- Work that goes down a value level by level, and needs room for every level. -/
inductive Task where
  | readJson (text : List Char)
  | decode (v : Json)
  | writeSetting (d : Document)
  | generate (Γ : Scope) (t : Term)
  | equation (e : Equation)
  | summary (r : Inference)
  | typeText (t : Ty)
  | listing (t : TypedTerm)
  | typeJson (t : Ty)
  -- Write JSON with a type in it, and with a tree if that is asked for.
  | writeJson (type : Ty) (tree : Option TypedTerm)

/-- What a run leaves to the system that it runs on. -/
structure Host where
  readYaml : List Char → Except Yaml.Fault Settings
  hasRoom : Task → Bool
  -- The events before inference runs out of room under some settings, if it does.
  cutShort? : Config → Term → Option (List Event)
  write? : Text → Option String

namespace Host

def readJson (host : Host) (text : List Char) : Except Json.ReadStop Json :=
  if host.hasRoom (.readJson text) then Json.read .forFiles text else .error .tooDeep

def decode (host : Host) (v : Json) : Except DecodeFault Term :=
  if host.hasRoom (.decode v) then Term.decode (v.depth + 1) v else .error .tooDeep

end Host

end Monotype
