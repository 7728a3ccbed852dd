import Monotype.Yaml.Value

/-!
# Reading YAML

A text holds one document in YAML 1.1, or none, which counts as null.  Reading goes through the
tokens of the text and the node that they form; a fault of the text comes before a fault of a value.

This is the reader of the standard host.  It does not read all of YAML: nodes that contain
themselves, lone surrogates, and sorts such as `!!binary` and `!!set` give the fault `other`.
-/

namespace Monotype

namespace Yaml

def isAllowed (c : Char) : Bool :=
  let n := c.toNat
  n = 0x09 || n = 0x0a || (0x20 ≤ n && n ≤ 0x7e) || n = 0x85 || (0xa0 ≤ n && n ≤ 0xfffd) ||
    0x10000 ≤ n

/-- Read a document; line ends of the text are line feeds. -/
def read (s : List Char) : Except Fault Document :=
  if s.all isAllowed then do
    match ← Node.ofTokens? (tokensOf s) with
    | some node => node.toDocument
    | none => return .null
  else .error .malformed

end Yaml

end Monotype
