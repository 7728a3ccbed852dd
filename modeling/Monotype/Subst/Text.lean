import Monotype.Subst.Basic
import Monotype.Ty.Text

/-!
# Text of substitutions

`Subst.text` lists the entries in increasing order of their variables, types in arrow form.
`Subst.form` keeps insertion order and spells out the constructors of the types.
-/

namespace Monotype

namespace Subst

def text (σ : Subst) : String :=
  let entries := σ.sortedEntries.map fun e => (Ty.var e.1).text ++ " := " ++ e.2.text
  "\x7b" ++ ", ".intercalate entries ++ "\x7d"

/-- The entries in insertion order, with constructors spelled out. -/
def form (σ : Subst) : String :=
  let entries := σ.entries.map fun e => toString e.1 ++ ": " ++ e.2.form
  "Substitution(\x7b" ++ ", ".intercalate entries ++ "\x7d)"

end Subst

end Monotype
