import Monotype.OrderedMap
import Monotype.Ty.Basic

/-!
# Normal forms of types

Two types that differ only in the names of their variables have the same normal form: the variables
are numbered 0, 1, … in the order in which they first occur, parameters before the result.

`Ty.normal` goes through the type once.  The numbers that were given so far stand in a table, which
goes along from part to part; a variable that is not in it gets the next number.
-/

namespace Monotype

abbrev NumberTable := OrderedMap Int Int

/-- The number of a variable, and the numbering with it: a variable without one gets the next. -/
def NumberTable.number (table : NumberTable) (i : Int) : Int × NumberTable :=
  match table.get? i with
  | some n => (n, table)
  | none => (table.size, table.insert i table.size)

namespace Ty

mutual

/-- Put numbers in the place of the variables, going on from a numbering. -/
def numbered (table : NumberTable) : Ty → Ty × NumberTable
  | .unknown => (.unknown, table)
  | .var i => (.var (table.number i).1, (table.number i).2)
  | .const c => (.const c, table)
  | .fn ps r =>
      let (qs, table) := numberedAll table ps
      let (s, table) := numbered table r
      (.fn qs s, table)

def numberedAll (table : NumberTable) : List Ty → List Ty × NumberTable
  | [] => ([], table)
  | t :: ts =>
      let (u, table) := numbered table t
      let (us, table) := numberedAll table ts
      (u :: us, table)

end

/-- The type with its variables numbered in order of first occurrence. -/
def normal (t : Ty) : Ty := (t.numbered .empty).1

end Ty

end Monotype
