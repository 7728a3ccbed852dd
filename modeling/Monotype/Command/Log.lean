import Monotype.Infer

/-!
# Log lines

The log shows the records whose level reaches a threshold, one line each.  The threshold has a name;
a name that no level has stands for warnings.
-/

namespace Monotype

namespace Command

def levels : List (Text × Nat) :=
  [("CRITICAL", 50), ("FATAL", 50), ("ERROR", 40), ("WARN", 30), ("WARNING", 30), ("INFO", 20),
   ("DEBUG", 10), ("NOTSET", 0)]

def threshold (name : Text) : Nat := (levels.lookup name).getD 30

/-- The line of a record, if its level reaches the threshold. -/
def logLine (bound : Nat) (level : String) (source message : String) : String :=
  if bound ≤ threshold level then level ++ " " ++ source ++ ": " ++ message ++ "\n" else ""

def eventLine (bound : Nat) : Event → String
  | .generated equations taken =>
      logLine bound "DEBUG" "simpl.infer"
        ("generated " ++ toString equations ++ " constraints, " ++ toString taken ++
          " type variables")
  | .bound id type =>
      logLine bound "DEBUG" "simpl.unify" ("bind " ++ (Ty.var id).text ++ " := " ++ type.text)
  | .solved steps =>
      logLine bound "DEBUG" "simpl.infer"
        ("solved in " ++ toString steps ++ " unification steps")

end Command

end Monotype
