import Monotype.Codec.Basic
import Monotype.Infer

/-!
# Reports of faults

How every fault of inference and of reading terms is reported.  What nests too deeply, and what
would never end, is reported with the limit that the outside knows.
-/

namespace Monotype

def shownLimit : Int := 1000

def Conflict.report : Conflict → Report
  | .mismatch a b => .mismatch a b
  | .arity m n => .arity m n
  | .infinite i t => .infinite i t

def ScopeFault.report : ScopeFault → Report
  | .unbound x => .unbound x
  | .hole => Malformed.hole.report

def InferFault.report : InferFault → Report
  | .unbound x => .unbound x
  | .hole => Malformed.hole.report
  | .conflict c e => c.report.attach e
  | .endless => .tooDeep shownLimit
  | .tooDeep => .tooDeep shownLimit

end Monotype
