import Monotype.Disk.Tree
import Monotype.Main
import Monotype.Subst.Text
import Monotype.Ty.Normal
import Monotype.Proofs.Typing.Completeness
import Monotype.Proofs.Unify.Invariants
import Monotype.Proofs.Typing.Capture
import Monotype.Proofs.Codec.RoundTrip
import Monotype.Proofs.Typing.Answers
import Monotype.Proofs.Typing.AppliedLet
import Monotype.Proofs.Typing.Alpha
import Monotype.Proofs.Typing.Parallel
import Monotype.Proofs.Typing.Lexical
import Monotype.Proofs.Typing.NonRecursive
import Monotype.Proofs.Codec.Overflow
import Monotype.Proofs.Command.ExitStatus
import Monotype.Proofs.Typing.FirstFault
import Monotype.Proofs.Subst.Application
import Monotype.Proofs.Unify.Rearranged
import Monotype.Proofs.Typing.Shift
import Monotype.Proofs.Typing.WriteBack
import Monotype.Proofs.Unify.Redundant
import Monotype.Proofs.Ty.Text
import Monotype.Proofs.Subst.Composition
import Monotype.Proofs.TypedTerm.Listing
import Monotype.Proofs.Typing.BoundTypes
import Monotype.Proofs.Config.Nearest
import Monotype.Proofs.Typing.Accounting
import Monotype.Proofs.Scope.Flat
