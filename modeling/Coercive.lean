import Coercive.Proofs.Dispatch
import Coercive.Proofs.Limit
import Coercive.Proofs.RoundTrip
import Coercive.Proofs.Locality
import Coercive.Proofs.Joining
import Coercive.Proofs.Interpolation
import Coercive.Proofs.Propagation
import Coercive.Proofs.Termination
import Coercive.Proofs.Layout
import Coercive.Proofs.Composition
import Coercive.Proofs.Staging
import Coercive.Proofs.Plain
import Coercive.Proofs.Operands
import Coercive.Proofs.Casts
import Coercive.Proofs.Nesting
import Coercive.Proofs.Image
import Coercive.Proofs.Agreement
import Coercive.Proofs.Access
import Coercive.Proofs.Scoping
import Coercive.Proofs.Inlining
import Coercive.Proofs.Surface
import Coercive.Proofs.Replacement
import Coercive.Proofs.Denotation
import Coercive.Proofs.SelfEquality
import Coercive.Proofs.CodePoints
