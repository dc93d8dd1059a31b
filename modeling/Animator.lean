import Animator.Main
import Animator.Proofs.Abreast.Traps
import Animator.Proofs.Arithmetic.Division
import Animator.Proofs.Arithmetic.Exactness
import Animator.Proofs.ChangeLog
import Animator.Proofs.Channel.Answers
import Animator.Proofs.Conversion.Equality
import Animator.Proofs.Conversion.Idempotence
import Animator.Proofs.Counting.ObjectCalls
import Animator.Proofs.Counting.Stoppoints
import Animator.Proofs.Invariants
import Animator.Proofs.Iteration
import Animator.Proofs.Lockstep.Exceptions
import Animator.Proofs.Matching.Enumeration
import Animator.Proofs.Order.Sets
import Animator.Proofs.Registry
import Animator.Proofs.Stepping.Arrival
import Animator.Proofs.Abreast.Methods
import Animator.Proofs.Threads.Apart
import Animator.Proofs.Threads.Clock
import Animator.Proofs.Threads.Joining
import Animator.Proofs.Threads.Limit
import Animator.Proofs.Tree.Numbering
import Animator.Proofs.Tree.RoundTrip
import Animator.Proofs.Typing.Failure
import Animator.Proofs.Unwinding
import Animator.Proofs.Walk.Coverage
import Animator.Report
import Animator.Tree.Sharing
