import Animator.Globals
import Animator.Heap.Extract
import Animator.Thread.Scheduler

/-!
# Delegates

Operations that a model leaves unspecified can be given from outside. The operations of processors
(`CPU`) are always there.
-/

namespace Animator

/-- One unspecified operation being called. -/
structure DelegateCall where
  /-- The class or module that the operation belongs to. -/
  owner : String
  operation : Name
  args : List Value
  self : Option ObjectRef
  thread : ThreadId
  deriving Inhabited

/-- A delegate that is given from outside. It keeps no state of its own, and looks at the heap and
the virtual time of the calling thread. -/
structure Delegate where
  /-- The values that it keeps alive. -/
  kept : List Value := []
  /-- What it gives; nothing if it does not have the operation. -/
  invoke (h : Heap) (now : Nat) (call : DelegateCall) : Option (Except String Value)

/-- Delegates by class or module. -/
abbrev Delegates := Registry Delegate

/-- The values that `Delegates` keep alive. -/
def Delegates.values (d : Delegates) : List Value :=
  d.flatMap (·.2.kept)

/-- The integer of a virtual time, as far as it fits. -/
def Value.ofTime (now : Nat) : Value :=
  .int (min now Word.maxInt)

def cpuClass : String := "CPU"

/-- A failure of an operation on values, by its `message`. -/
def messageOnly {α : Type} : Except ValueFault α → Except String α
  | .ok a => .ok a
  | .error fault => .error fault.message

/-- The number of the processor that an operation is called on. -/
def DelegateCall.cpu (call : DelegateCall) : Except String Nat :=
  match call.self with
  | none => .error "CPU operation called without an instance"
  | some ref =>
    if ref.id < Word.size32 then .ok ref.id else .error ("too many CPUs: #" ++ toString ref.id)

/-- The operations of processors: a processor is made with a policy and a clock rate, objects are
deployed on it, and priorities have no effect. -/
def cpuOperation (h : Heap) (s : Scheduler) (call : DelegateCall) :
    Option (Except String (Heap × Scheduler)) :=
  match call.operation.text with
  | "CPU" => some do
    let cpu ← call.cpu
    let arg ←
      match call.args[1]? with
      | some arg => pure arg
      | none => .error "CPU constructor expects (policy, hz)"
    let hz ← messageOnly (h.natural arg)
    return (h, s.defineCpu cpu hz)
  | "deploy" => some do
    let cpu ← call.cpu
    let arg ←
      match call.args[0]? with
      | some arg => pure arg
      | none => .error "deploy expects an object"
    let object ← messageOnly (h.objectRef arg)
    return (h.deploy object cpu, s)
  | "setPriority" => some (.ok (h, s))
  | _ => none

/-- Call an unspecified operation; gives nothing if no delegate has it. -/
def Delegates.invoke (d : Delegates) (h : Heap) (s : Scheduler) (call : DelegateCall) :
    Option (Except String (Value × Heap × Scheduler)) :=
  match (d.get? call.owner).bind (·.invoke h (s.time call.thread) call) with
  | some result => some do return (← result, h, s)
  | none =>
    if call.owner == cpuClass then
      (cpuOperation h s call).map fun r => do return (.void, ← r)
    else none

end Animator
