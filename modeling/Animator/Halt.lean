import Animator.Heap.Basic

/-!
# Early ends

Everything other than a value that an evaluation can end in. Only an exit can be handled by the
model; the others unwind to the top of the thread.
-/

namespace Animator

/-- Why an evaluation `ended` without a value. -/
inductive Halt where
  /-- A raised value, travelling outwards until a handler takes it. -/
  | exit (value : Value) (location : Location)
  /-- A `fatal` error, and the title of the `frame` it happened in. -/
  | fatal (code : Code) (message : String) (location : Location) (frame : String)
  /-- The debugger or an interrupt ended the execution. -/
  | cancelled (location : Location)
  /-- The thread was asked to stop. -/
  | stopped (location : Location)
  /-- The evaluation was cut off before it came to an end, by its bound or with its thread. -/
  | exhausted
  deriving Inhabited

/-- How an evaluation ended. -/
abbrev Outcome := Except Halt Value

namespace Halt

/-- Where the evaluation ended. -/
def location : Halt → Location
  | .exit _ l | .fatal _ _ l _ | .cancelled l | .stopped l => l
  | .exhausted => .internal "<exhausted>"

/-- What happened, in words. -/
def text (h : Heap) : Halt → String
  | .exit value l => "exit " ++ h.text value ++ " at " ++ l.text
  | .fatal code message l frame =>
    code.text ++ ": " ++ message ++ " at " ++ l.text ++ " in '" ++ frame ++ "'"
  | .cancelled l => "execution cancelled at " ++ l.text
  | .stopped l => "thread stopped at " ++ l.text
  | .exhausted => "evaluation exhausted"

/-- Whether the model's own cleanups and handlers are passed over. -/
def isUnwinding : Halt → Bool
  | .cancelled _ | .stopped _ | .exhausted => true
  | _ => false

end Halt

end Animator
