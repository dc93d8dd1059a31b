import Animator.Proofs.Checks
import Animator.Proofs.Regime

/-!
# How evaluations can end

`Ends p R x` says that an evaluation ends with a value for which `R` holds, or early in a way for
which `p` holds, whatever the machine. What the debugger evaluates has an outcome that is looked at
and no more, so a check ends early only if the thread is cancelled or stopped, or if it is cut off
(`Ends.check`).
-/

namespace Animator

/-- All machines, and nothing is said about them. -/
def Regime.any : Regime :=
  ⟨fun _ => True, fun _ _ => True, trivial, fun _ _ => trivial⟩

/-- The evaluation ends with a value that has a property, or with an early end that has one. -/
abbrev Ends {α : Type} (p : Halt → Prop) (R : α → Prop) (x : Eval α) : Prop :=
  Regime.any.Runs R p x

/-- The evaluation ends early in some ways only. -/
abbrev EndsBy {α : Type} (p : Halt → Prop) (x : Eval α) : Prop :=
  Ends p (fun _ => True) x

namespace Ends

variable {α β : Type} {p : Halt → Prop} {R : α → Prop} {R' : β → Prop} {x : Eval α}

theorem halt {halt : Halt} {m m' : Machine} (h : Ends p R x) (hx : x m = (.error halt, m')) :
    p halt :=
  (h m trivial).halt halt (congrArg Prod.fst hx)

theorem keeps (g : Machine → Machine) : Regime.any.Keeps g :=
  fun _ _ => ⟨trivial, trivial⟩

theorem act {f : Machine → α} {g : Machine → Machine} (hR : ∀ m, R (f m)) :
    Ends p R fun m => (.ok (f m), g m) :=
  Regime.Runs.act (keeps g) fun m _ => hR m

theorem change {R : Unit → Prop} {g : Machine → Machine} (hR : R ()) : Ends p R (Eval.change g) :=
  .act fun _ => hR

theorem early {halt : Halt} {g : Machine → Machine} (hh : p halt) :
    Ends p R fun m => (.error halt, g m) :=
  fun _ _ => ⟨trivial, trivial, nofun, fun _ h => Except.error.inj h ▸ hh⟩

theorem next {f : α → Eval β} (hx : EndsBy p x) (hf : ∀ a, Ends p R' (f a)) :
    Ends p R' (x >>= f) :=
  hx.bind fun a _ => hf a

theorem outcome (hp : p .exhausted) : EndsBy p x.outcome := by
  have hx : EndsBy (fun _ => True) x := fun _ _ =>
    ⟨trivial, trivial, fun _ _ => trivial, fun _ _ => trivial⟩
  exact Regime.Runs.outcome hx (fun _ => hp) fun _ => trivial

/-- The outcome on a thread (`outcomeOn`) is missing only if the evaluation is cut off. -/
theorem outcomeOn {id : ThreadId} (hp : p .exhausted) : EndsBy p (x.outcomeOn id) := by
  refine fun m _ => ⟨trivial, trivial, fun _ _ => trivial, fun halt hhalt => ?_⟩
  unfold Eval.outcomeOn at hhalt
  split at hhalt
  · split at hhalt
    · cases hhalt
    · cases hhalt
      exact hp
  · cases hhalt

/-! ### Checks -/

section Engine

variable {E : Engine} {c : Context} {location : Location}

section Inspect

variable (hp : p .exhausted)

include hp

theorem inspectAll {es : List Expr} : EndsBy p (E.inspectAll c es) := by
  induction es with
  | nil => exact .pure trivial
  | cons e rest ih => exact .next (.outcome hp) fun _ => .next ih fun _ => .pure trivial

/-- What the debugger evaluates ends early only if it is cut off (`EndsBy`). -/
theorem reaction : Reaction (fun _ x _ => EndsBy p x) E E c c where
  pure := .pure trivial
  bindEq := .next
  heap := .reads fun _ _ => trivial
  log _ := .change trivial
  inspect _ := .outcome hp
  asks _ := .outcome hp

end Inspect

variable (hp : ∀ halt : Halt, halt.isUnwinding = true → p halt)

include hp

theorem suspend {reason : StopReason} : EndsBy p (E.suspend reason location c) := by
  refine .next (.reads fun _ _ => trivial) fun found => ?_
  cases found with
  | none => exact .pure trivial
  | some link =>
    refine .next (x := E.consult link reason location c) ?_ fun command => ?_
    · unfold Engine.consult
      split
      · exact .next (inspectAll (hp _ rfl)) fun _ => .act fun _ => trivial
      · exact .pure trivial
    · unfold Engine.resume
      cases command with
      | «continue» | stepIn | stepOver => exact .change trivial
      | stepOut =>
        dsimp only
        split <;> exact .change trivial
      | terminate => exact .next (.change trivial) fun _ => .early (hp _ rfl)

theorem vigil : Vigil (fun _ x _ => EndsBy p x) E E c c where
  toChains := (reaction (hp _ rfl) (E := E) (c := c)).toChains
  onThread := rfl
  isRealTime := rfl
  thread := .reads fun _ _ => trivial
  table _ := .reads fun _ _ => trivial
  note _ _ := .change trivial
  unwind hh := .early (hp _ hh)
  count _ := .change trivial
  hit _ := .change trivial
  takeInterrupt := .act fun _ => trivial
  yieldPoint := .change trivial
  suspendIf b _ _ _ := by
    cases b with
    | true => exact suspend hp
    | false => exact .pure trivial

theorem check {node : NodeId} : EndsBy p (E.check node location c) :=
  (vigil hp).check node ((vigil hp).meetBreakpoint (reaction (hp _ rfl)))

theorem arrive {node : Node} : EndsBy p (E.arrive node c) :=
  .next (.change trivial) fun _ => check hp

end Engine

end Ends

end Animator
