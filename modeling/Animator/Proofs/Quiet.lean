import Animator.Proofs.Checks
import Animator.Proofs.Effect.Debug
import Animator.Proofs.Effect.Frame
import Animator.Proofs.Regime

/-!
# Quiet machines

Before an expression is evaluated the debugger may act: a breakpoint may evaluate anything, and a
stop may end the evaluation. On a quiet machine (`Machine.Quiet`) none of that happens, and what
comes before an expression neither changes a value nor a name (`Engine.expr_of_quiet`).
-/

namespace Animator

/-- The debugger takes no part in what a thread evaluates. -/
structure Machine.Quiet (m : Machine) (id : ThreadId) : Prop where
  link : m.link = none
  breakpoints : ∀ b ∈ m.breakpoints.entries, b.kind.exprs = []
  /-- No request to end the execution is pending. -/
  interrupt : m.scheduler.interrupt ≠ .terminate
  stopRequested : (m.thread id).stopRequested = false

instance (m : Machine) (id : ThreadId) : Decidable (m.Quiet id) :=
  decidable_of_iff
    (m.link.isNone = true ∧ (∀ b ∈ m.breakpoints.entries, b.kind.exprs.isEmpty = true) ∧
      m.scheduler.interrupt ≠ .terminate ∧ (m.thread id).stopRequested = false)
    ⟨fun ⟨hlink, hbreakpoints, hinterrupt, hstop⟩ => ⟨Option.isNone_iff_eq_none.1 hlink,
        fun b hb => List.isEmpty_iff.1 (hbreakpoints b hb), hinterrupt, hstop⟩,
      fun hm => ⟨Option.isNone_iff_eq_none.2 hm.link,
        fun b hb => List.isEmpty_iff.2 (hm.breakpoints b hb), hm.interrupt, hm.stopRequested⟩⟩

/-- Values and names are the same, and the machine is still `quiet` if it was. -/
structure Machine.Unmoved (id : ThreadId) (m m' : Machine) : Prop where
  heap : m'.heap = m.heap
  globals : m'.globals = m.globals
  quiet : m.Quiet id → m'.Quiet id

variable {m m₁ m₂ : Machine} {id : ThreadId} {α β : Type}

namespace Machine.Unmoved

theorem refl : m.Unmoved id m :=
  ⟨rfl, rfl, fun h => h⟩

theorem trans (h : m.Unmoved id m₁) (h' : m₁.Unmoved id m₂) : m.Unmoved id m₂ :=
  ⟨h'.heap.trans h.heap, h'.globals.trans h.globals, fun hm => h'.quiet (h.quiet hm)⟩

end Machine.Unmoved

def Regime.quiet (id : ThreadId) : Regime :=
  ⟨(·.Quiet id), Machine.Unmoved id, .refl, .trans⟩

/-- On `quiet` machines the computation succeeds and moves nothing. -/
abbrev Eval.Calm (id : ThreadId) (x : Eval α) : Prop :=
  (Regime.quiet id).Runs (fun _ => True) (fun _ => False) x

theorem Eval.Calm.next {x : Eval α} {f : α → Eval β} (hx : Calm id x) (hf : ∀ a, Calm id (f a)) :
    Calm id (x >>= f) :=
  hx.bind fun a _ => hf a

theorem Eval.Calm.change {f : Machine → Machine} (hf : ∀ m : Machine, m.Unmoved id (f m)) :
    Calm id (Eval.change f) :=
  Regime.Runs.change (fun m hm => ⟨(hf m).quiet hm, hf m⟩) trivial

namespace Engine

variable {E : Engine} {P : Program} {e : Expr} {location : Location} {c : Context} {node : NodeId}
  {n : Nat}

theorem calm_suspend {reason : StopReason} : Eval.Calm id (E.suspend reason location c) := by
  intro m hm
  rw [E.suspend_of_none _ _ _ hm.link]
  exact Regime.Runs.pure trivial m hm

/-- There is nothing that a breakpoint could evaluate (`Reaction`). -/
theorem calm_reaction : Reaction (fun _ x _ => Eval.Calm id x) E E c c fun _ => False where
  pure := .pure trivial
  bindEq := .next
  heap := .reads fun _ _ => trivial
  log _ := .change fun _ => ⟨rfl, rfl, fun hm => { hm with }⟩
  inspect := False.elim
  asks := False.elim

theorem calm_meetBreakpoint : Eval.Calm id (E.meetBreakpoint node location c) := by
  intro m hm
  cases hfound : m.breakpoints.at? node with
  | none =>
    rw [E.meetBreakpoint_of_none location c hfound]
    exact Regime.Runs.pure trivial m hm
  | some b =>
    rw [E.meetBreakpoint_of_some location c hfound]
    have hwatch : ∀ e ∈ b.kind.exprs, False := by
      simp [hm.breakpoints b (BreakpointTable.mem_entries_of_at? hfound)]
    have hcounted : m.Unmoved id { m with breakpoints := m.breakpoints.hit b.number } := by
      refine ⟨rfl, rfl, fun hm => { hm with breakpoints := fun b' hb' => ?_ }⟩
      obtain ⟨a, ha, hkind⟩ := BreakpointTable.kind_of_mem_hit hb'
      exact hkind ▸ hm.breakpoints a ha
    have heffect : Eval.Calm id (E.takeEffect b location c) :=
      calm_reaction.takeEffect hwatch calm_suspend
    have hran := heffect _ (hcounted.quiet hm)
    exact { hran with rel := hcounted.trans hran.rel }

theorem calm_takeTurn {stopped : Bool} : Eval.Calm id (E.takeTurn stopped location c) := by
  refine .next (.reads fun _ _ => trivial) fun thread => ?_
  split
  · split
    · exact .pure trivial
    · -- A turn is counted in the record of the thread, apart from the request to stop.
      refine .change fun m => ⟨rfl, rfl, fun hm => { hm with stopRequested := ?_ }⟩
      rw [← hm.stopRequested]
      exact Machine.thread_modifyRecord (·.stopRequested) (fun _ => rfl) fun _ => rfl
  · split
    · exact calm_suspend
    · exact .pure trivial

theorem calm_check : Eval.Calm c.thread (E.check node location c) := by
  intro m hm
  -- On a quiet machine the thread is not to stop, and the request is to pause at most.
  rw [E.check_apply, hm.stopRequested]
  split
  · exact ⟨{ hm with }, ⟨rfl, rfl, fun hm => { hm with }⟩, fun _ _ => trivial, nofun⟩
  · have hobey : Eval.Calm c.thread (E.obey node location c m.scheduler.interrupt) := by
      cases hinterrupt : m.scheduler.interrupt with
      | none => exact .next calm_meetBreakpoint fun _ => calm_takeTurn
      | pause => exact calm_suspend
      | terminate => exact absurd hinterrupt hm.interrupt
    have hcounted : m.Unmoved c.thread
        { m with hits := m.hits.hit location.counter, scheduler := m.scheduler.takeInterrupt.2 } :=
      ⟨rfl, rfl, fun hm => ⟨hm.link, hm.breakpoints, Interrupt.noConfusion, hm.stopRequested⟩⟩
    have hran := hobey _ (hcounted.quiet hm)
    exact { hran with rel := hcounted.trans hran.rel }

theorem expr_of_quiet (hm : m.Quiet c.thread) :
    ∃ m₁, m.Unmoved c.thread m₁ ∧
      (P.engine (n + 1)).expr e c m = (P.engine n).exprKind e.kind e.location c m₁ := by
  have harrive : Eval.Calm c.thread ((P.engine n).arrive (.expr e) c) :=
    .next (.change fun m => ⟨rfl, rfl, fun hm => { hm with }⟩) fun _ => calm_check
  obtain ⟨_, m₁, hrun, -, -, hunmoved⟩ := harrive.exists_ok hm
  refine ⟨m₁, hunmoved, ?_⟩
  change (P.engine n).evalExpr e c m = _
  rw [Engine.evalExpr_eq_arrive, bind_of_ok hrun]

end Engine

end Animator
