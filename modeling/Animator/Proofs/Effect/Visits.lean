import Animator.Proofs.Effect.Session

/-!
# Visited code

Evaluation hands routines on, but it does not make up code: whatever is visited belongs to the
origin that the machine, the delegates and the entries come from (`Machine.Reachable.visits`).
-/

namespace Animator

variable {P : Program} {o : Origin} {m : Machine}

def Machine.Visits (o : Origin) (m : Machine) : Prop :=
  ∀ node, .visit node ∈ m.history → o.node node

theorem Machine.Visits.cons (hm : m.Visits o) {event : Event}
    (hevent : ∀ node, event = .visit node → o.node node) :
    Machine.Visits o { m with history := event :: m.history } := by
  intro node hnode
  rcases List.mem_cons.1 hnode with hnode | hnode
  · exact hevent node hnode.symm
  · exact hm node hnode

theorem Machine.Happens.visits {T : ThreadId → Prop} {Made : ObjectRef → Prop} {m' : Machine}
    (hm : m.Visits o) (h : m.Happens P o T Made m') : m'.Visits o := by
  cases h with
  | step hs => cases hs <;> exact hm
  | visit node hn =>
    refine hm.cons ?_
    rintro _ ⟨⟩
    exact hn
  | obey hs =>
    cases hs with
    | returned => exact hm.cons nofun
    | _ => exact hm
  | unwound => exact hm.cons nofun
  | _ => exact hm

/-- Evaluation `visits` nothing from outside of the `Origin`. -/
def visitDrift (P : Program) (o : Origin) (hP : P.delegates.From o) : Drift P o where
  Inv := Machine.Visits o
  delegates := hP
  keeps hm h := h.visits hm
  enter g hm := by cases g <;> exact hm
  leave g hm := by cases g <;> exact hm

/-- A session visits nothing while it evaluates nothing. -/
instance {hP : P.delegates.From o} : (visitDrift P o hP).effect.Joins where
  step hm hs := ⟨by cases hs <;> exact hm, trivial⟩
  swallow _ := trivial
  join hm hs := ⟨by cases hs <;> exact hm, trivial⟩

theorem Machine.Reachable.visits (hclosed : o.Closed) (hmodel : P.model.From o)
    (hP : P.delegates.From o) (h : m.Reachable P o) : m.Visits o := by
  refine (h.upholds ((visitDrift P o hP).leaves hclosed) hmodel (fun _ hm => hm)
    (fun _ hm _ => hm) (fun _ _ => nofun) fun hm hs => ?_).2
  cases hs <;> exact hm

end Animator
