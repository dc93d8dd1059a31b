import Animator.Proofs.Effect.Drift
import Animator.Proofs.Effect.Frame

/-!
# What every evaluation keeps

Whatever is evaluated, and whatever the debugger does meanwhile, the scheduler forgets no thread,
and every guard that is switched on is switched off again (`Machine.Keeps`). As an effect
(`keepDrift`) this says in addition that a machine never holds anything from outside of the
origin.
-/

namespace Animator

namespace Machine

/-- No thread is forgotten, and each is under as many guards as before. -/
def Keeps (m m' : Machine) : Prop :=
  ∀ id, m.Has id → m'.Has id ∧ m'.nesting id = m.nesting id

variable {P : Program} {o : Origin} {T : ThreadId → Prop} {Made : ObjectRef → Prop}
  {m m₁ m₂ m' : Machine} {id : ThreadId}

namespace Keeps

theorem refl : m.Keeps m :=
  fun _ hm => ⟨hm, rfl⟩

theorem trans (h : m.Keeps m₁) (h' : m₁.Keeps m₂) : m.Keeps m₂ := by
  intro id hm
  obtain ⟨hm₁, hnesting⟩ := h id hm
  obtain ⟨hm₂, hnesting'⟩ := h' id hm₁
  exact ⟨hm₂, hnesting'.trans hnesting⟩

theorem depth (h : m.Keeps m') (hm : m.Has id) : m'.depth id = m.depth id :=
  congrArg Nesting.debugging (h id hm).2

theorem ofRecords (h : m'.scheduler.records = m.scheduler.records) : m.Keeps m' := by
  intro id hm
  have hrecord : m'.scheduler.record? id = m.scheduler.record? id := by
    rw [Scheduler.record?, Scheduler.record?, h]
  refine ⟨?_, ?_⟩
  · rw [Has, hrecord]
    exact hm
  · simp only [nesting, thread, Scheduler.isTimed, hrecord]

theorem ofModify {f : ThreadRecord → ThreadRecord} (hid : ∀ r, (f r).thread.id = r.thread.id)
    (hnesting : ∀ r, (f r).nesting = r.nesting) : m.Keeps (m.modifyRecord id f) :=
  fun _ hm => ⟨hm.modifyRecord hid, nesting_modifyRecord hid hnesting hm⟩

theorem guard (g : Guard) (hopens : g.Opens id m) (h : (g.enter id m).Keeps m') :
    m.Keeps (g.leave id m') := by
  intro id' hm
  obtain ⟨hm', hnesting⟩ := h id' (g.frame_enter hm).has
  exact ⟨(g.frame_leave hm').has, g.nesting_leave_enter hopens hm hm' hnesting⟩

end Keeps

theorem Step.keeps (hs : m.Step P o T Made m') : m.Keeps m' :=
  fun _ hm => ⟨(hs.frame hm).1.has, hs.nesting hm⟩

theorem ObeyStep.keeps (hs : m.ObeyStep T m') : m.Keeps m' := by
  cases hs with
  | yieldPoint => exact .ofModify (fun _ => rfl) fun _ => rfl
  | _ => exact .ofRecords rfl

theorem Happens.keeps (h : m.Happens P o T Made m') : m.Keeps m' := by
  cases h with
  | step hs => exact hs.keeps
  | obey hs => exact hs.keeps
  | charge | stepTo => exact .ofModify (fun _ => rfl) fun _ => rfl
  | visit | report | unwound => exact .ofRecords rfl

end Machine

def keepDrift (P : Program) (o : Origin) (hP : P.delegates.From o) : Drift P o where
  Rel := Machine.Keeps
  delegates := hP
  refl := .refl
  trans := .trans
  moves _ h := h.keeps
  guard g _ hopens h := .guard g hopens h

end Animator
