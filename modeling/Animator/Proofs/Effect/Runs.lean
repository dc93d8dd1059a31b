import Animator.Proofs.Effect.Session

/-!
# Runs

A session initialises its program, evaluates things and joins threads, one after the other
(`Machine.Runs`). An effect that holds of each single evaluation holds of all of that together
(`Machine.Runs.rel`).
-/

namespace Animator

variable {P : Program} {o : Origin} {m m' : Machine} {F : Effect P o fun _ => True} [F.Joins]

/-- A machine of a session, and what becomes of it. -/
inductive Machine.Runs (P : Program) (o : Origin) (m : Machine) : Machine → Prop where
  | refl : Runs P o m m
  | next {m' : Machine} (h : Runs P o m m') (bound : Nat) (activity : Activity)
      (hactivity : activity.From o) : Runs P o m (activity.after (P.engine bound) m')

variable (hleaves : ∀ bound, F.Leaves (P.engine bound)) (hmodel : P.model.From o)

include hleaves hmodel

/-- An effect for which it does not matter how evaluations end holds of whole runs. -/
theorem Machine.Runs.rel (hends : ∀ {m r m'}, F.Rel m r m' → F.Rel m none m')
    (h : m.Runs P o m') (hm : m.From o) (hi : F.Inv m) :
    m'.From o ∧ F.Inv m' ∧ F.Rel m none m' := by
  induction h with
  | refl => exact ⟨hm, hi, F.refl hi⟩
  | next _ bound activity hactivity ih =>
    obtain ⟨hm₁, hi₁, hrel₁⟩ := ih
    obtain ⟨hm₂, hi₂, r, hrel₂⟩ := Effect.rel_after (hleaves bound) hmodel hactivity hm₁ hi₁
    exact ⟨hm₂, hi₂, F.trans hi hrel₁ (hends hrel₂)⟩

/-- If there is such an effect that says nothing of machines, then a machine that is reached holds
nothing from outside of the origin. -/
theorem Machine.Reachable.from_of_leaves (hinv : ∀ m, F.Inv m) (h : m.Reachable P o) : m.From o :=
  (h.upholds (K := fun _ => True) hleaves hmodel (fun m _ => hinv m) (fun _ _ _ => trivial)
    (fun _ _ => trivial) fun _ _ => trivial).1

end Animator
