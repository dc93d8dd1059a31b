import Animator.Proofs.Origin.Machine

/-!
# Evaluations that give a result

What is known of an evaluation from the fact that it gave a result: nothing failed on the way, so
everything that could have failed gave its result. Nothing comes after a failure.
-/

namespace Animator

theorem eq_ok_of_toOption {ε α σ : Type} {out : Except ε α × σ} {a : α}
    (h : out.1.toOption = some a) : out = (.ok a, out.2) := by
  obtain ⟨result, s⟩ := out
  cases result with
  | error e => cases h
  | ok b => exact congrArg (fun b => (Except.ok b, s)) (Option.some.inj h)

theorem reads_bind {α β : Type} (g : Machine → α) (f : α → Eval β) (m : Machine) :
    (Eval.reads g >>= f) m = f (g m) m :=
  rfl

namespace Engine

variable {E : Engine} {α β : Type} {a : α} {m m' : Machine} {c : Context} {location : Location}

theorem raise_ne_ok {v : Value} : E.raise v location c m ≠ (.ok a, m') := by
  intro h
  obtain ⟨thread, m₁, -, h⟩ := exists_of_bind_eq_ok h
  dsimp only at h
  split at h
  · cases h
  · obtain ⟨_, m₂, -, h⟩ := exists_of_bind_eq_ok h
    obtain ⟨_, m₃, -, h⟩ := exists_of_bind_eq_ok h
    cases h

theorem fail_ne_ok {code : Code} {message : String} :
    E.fail code message location c m ≠ (.ok a, m') := by
  intro h
  unfold fail at h
  split at h
  · exact raise_ne_ok h
  · obtain ⟨_, m₁, -, h⟩ := exists_of_bind_eq_ok h
    cases h

theorem raise_bind {v : Value} {f : α → Eval β} :
    (E.raise v location c >>= f) = E.raise v location c := by
  unfold raise
  rw [bind_assoc]
  refine congrArg _ (funext fun thread => ?_)
  dsimp only
  split
  · rfl
  · rw [bind_assoc]
    exact congrArg _ (funext fun _ => bind_assoc _ _ _)

theorem fail_bind {code : Code} {message : String} {f : α → Eval β} :
    (E.fail code message location c >>= f) = E.fail code message location c := by
  unfold fail
  split
  · exact raise_bind
  · exact bind_assoc _ _ _

theorem bind_of_fail {code : Code} {message : String} {x : Eval α} {f : α → Eval β}
    (hx : x m = E.fail code message location c m) :
    (x >>= f) m = E.fail code message location c m := by
  rcases hfail : (E.fail code message location c : Eval α) m with ⟨halt | a, m'⟩
  · rw [bind_of_error (hx.trans hfail), ← fail_bind (f := f), bind_of_error hfail]
  · exact absurd hfail fail_ne_ok

theorem eq_ok_of_lift {result : Except ValueFault α}
    (h : E.lift result location c m = (.ok a, m')) :
    result = .ok a ∧ m' = m := by
  cases result with
  | ok b =>
    cases h
    exact ⟨rfl, rfl⟩
  | error fault => exact absurd h fail_ne_ok

theorem consultHeap_of_ok {f : Heap → Except ValueFault α} (h : f m.heap = .ok a) :
    E.consultHeap f location c m = (.ok a, m) := by
  have hlift : E.consultHeap f location c m = E.lift (f m.heap) location c m := rfl
  rw [hlift, h]
  rfl

theorem consultHeap_of_error {f : Heap → Except ValueFault α} {fault : ValueFault}
    (h : f m.heap = .error fault) :
    E.consultHeap f location c m = E.fail fault.code fault.message location c m := by
  have hlift : E.consultHeap f location c m = E.lift (f m.heap) location c m := rfl
  rw [hlift, h]
  rfl

theorem eq_ok_of_consultHeap {f : Heap → Except ValueFault α}
    (h : E.consultHeap f location c m = (.ok a, m')) : f m.heap = .ok a ∧ m' = m := by
  obtain ⟨heap, m₁, hheap, h⟩ := exists_of_bind_eq_ok h
  cases hheap
  exact eq_ok_of_lift h

section Match

variable {p : Pattern} {v : Value}

theorem matchOrFail_of_some {matched : Matched} (h : m.heap.match? p v = some matched) :
    E.matchOrFail p v location c m = (.ok matched, m) := by
  rw [matchOrFail, Eval.heap, reads_bind, h]
  rfl

theorem matchOrFail_of_none (h : m.heap.match? p v = none) :
    E.matchOrFail p v location c m = E.fail .patternMismatch
      ("value " ++ m.heap.text v ++ " does not match pattern") location (c.hold v) m := by
  rw [matchOrFail, Eval.heap, reads_bind, h]

end Match

theorem eq_ok_of_updateHeap {x : Heap.Update α} (h : E.updateHeap x location c m = (.ok a, m')) :
    ∃ heap, x m.heap = (.ok a, heap) ∧ m' = { m with heap } := by
  obtain ⟨result, m₁, hresult, h⟩ := exists_of_bind_eq_ok h
  cases hresult
  obtain ⟨hresult, rfl⟩ := eq_ok_of_lift h
  exact ⟨_, Prod.ext hresult rfl, rfl⟩

end Engine

end Animator
