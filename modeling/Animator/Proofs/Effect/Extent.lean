import Animator.Proofs.Effect.Session
import Animator.Proofs.Threads.Step
import Animator.Proofs.Typing.Store

/-!
# The extent of the heap

Objects are never removed from the heap, and an evaluation gives members only to objects that it has
made itself. So the objects that are there before it have the same members after it.
-/

namespace Animator

/-- The objects of a heap are still there, with the same `members`. -/
structure Heap.Extends (h h' : Heap) : Prop where
  size : h.objects.size ≤ h'.objects.size
  members : ∀ ref : ObjectRef, ref.id ≤ h.objects.size → h'.members ref = h.members ref

namespace Heap.Extends

variable {h h₁ h₂ : Heap}

theorem refl : h.Extends h :=
  ⟨Nat.le_refl _, fun _ _ => rfl⟩

theorem trans (hh : h.Extends h₁) (hh' : h₁.Extends h₂) : h.Extends h₂ :=
  ⟨Nat.le_trans hh.size hh'.size, fun ref href =>
    (hh'.members ref (Nat.le_trans href hh.size)).trans (hh.members ref href)⟩

theorem ofObjects (hh : h.Extends h₁) (hobjects : h₂.objects = h₁.objects) : h.Extends h₂ := by
  refine ⟨hobjects ▸ hh.size, fun ref href => ?_⟩
  rw [← hh.members ref href]
  simp only [Heap.members, Heap.object?, hobjects]

/-- A change of an object that is new, or that leaves the `members` alone. -/
theorem modifyObject (hh : h.Extends h₁) (id : ObjectId) {f : Object → Object}
    (hf : h.objects.size < id ∨ ∀ object, (f object).members = object.members) :
    h.Extends (h₁.modifyObject id f) := by
  have hsize : (h₁.modifyObject id f).objects.size = h₁.objects.size := by
    cases id with
    | zero => rfl
    | succ n => simp [Heap.modifyObject]
  refine ⟨hsize ▸ hh.size, fun ref href => ?_⟩
  rw [← hh.members ref href, Heap.members, Heap.members, Heap.object?_modifyObject]
  by_cases hid : ref.id = id
  · rcases hf with hnew | hmembers
    · exact absurd (hid ▸ href) (Nat.not_le_of_lt hnew)
    · rw [if_pos hid]
      cases h₁.object? ref.id with
      | none => rfl
      | some object => exact hmembers object
  · rw [if_neg hid]

theorem newObject (hh : h.Extends h₁) (className : String) :
    h.Extends (h₁.newObject className).2 := by
  have hsize : (h₁.newObject className).2.objects.size = h₁.objects.size + 1 := Array.size_push _
  refine ⟨hsize ▸ Nat.le_succ_of_le hh.size, fun ref href => ?_⟩
  rw [← hh.members ref href, Heap.members, Heap.members]
  have hbound := Nat.le_trans href hh.size
  cases hid : ref.id with
  | zero => rfl
  | succ n =>
    -- An object that was there has a number below that of the new one.
    rw [hid] at hbound
    have hne : n ≠ h₁.objects.size := Nat.ne_of_lt hbound
    simp only [Heap.object?, Heap.newObject, Array.getElem?_push, if_neg hne]

theorem store (hh : h.Extends h₁) (c : CellId) (path : List Segment) (v : Value) :
    h.Extends (Heap.storeAt c path v h₁).2 := by
  have hassigned := Heap.assigned_storeAt h₁ c path v
  generalize (Heap.storeAt c path v h₁).2 = h₂ at hassigned
  induction hassigned with
  | refl => exact hh
  | tail _ hassign ih =>
    obtain ⟨c, v, hassign⟩ := hassign
    obtain ⟨cell, w, -, -, rfl⟩ := Heap.exists_of_assign hassign
    exact ih.ofObjects rfl

end Heap.Extends

/-- Every evaluation extends the heap, giving members only to objects that it makes. -/
def extentDrift (P : Program) (heap : Heap) : Drift P .all where
  Inv m := heap.Extends m.heap
  Made ref := heap.objects.size < ref.id
  delegates := P.delegates_from_all
  keeps := by
    rintro m m' hi (hs | _ | hs | _)
    · cases hs with
      | context | unhit | log | stop | called => exact hi
      | newCell cell => exact hi.ofObjects rfl
      | newObject className => exact hi.newObject className
      | setMember ref name v hmade => exact hi.modifyObject ref.id (.inl hmade)
      | store c path v | write id c path v => exact hi.store c path v
      | delegate call v heap scheduler hargs hinvoke =>
        rcases Delegates.invoke_cases hinvoke with
          ⟨-, rfl, -⟩ | ⟨-, ⟨rfl, -⟩ | ⟨rfl, -⟩ | ⟨-, ref, cpu, rfl⟩⟩
        · exact hi
        · exact hi
        · exact hi
        · exact hi.modifyObject ref.id (.inr fun _ => rfl)
      | spawn id ref job => exact hi.modifyObject ref.id (.inr fun _ => rfl)
    · exact hi
    · cases hs <;> exact hi
    all_goals exact hi
  makes _ hi := Nat.lt_succ_of_le hi.size
  enter g hi := by cases g <;> exact hi
  leave g hi := by cases g <;> exact hi

end Animator
