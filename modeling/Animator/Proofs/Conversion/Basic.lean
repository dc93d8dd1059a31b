import Animator.Proofs.Leakage
import Animator.Proofs.Typing.Member

/-!
# What conversion does to a value

The leaves of a converted value come from the leaves of the value: a leaf stays as it is, or an
integer takes the place of a real number (`Heap.stems_of_convert`).
-/

namespace Animator

/-! ### Leaves -/

namespace Value

variable {v w l : Value} {ls ls' : List Value}

/-- What can become of some leaves by conversion. -/
inductive Stems (ls : List Value) : Value → Prop where
  | same {l : Value} (hl : l ∈ ls) : Stems ls l
  | integer {x : Binary64} {n : Int} (hx : .real x ∈ ls) (hn : Heap.integerOfReal? x = some n) :
    Stems ls (.int n)
  | void (hl : .voidReturn ∈ ls) : Stems ls .void

theorem Stems.mono (hl : Stems ls l) (hsub : ls ⊆ ls') : Stems ls' l := by
  cases hl with
  | same hl => exact .same (hsub hl)
  | integer hx hn => exact .integer (hsub hx) hn
  | void hl => exact .void (hsub hl)

theorem CellFree.of_stems (hv : v.CellFree) (hw : ∀ l ∈ w.leaves, Stems v.leaves l) :
    w.CellFree := by
  rw [cellFree_iff]
  intro l hl
  cases hw l hl with
  | same hl => exact cellFree_iff.1 hv l hl
  | integer | void => rfl

end Value

namespace Heap

variable {h : Heap} {ty : Ty} {v w : Value} {vs ws : List Value}

/-- Conversion makes no leaves, apart from integers in the place of reals. -/
theorem stems_of_convert (hv : v.CellFree) (hw : h.convert ty v = .ok w) :
    ∀ l ∈ w.leaves, Value.Stems v.leaves l := by
  induction ty using Ty.induction_on_parts generalizing v w with
  | h ty ih =>
    -- What an item of a collection becomes has leaves that stem from those of the collection.
    have hitem : ∀ {vs ws}, (∀ u ∈ vs, u.CellFree ∧ u.leaves ⊆ v.leaves) →
        List.Forall₂ (fun v w => ∃ t ∈ ty.parts, h.convert t v = .ok w) vs ws →
        ∀ w ∈ ws, w.CellFree ∧ ∀ l ∈ w.leaves, Value.Stems v.leaves l := by
      intro vs ws hvs hws w hw
      obtain ⟨u, hu, t, ht, hconvert⟩ := exists_of_mem_right hws hw
      obtain ⟨hfree, hsub⟩ := hvs u hu
      have hstems := ih t ht hfree hconvert
      exact ⟨hfree.of_stems hstems, fun l hl => (hstems l hl).mono hsub⟩
    have hparts : ∀ u ∈ v.parts, u.CellFree ∧ u.leaves ⊆ v.leaves := fun u hu =>
      ⟨hv.parts u hu, Value.leaves_subset_of_mem_parts hu⟩
    intro l hl
    have hconverted := converted_of_convert hw
    rw [deref_of_not_isCell hv.isCell] at hconverted
    cases hconverted with
    | same => exact .same hl
    | integer hn =>
      rw [List.mem_singleton.1 hl]
      exact .integer (List.mem_singleton_self _) hn
    | void =>
      rw [List.mem_singleton.1 hl]
      exact .void (List.mem_singleton_self _)
    | seq hitems | tuple hitems =>
      rw [Value.leaves, Value.leavesOfItems_eq] at hl
      obtain ⟨w, hw, hl⟩ := List.mem_flatMap.1 hl
      exact (hitem hparts hitems w hw).2 l hl
    | set hitems =>
      have hws := hitem hparts hitems
      rw [mkSet_of_not_isCell fun w hw => (hws w hw).1.isCell, Value.leaves,
        Value.leavesOfItems_eq] at hl
      obtain ⟨w, hw, hl⟩ := List.mem_flatMap.1 hl
      exact (hws w (mem_members hw)).2 l hl
    | part ht hw => exact ih _ ht hv hw l hl

end Heap

end Animator
