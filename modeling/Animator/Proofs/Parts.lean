import Animator.Value.Basic

/-!
# Parts

Types and values are made of parts of their own sort. What holds of a type or a value whenever it
holds of its parts holds of all of them (`Ty.induction_on_parts`, `Value.induction_on_parts`).
-/

namespace Animator

namespace Ty

def parts : Ty → List Ty
  | .seq t | .seq1 t | .set t | .optional t => [t]
  | .product ts | .union ts => ts
  | _ => []

theorem sizeOf_lt_of_mem_parts {t u : Ty} (h : u ∈ t.parts) : sizeOf u < sizeOf t := by
  cases t with
  | seq t | seq1 t | set t | optional t =>
    rw [List.mem_singleton.1 h]
    simp
  | product ts | union ts =>
    have hlt : sizeOf u < sizeOf ts := List.sizeOf_lt_of_mem h
    simp only [product.sizeOf_spec, union.sizeOf_spec]
    omega
  | _ => cases h

theorem induction_on_parts {motive : Ty → Prop}
    (h : ∀ t, (∀ u ∈ t.parts, motive u) → motive t) (t : Ty) : motive t :=
  h t fun u _ => induction_on_parts h u
termination_by sizeOf t
decreasing_by exact sizeOf_lt_of_mem_parts ‹_›

end Ty

namespace Value

def parts : Value → List Value
  | .token v => [v]
  | .seq items | .set items | .tuple items => items
  | .record _ fields => fields.map (·.2)
  | _ => []

theorem sizeOf_lt_of_mem_parts {v w : Value} (h : w ∈ v.parts) : sizeOf w < sizeOf v := by
  cases v with
  | token v =>
    rw [List.mem_singleton.1 h]
    simp
  | seq items | set items | tuple items =>
    have hlt : sizeOf w < sizeOf items := List.sizeOf_lt_of_mem h
    simp only [seq.sizeOf_spec, set.sizeOf_spec, tuple.sizeOf_spec]
    omega
  | record tag fields =>
    obtain ⟨f, hf, rfl⟩ := List.mem_map.1 h
    have hlt : sizeOf f < sizeOf fields := List.sizeOf_lt_of_mem hf
    have hsnd : sizeOf f.2 < sizeOf f := by
      obtain ⟨name, v⟩ := f
      simp only [Prod.mk.sizeOf_spec]
      omega
    simp only [record.sizeOf_spec]
    omega
  | _ => cases h

theorem induction_on_parts {motive : Value → Prop}
    (h : ∀ v, (∀ w ∈ v.parts, motive w) → motive v) (v : Value) : motive v :=
  h v fun w _ => induction_on_parts h w
termination_by sizeOf v
decreasing_by exact sizeOf_lt_of_mem_parts ‹_›

end Value

end Animator
