import Animator.Proofs.Assignment

/-!
# Values without cells

Variables are cells, but a value never has a cell inside: whatever is read from a variable is what
it holds at that time, and no two variables share anything but objects. This needs that nothing with
a cell inside is brought from outside. A function may have captured variables, so what it has
captured may be cells, but no values with cells inside (`Origin.cellFree`).

`values_share_no_cells` says that of values that are returned, raised, bound by patterns and stored.
-/

namespace Animator

/-! ### Values -/

/-- All statements and expressions, but no cells inside of values. -/
def Origin.cellFree : Origin where
  expr _ := True
  stmt _ := True
  cells := False

theorem Origin.whole_cellFree : cellFree.Whole :=
  ⟨fun _ => trivial, fun _ => trivial, fun _ _ => trivial⟩

namespace Value

variable {o : Origin} {v : Value}

theorem From.cellFree (hv : v.From .cellFree) : v.CellFree := by
  induction v using induction_on_parts with
  | h v ih =>
    refine .of_parts ?_ fun w hw => ih w hw (hv.parts w hw)
    cases v with
    | updatable c => exact hv.elim
    | _ => rfl

end Value

theorem Heap.resolve_store_of_ne {h : Heap} {c c' : CellId} (hne : c' ≠ c)
    (hfree : (h.content c').CellFree) (w : Value) :
    (h.store c w).resolve (.updatable c') = h.resolve (.updatable c') := by
  have hresolve : ∀ h' : Heap, (h'.content c').CellFree →
      h'.resolve (.updatable c') = h'.content c' := fun _ hc => hc.mapCells_eq
  have hcontent : (h.store c w).content c' = h.content c' := content_store_of_ne hne
  rw [hresolve h hfree, hresolve _ (hcontent ▸ hfree), hcontent]

/-! ### Evaluations -/

theorem Outcomes.from_value {o : Origin} {v : Value} {r : Except Halt Value}
    (h : Outcomes o (Same (·.From o)) (.ok v) r) : v.From o := by
  cases h with
  | value hv => exact hv.2

theorem Outcomes.from_halt {o : Origin} {halt : Halt} {r : Except Halt Value}
    (h : Outcomes o (Same (·.From o)) (.error halt) r) : halt.From o := by
  cases h with
  | halt hhalt => exact hhalt

/-- No value has a cell inside (`cellFree`): neither what is returned, nor what is raised, nor what
patterns bind, nor what variables hold. So what can be seen through a variable does not change when
another one does, objects apart. -/
theorem values_share_no_cells (P : Program) (hP : P.delegates.From .cellFree) :
    (∀ m, Machine.Reachable P .cellFree m → m.From .cellFree) ∧
    ∀ m : Machine, m.From .cellFree →
      (∀ (bound : Nat) (task : Task), task.From .cellFree →
        (∀ v, (task.run (P.engine bound) m).1 = .ok v → v.From .cellFree ∧ v.CellFree) ∧
        (∀ v location, (task.run (P.engine bound) m).1 = .error (.exit v location) →
          v.From .cellFree ∧ v.CellFree) ∧
        (task.run (P.engine bound) m).2.From .cellFree) ∧
      (∀ p v matched, Value.Bound .cellFree v → m.heap.match? p v = some matched →
        ∀ b ∈ matched, b.2.CellFree) ∧
      (∀ candidates : List (Pattern × List Value), (∀ c ∈ candidates, Values.From .cellFree c.2) →
        ∀ matched ∈ m.heap.combinations candidates, ∀ b ∈ matched, b.2.CellFree) ∧
      (∀ c, (m.heap.content c).CellFree) ∧
      ∀ c c' w, c' ≠ c →
        (m.heap.store c w).resolve (.updatable c') = m.heap.resolve (.updatable c') := by
  -- That machines keep their origin is known of every origin that is closed, so also of this one.
  have hsound := (keepDrift P .cellFree hP).sound Origin.whole_cellFree.closed
  refine ⟨fun m hm => (hm.origin (Origin.whole_cellFree.model P.model) hsound).1, fun m hm => ?_⟩
  have hcontent : ∀ c, (m.heap.content c).CellFree := fun c => (hm.heap.cells c).cellFree
  refine ⟨fun bound task htask => ?_, fun p v matched hv hmatch b hb => ?_,
    fun candidates hc matched hmatched b hb => ?_, hcontent,
    fun c c' w hne => Heap.resolve_store_of_ne hne (hcontent c') w⟩
  · have hpost := Effect.holds_task (Drift.leaves_of_sound (hsound bound)) trivial htask m hm
        trivial
    refine ⟨fun v hv => ?_, fun v location hv => ?_, hpost.origin⟩
    · have hfrom := (hv ▸ hpost.outcomes).from_value
      exact ⟨hfrom, hfrom.cellFree⟩
    · have hfrom : v.From .cellFree := (hv ▸ hpost.outcomes).from_halt
      exact ⟨hfrom, hfrom.cellFree⟩
  · exact (hm.heap.match? hv hmatch b hb).cellFree
  · exact (hm.heap.combinations hc matched hmatched b hb).cellFree

def ringItems : Task :=
  .node (.expr (.onLine 9 (.name (ringName "items")))) ringContext

/-- The variable `ringItems` is a cell, but its value has none inside. -/
theorem values_share_no_cells_ring :
    ringMachine.Reachable ringProgram .cellFree ∧ ringItems.From .cellFree ∧
      ∃ v, (ringItems.run (ringProgram.engine 19) ringMachine).1 = .ok v ∧ v.CellFree := by
  have hreachable : ringMachine.Reachable ringProgram .cellFree :=
    .run _ 19 (fun _ hv => absurd hv List.not_mem_nil) (.create {} [] 19 (Heap.from_empty _))
  have hitems : ringItems.From .cellFree := ⟨trivial, Context.from_entry⟩
  have hok : (ringItems.run (ringProgram.engine 19) ringMachine).1.isOk = true := by
    decide +kernel
  obtain ⟨horigin, hvalues⟩ :=
    values_share_no_cells ringProgram fun _ hv => absurd hv List.not_mem_nil
  obtain ⟨hresult, -, -⟩ := (hvalues _ (horigin _ hreachable)).1 19 ringItems hitems
  refine ⟨hreachable, hitems, ?_⟩
  cases hrun : (ringItems.run (ringProgram.engine 19) ringMachine).1 with
  | error halt =>
    rw [hrun] at hok
    cases hok
  | ok v => exact ⟨v, rfl, (hresult v hrun).2⟩

end Animator
