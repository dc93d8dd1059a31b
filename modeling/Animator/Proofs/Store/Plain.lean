import Animator.Proofs.Order.Sorting

/-!
# Plain values

Storing a value converts it to the type of the cell. A conversion changes numbers that are no
integers, results of statements, cells inside of values and the order of sets. A value is plain if
there is nothing of that in it: then every conversion that accepts the value gives it back as it is
(`Heap.convert_eq_self`), and reading it through the heap does as well (`Heap.deref_eq_self`,
`Heap.compare_of_cellFree`).
-/

namespace Animator

namespace Value

/-! ### Cells -/

/-- There is no cell in the value, at any depth. Functions are not looked into. -/
inductive CellFree : Value → Prop where
  | of_parts {v : Value} (hcell : v.isCell = false) (hparts : ∀ w ∈ v.parts, w.CellFree) :
    v.CellFree

section Cells

variable {v : Value} {cell : CellId → Value}

theorem CellFree.isCell (hv : v.CellFree) : v.isCell = false := by
  obtain ⟨hcell, -⟩ := hv
  exact hcell

theorem CellFree.parts (hv : v.CellFree) : ∀ w ∈ v.parts, w.CellFree := by
  obtain ⟨-, hparts⟩ := hv
  exact hparts

theorem mapCellsList_eq (items : List Value) :
    mapCellsList cell items = items.map (·.mapCells cell) := by
  induction items with
  | nil => rfl
  | cons v rest ih => rw [mapCellsList, ih, List.map_cons]

theorem mapCellsFields_eq (fields : List (String × Value)) :
    mapCellsFields cell fields = fields.map fun f => (f.1, f.2.mapCells cell) := by
  induction fields with
  | nil => rfl
  | cons f rest ih => rw [mapCellsFields, ih, List.map_cons]

theorem CellFree.mapCells_eq (hv : v.CellFree) : v.mapCells cell = v := by
  induction hv with
  | @of_parts v hcell _ ih =>
    cases v with
    | updatable c => cases hcell
    | token inner => exact congrArg token (ih inner (List.mem_singleton_self inner))
    | seq items | set items | tuple items =>
      simp only [mapCells, mapCellsList_eq]
      exact congrArg _ ((List.map_congr_left ih).trans items.map_id)
    | record tag fields =>
      simp only [mapCells, mapCellsFields_eq]
      refine congrArg (record tag) ((List.map_congr_left fun f hf => ?_).trans fields.map_id)
      rw [ih f.2 (List.mem_map_of_mem hf), id]
    | _ => rfl

theorem From.parts {o : Origin} (hv : v.From o) : ∀ w ∈ v.parts, w.From o := by
  cases v with
  | token inner => exact fun w hw => List.mem_singleton.1 hw ▸ hv
  | seq items | set items | tuple items => exact fromItems_iff.1 hv
  | record tag fields =>
    intro w hw
    obtain ⟨f, hf, rfl⟩ := List.mem_map.1 hw
    exact fromFields_iff.1 hv f hf
  | _ => exact fun w hw => absurd hw List.not_mem_nil

/-- A value is its own leaf, or its `leaves` are those of its parts. -/
theorem leaves_cases (v : Value) :
    v.leaves = [v] ∧ v.parts = [] ∨ v.leaves = v.parts.flatMap leaves ∧ v.isCell = false := by
  cases v with
  | token v => exact .inr ⟨by simp [leaves, parts], rfl⟩
  | seq items | set items | tuple items => exact .inr ⟨leavesOfItems_eq items, rfl⟩
  | record tag fields => exact .inr ⟨leavesOfFields_eq fields, rfl⟩
  | _ => exact .inl ⟨rfl, rfl⟩

theorem cellFree_iff : v.CellFree ↔ ∀ l ∈ v.leaves, l.isCell = false := by
  induction v using induction_on_parts with
  | h v ih =>
    have hparts : v.CellFree ↔ v.isCell = false ∧ ∀ w ∈ v.parts, w.CellFree :=
      ⟨fun ⟨hcell, hparts⟩ => ⟨hcell, hparts⟩, fun ⟨hcell, hparts⟩ => .of_parts hcell hparts⟩
    rcases v.leaves_cases with ⟨hleaves, hnone⟩ | ⟨hleaves, hcell⟩
    · rw [hparts, hleaves, hnone]
      simp
    · rw [hparts, hleaves]
      constructor
      · rintro ⟨-, hfree⟩ l hl
        obtain ⟨w, hw, hl⟩ := List.mem_flatMap.1 hl
        exact (ih w hw).1 (hfree w hw) l hl
      · intro hfree
        refine ⟨hcell, fun w hw => (ih w hw).2 fun l hl => hfree l ?_⟩
        exact List.mem_flatMap.2 ⟨w, hw, hl⟩

end Cells

/-! ### Plain values -/

def increasing : List Value → Bool
  | a :: b :: rest => b.compare a == .gt && increasing (b :: rest)
  | _ => true

mutual

/-- The value has no `real` number, no result of a return without a value and no cell in it, and its
sets are in `increasing` order. -/
def isPlain : Value → Bool
  | .real _ | .voidReturn | .updatable _ => false
  | .token inner => inner.isPlain
  | .seq items | .tuple items => arePlain items
  | .set items => arePlain items && increasing items
  | .record _ fields => fieldsArePlain fields
  | _ => true

def arePlain : List Value → Bool
  | [] => true
  | v :: rest => v.isPlain && arePlain rest

def fieldsArePlain : List (String × Value) → Bool
  | [] => true
  | (_, v) :: rest => v.isPlain && fieldsArePlain rest

end

theorem arePlain_iff {items : List Value} :
    arePlain items = true ↔ ∀ v ∈ items, v.isPlain = true := by
  induction items with
  | nil => simp [arePlain]
  | cons v rest ih => simp [arePlain, ih]

theorem fieldsArePlain_iff {fields : List (String × Value)} :
    fieldsArePlain fields = true ↔ ∀ f ∈ fields, f.2.isPlain = true := by
  induction fields with
  | nil => simp [fieldsArePlain]
  | cons f rest ih => simp [fieldsArePlain, ih]

theorem isPlain_of_mem_parts {v w : Value} (hv : v.isPlain = true) (hw : w ∈ v.parts) :
    w.isPlain = true := by
  cases v with
  | token inner => exact List.mem_singleton.1 hw ▸ hv
  | seq items | tuple items => exact arePlain_iff.1 hv w hw
  | set items =>
    rw [isPlain, Bool.and_eq_true] at hv
    exact arePlain_iff.1 hv.1 w hw
  | record tag fields =>
    obtain ⟨f, hf, rfl⟩ := List.mem_map.1 hw
    exact fieldsArePlain_iff.1 hv f hf
  | _ => cases hw

theorem cellFree_of_isPlain {v : Value} (hv : v.isPlain = true) : v.CellFree := by
  induction v using induction_on_parts with
  | h v ih =>
    refine .of_parts ?_ fun w hw => ih w hw (isPlain_of_mem_parts hv hw)
    cases v with
    | updatable c => cases hv
    | _ => rfl

theorem isChain_of_increasing {cmp : Value → Value → Ordering} {items : List Value}
    (hcmp : ∀ a ∈ items, ∀ b ∈ items, cmp a b = a.compare b) (h : increasing items = true) :
    items.IsChain fun a b => cmp b a = .gt := by
  induction items with
  | nil => exact .nil
  | cons a rest ih =>
    cases rest with
    | nil => exact .singleton a
    | cons b rest =>
      rw [increasing, Bool.and_eq_true, beq_iff_eq] at h
      refine .cons_cons ((hcmp b (by simp) a (by simp)).trans h.1) (ih (fun c hc d hd => ?_) h.2)
      exact hcmp c (.tail _ hc) d (.tail _ hd)

end Value

namespace Heap

variable {h : Heap} {v w : Value}

theorem compare_of_cellFree (hv : v.CellFree) (hw : w.CellFree) : h.compare v w = v.compare w := by
  rw [compare, resolve, resolve, hv.mapCells_eq, hw.mapCells_eq]

/-- Without cells, values are compared in a heap (`Ordered`) as they are everywhere. -/
theorem ordered_of_cellFree {K : Value → Prop} (hfree : ∀ {v}, K v → v.CellFree)
    (ho : Value.Ordered Value.compare K) : Value.Ordered h.compare K where
  swap ha hb := by
    rw [compare_of_cellFree (hfree ha) (hfree hb), compare_of_cellFree (hfree hb) (hfree ha)]
    exact ho.swap ha hb
  chained ha hb hc := by
    rw [compare_of_cellFree (hfree ha) (hfree hb), compare_of_cellFree (hfree hb) (hfree hc),
      compare_of_cellFree (hfree ha) (hfree hc)]
    exact ho.chained ha hb hc

theorem deref_eq_self (hv : v.isPlain = true) : h.deref v = v :=
  deref_of_not_isCell (Value.cellFree_of_isPlain hv).isCell

theorem deref_updatable {c : CellId} (hc : (h.content c).isPlain = true) :
    h.deref (.updatable c) = h.content c :=
  strip_of_not_isCell (Value.cellFree_of_isPlain hc).isCell _

theorem mkSet_eq {items : List Value} (hitems : (Value.set items).isPlain = true) :
    h.mkSet items = .set items := by
  have hfree : ∀ v ∈ items, v.CellFree := (Value.cellFree_of_isPlain hitems).parts
  rw [Value.isPlain, Bool.and_eq_true] at hitems
  have hchain : items.IsChain fun a b => h.compare b a = .gt :=
    Value.isChain_of_increasing (fun a ha b hb => compare_of_cellFree (hfree a ha) (hfree b hb))
      hitems.2
  rw [mkSet_of_not_isCell fun v hv => (hfree v hv).isCell, Value.members_of_isChain hchain]

theorem convert_eq_self (h : Heap) (ty : Ty) :
    ∀ {v w : Value}, v.isPlain = true → h.convert ty v = .ok w → w = v := by
  induction ty using Ty.induction_on_parts with
  | h ty ih =>
    intro v w hv hw
    have hitems : ∀ {vs ws : List Value}, (∀ v ∈ vs, v.isPlain = true) →
        List.Forall₂ (fun v w => ∃ t ∈ ty.parts, h.convert t v = .ok w) vs ws → ws = vs := by
      intro vs ws hvs hws
      rw [← List.forall₂_eq_eq_eq]
      refine ((forall₂_mem hws).imp fun v w ⟨hv, _, t, ht, hw⟩ => ?_).flip
      exact ih t ht (hvs v hv) hw
    have hconverted := converted_of_convert hw
    rw [deref_eq_self hv] at hconverted
    cases hconverted with
    | same => rfl
    | integer | void => cases hv
    | seq hws | tuple hws => rw [hitems (Value.arePlain_iff.1 hv) hws]
    | set hws =>
      have hset := hv
      rw [Value.isPlain, Bool.and_eq_true, Value.arePlain_iff] at hset
      rw [hitems hset.1 hws]
      exact mkSet_eq hv
    | part ht hw => exact ih _ ht hv hw

end Heap

end Animator
