import Animator.Proofs.Conversion.Basic
import Animator.Proofs.Conversion.Integral

/-!
# What conversion keeps

A converted value equals the value it was made from, as long as the integers that take the place of
reals have these reals as their nearest doubles, and the members of sets stay in order.
-/

namespace Animator

namespace Value

variable {v w : Value} {ls : List Value} {cmp : Value → Value → Ordering} {K : Value → Prop}
  {as bs : List Value}

/-! ### Cells in values -/

section Cells

variable {cell cell' : CellId → Value}

theorem parts_mapCells (hv : v.isCell = false) :
    (v.mapCells cell).parts = v.parts.map (·.mapCells cell) := by
  cases v with
  | updatable c => cases hv
  | seq items | set items | tuple items => exact mapCellsList_eq items
  | record tag fields => simp [mapCells, parts, mapCellsFields_eq]
  | _ => rfl

theorem mapCells_congr (hv : v.isCell = false)
    (h : ∀ w ∈ v.parts, w.mapCells cell = w.mapCells cell') : v.mapCells cell =
      v.mapCells cell' := by
  cases v with
  | updatable c => cases hv
  | token inner => exact congrArg token (h inner (List.mem_singleton_self inner))
  | seq items | set items | tuple items =>
    simp only [mapCells, mapCellsList_eq]
    exact congrArg _ (List.map_congr_left h)
  | record tag fields =>
    simp only [mapCells, mapCellsFields_eq]
    refine congrArg (record tag) (List.map_congr_left fun f hf => ?_)
    rw [h f.2 (List.mem_map.2 ⟨f, hf, rfl⟩)]
  | _ => rfl

/-- If `mapCells` leaves no cell, then it does not matter that the cells could be replaced by more.
-/
theorem mapCells_eq_of_cellFree (hcell : ∀ c, (cell c).CellFree → cell' c = cell c)
    (hv : (v.mapCells cell).CellFree) : v.mapCells cell' = v.mapCells cell := by
  induction v using induction_on_parts with
  | h v ih =>
    cases hv' : v.isCell with
    | true =>
      cases v with
      | updatable c => exact hcell c hv
      | _ => cases hv'
    | false =>
      have hparts := hv.parts
      rw [parts_mapCells hv'] at hparts
      exact mapCells_congr hv' fun w hw => ih w hw (hparts _ (List.mem_map_of_mem hw))

end Cells

end Value

namespace Heap

variable {h : Heap} {ty : Ty} {v w : Value} {vs ws : List Value}

theorem resolveCell_succ {n : Nat} {c : CellId} (hc : (h.resolveCell n c).CellFree) :
    h.resolveCell (n + 1) c = h.resolveCell n c := by
  induction n generalizing c with
  | zero => cases hc.isCell
  | succ n ih => exact Value.mapCells_eq_of_cellFree (fun _ => ih) hc

theorem isCell_strip {n : Nat} (hv : (v.mapCells (h.resolveCell n)).CellFree) :
    (h.strip n v).isCell = false := by
  induction n generalizing v with
  | zero =>
    cases v with
    | updatable c => cases hv.isCell
    | _ => rfl
  | succ n ih =>
    cases v with
    | updatable c => exact ih hv
    | _ => rfl

theorem resolve_strip {n : Nat} (hv : (h.resolve v).CellFree) :
    h.resolve (h.strip n v) = h.resolve v := by
  induction n generalizing v with
  | zero => rw [strip]; simp
  | succ n ih =>
    cases v with
    | updatable c =>
      have hcontent : h.resolve (h.content c) = h.resolve (.updatable c) :=
        Value.mapCells_eq_of_cellFree (fun _ => resolveCell_succ) hv
      rw [strip, ih (hcontent ▸ hv), hcontent]
    | _ => rfl

/-- What is behind the cells around a value (`deref`) can be resolved just as well. -/
theorem isCell_deref (hv : (h.resolve v).CellFree) : (h.deref v).isCell = false :=
  isCell_strip hv

theorem resolve_deref (hv : (h.resolve v).CellFree) : h.resolve (h.deref v) = h.resolve v :=
  resolve_strip hv

theorem convert_deref (hv : (h.deref v).isCell = false) :
    h.convert ty (h.deref v) = h.convert ty v := by
  cases ty <;> simp only [convert, deref_of_not_isCell hv]

end Heap

/-! ### Values that keep their place -/

namespace Value

variable {v w : Value} {ls : List Value} {cmp : Value → Value → Ordering} {K : Value → Prop}
  {as bs : List Value}

/-- The integer that takes the place of a `real` number. -/
def integer? : Value → Option Value
  | .real x => (Heap.integerOfReal? x).map .int
  | _ => none

/-- The sets in the value are `Increasing`, at any depth, and none of the reals in such a set is the
nearest double of two integers that are in it or take the place of reals in it. -/
inductive SharpSets : Value → Prop where
  | of_parts {v : Value}
      (hset : ∀ items, v = .set items →
        Increasing compare items ∧ Sharp (v.leaves ++ v.leaves.filterMap integer?))
      (hparts : ∀ w ∈ v.parts, w.SharpSets) : v.SharpSets

/-- Nothing about the value can get lost in a conversion. -/
structure Faithful (v : Value) : Prop where
  cells : v.CellFree
  /-- There is no result of a return without a value in it. -/
  results : .voidReturn ∉ v.leaves
  /-- Its integral reals are in the range of integers, the upper end included, and none of them is
  negative zero. -/
  numbers : ∀ x n, .real x ∈ v.leaves → Heap.integerOfReal? x = some n →
    x.truncated.1 ≤ 2 ^ 63 ∧ x ≠ Binary64.negativeZero
  /-- Its sets are in order and stay so. -/
  sets : v.SharpSets

theorem sharpSets_of_rank (hv : v.rank = 2) : v.SharpSets := by
  rcases int_or_real_of_rank hv with ⟨i, rfl⟩ | ⟨x, rfl⟩ <;>
    exact .of_parts (fun _ h => by cases h) fun _ h => by cases h

theorem Faithful.parts (hv : v.Faithful) (hw : w ∈ v.parts) : w.Faithful := by
  have hsub := leaves_subset_of_mem_parts hw
  obtain ⟨-, hsets⟩ := hv.sets
  exact ⟨hv.cells.parts w hw, fun h => hv.results (hsub h),
    fun x n hx => hv.numbers x n (hsub hx), hsets w hw⟩

/-- What a leaf of a `Faithful` value becomes is the leaf or the integer in its place. -/
theorem Faithful.mem_of_stems (hv : v.Faithful) {l : Value} (hl : Stems v.leaves l) :
    l ∈ v.leaves ++ v.leaves.filterMap integer? := by
  cases hl with
  | same hl => exact List.mem_append_left _ hl
  | integer hx hn =>
    refine List.mem_append_right _ (List.mem_filterMap.2 ⟨_, hx, ?_⟩)
    rw [integer?, hn]
    rfl
  | void hl => exact absurd hl hv.results

theorem Sharp.ordered (hs : Sharp ls) : Ordered compare fun v => v.leaves ⊆ ls where
  swap {a b} _ _ := swap_compare a b
  chained {a b c} ha hb hc := hs.chained_compare a ha b c hb hc

theorem compare_int_real_iff {n : Int} {x : Binary64} :
    (int n).compare (real x) = .eq ↔ Binary64.ofInt n = x := by
  rw [compare, Binary64.totalCompare, Int.compare_eq_eq]
  exact ⟨Binary64.key_injective, congrArg Binary64.key⟩

theorem increasing_of_forall₂ (ho : Ordered cmp K) (has : ∀ v ∈ as, K v) (hbs : ∀ v ∈ bs, K v)
    (h : List.Forall₂ (fun a b => cmp b a = .eq) as bs) (hinc : Increasing cmp as) :
    Increasing cmp bs := by
  induction h with
  | nil => exact .nil
  | @cons a b as bs hab hrest ih =>
    obtain ⟨hfirst, hinc⟩ := List.pairwise_cons.1 hinc
    obtain ⟨ha, has⟩ := List.forall_mem_cons.1 has
    obtain ⟨hb, hbs⟩ := List.forall_mem_cons.1 hbs
    refine List.pairwise_cons.2 ⟨fun y hy => ?_, ih has hbs hinc⟩
    obtain ⟨x, hx, hxy⟩ := exists_of_mem_right hrest hy
    rw [ho.congr_left hb ha (hbs y hy) hab, ← ho.congr_right ha (hbs y hy) (has x hx) hxy]
    exact hfirst x hx

end Value

namespace Heap

variable {h : Heap} {ty : Ty} {v w : Value} {vs ws : List Value}

theorem resolve_seq : h.resolve (.seq vs) = .seq (vs.map h.resolve) :=
  congrArg Value.seq (Value.mapCellsList_eq vs)

theorem resolve_tuple : h.resolve (.tuple vs) = .tuple (vs.map h.resolve) :=
  congrArg Value.tuple (Value.mapCellsList_eq vs)

theorem resolve_set : h.resolve (.set vs) = .set (vs.map h.resolve) :=
  congrArg Value.set (Value.mapCellsList_eq vs)

/-- The set that `mkSet` makes of some values with increasing contents has these contents as its
members. -/
theorem resolve_mkSet (hws : ∀ w ∈ ws, (h.resolve w).CellFree)
    (hinc : (ws.map h.resolve).Pairwise fun a b => b.compare a = .gt) :
    h.resolve (h.mkSet ws) = .set (ws.map h.resolve) := by
  have hderef : (ws.map h.deref).map h.resolve = ws.map h.resolve := by
    rw [List.map_map]
    exact List.map_congr_left fun w hw => resolve_deref (hws w hw)
  have hmembers : Value.members h.compare (ws.map h.deref) = ws.map h.deref := by
    rw [← hderef] at hinc
    exact Value.members_of_isChain (List.pairwise_map.1 hinc).isChain
  rw [mkSet, hmembers, resolve_set, hderef]

/-- The second value equals the first one, and its leaves stem from those of the first one. -/
def Kept (v w : Value) : Prop :=
  w.compare v = .eq ∧ ∀ l ∈ w.leaves, Value.Stems v.leaves l

theorem kept_of_parts (hrank : w.rank = v.rank) (hhead : w.compareHead v = .eq)
    (hw : w.leaves = w.parts.flatMap Value.leaves)
    (hparts : List.Forall₂ Kept v.parts w.parts) : Kept v w := by
  refine ⟨?_, fun l hl => ?_⟩
  · rw [Value.compare_of_rank_eq hrank, hhead, Ordering.eq_then]
    exact compareLex_eq_iff_forall₂.2 (hparts.imp fun _ _ hab => hab.1).flip
  · rw [hw] at hl
    obtain ⟨b, hb, hl⟩ := List.mem_flatMap.1 hl
    obtain ⟨a, ha, hab⟩ := exists_of_mem_right hparts hb
    exact (hab.2 l hl).mono (Value.leaves_subset_of_mem_parts ha)

/-- The members of a `Faithful` set stay in order when they are replaced by what is kept of them. -/
theorem pairwise_of_kept (hv : (Value.set vs).Faithful) (hitems : List.Forall₂ Kept vs ws) :
    ws.Pairwise fun a b => b.compare a = .gt := by
  obtain ⟨hset, -⟩ := hv.sets
  obtain ⟨hinc, hsharp⟩ := hset vs rfl
  have hsub : ∀ a ∈ vs, a.leaves ⊆ (Value.set vs).leaves :=
    fun a ha => Value.leaves_subset_of_mem_parts ha
  have hvs : ∀ a ∈ vs, a.leaves ⊆ (Value.set vs).leaves ++
      (Value.set vs).leaves.filterMap Value.integer? :=
    fun a ha => List.subset_append_of_subset_left _ (hsub a ha)
  have hws : ∀ b ∈ ws, b.leaves ⊆ (Value.set vs).leaves ++
      (Value.set vs).leaves.filterMap Value.integer? := by
    intro b hb l hl
    obtain ⟨a, ha, hab⟩ := exists_of_mem_right hitems hb
    exact hv.mem_of_stems ((hab.2 l hl).mono (hsub a ha))
  have hequal := hitems.imp fun _ _ hab => hab.1
  exact hsharp.ordered.pairwise_gt hws
    (Value.increasing_of_forall₂ hsharp.ordered hvs hws hequal hinc)

/-- The content of a `Faithful` value is `Kept` when it is converted. -/
theorem kept_of_convert (hv : (h.resolve v).Faithful) (hw : h.convert ty v = .ok w) :
    Kept (h.resolve v) (h.resolve w) := by
  induction ty using Ty.induction_on_parts generalizing v w with
  | h ty ih =>
    have hcell := isCell_deref hv.cells
    have hresolve := resolve_deref hv.cells
    rw [← convert_deref hcell] at hw
    rw [← hresolve] at hv ⊢
    generalize h.deref v = u at *
    have hitem : ∀ {vs ws}, (h.resolve u).parts = vs.map h.resolve →
        List.Forall₂ (fun v w => ∃ t ∈ ty.parts, h.convert t v = .ok w) vs ws →
        List.Forall₂ Kept (vs.map h.resolve) (ws.map h.resolve) := by
      intro vs ws hvs hws
      rw [List.forall₂_map_left_iff, List.forall₂_map_right_iff]
      refine (forall₂_mem hws).imp fun x y ⟨hx, _, t, ht, hconvert⟩ => ?_
      exact ih t ht (hv.parts (hvs ▸ List.mem_map_of_mem hx)) hconvert
    have hconverted := converted_of_convert hw
    rw [deref_of_not_isCell hcell] at hconverted
    cases hconverted with
    | same => exact ⟨Value.compare_self _, fun l hl => .same hl⟩
    | @integer x n hn =>
      have heq := (ofInt_eq_iff hn).2 (hv.numbers x n (List.mem_singleton_self _) hn)
      refine ⟨?_, fun l hl => ?_⟩
      · exact Value.compare_int_real_iff.2 heq
      · rw [List.mem_singleton.1 hl]
        exact .integer (List.mem_singleton_self _) hn
    | void => exact absurd (List.mem_singleton_self _) hv.results
    | seq hitems =>
      rw [resolve_seq, resolve_seq]
      exact kept_of_parts rfl rfl (Value.leavesOfItems_eq _)
        (hitem (congrArg Value.parts resolve_seq) hitems)
    | tuple hitems =>
      rw [resolve_tuple, resolve_tuple]
      exact kept_of_parts rfl rfl (Value.leavesOfItems_eq _)
        (hitem (congrArg Value.parts resolve_tuple) hitems)
    | @set vs ws hitems =>
      have hkept := hitem (congrArg Value.parts resolve_set) hitems
      rw [resolve_set] at hv
      have hfree : ∀ w ∈ ws, (h.resolve w).CellFree := by
        intro w hw
        obtain ⟨a, ha, hab⟩ := exists_of_mem_right hkept (List.mem_map_of_mem hw)
        exact (hv.parts ha).cells.of_stems hab.2
      rw [resolve_mkSet hfree (pairwise_of_kept hv hkept), resolve_set]
      exact kept_of_parts rfl rfl (Value.leavesOfItems_eq _) hkept
    | part ht hw => exact ih _ ht hv hw

/-- A conversion gives a value that equals the value itself, if that is `Faithful` once its cells
are replaced by their contents. A `real` number on its own is kept by the types of integers exactly
if it is in their range, the upper end included, and is not negative zero. -/
theorem convert_keeps_value (h : Heap) :
    (∀ ty v w, (h.resolve v).Faithful → h.convert ty v = .ok w → h.compare w v = .eq) ∧
      ∀ ty ∈ [Ty.int, .nat, .nat1], ∀ x w, h.convert ty (.real x) = .ok w →
        (h.compare w (.real x) = .eq ↔ x.truncated.1 ≤ 2 ^ 63 ∧ x ≠ Binary64.negativeZero) := by
  refine ⟨fun ty v w hv hw => (kept_of_convert hv hw).1, fun ty hty x w hw => ?_⟩
  have hinteger : ∃ n, integerOfReal? x = some n ∧ w = .int n := by
    simp only [List.mem_cons, List.not_mem_nil, or_false] at hty
    rcases hty with rfl | rfl | rfl <;> cases (convert_eq_ok_iff_of_not_isCell rfl).1 hw with
    | same hkeeps => simp [Ty.admits] at hkeeps
    | integer hn _ _ => exact ⟨_, hn, rfl⟩
  obtain ⟨n, hn, rfl⟩ := hinteger
  exact Value.compare_int_real_iff.trans (ofInt_eq_iff hn)

def filledCells : Heap where
  cells := #[{ value := .real (.ofInt (2 ^ 60)), ty := .real },
    { value := .set [.int 1, .real (.ofInt 2)], ty := .set .real }]

def filledPair : Value :=
  .tuple [.updatable 0, .updatable 1]

theorem faithful_filledPair : (filledCells.resolve filledPair).Faithful := by
  have hresolve : filledCells.resolve filledPair =
      .tuple [.real (.ofInt (2 ^ 60)), .set [.int 1, .real (.ofInt 2)]] := rfl
  rw [hresolve]
  refine ⟨Value.cellFree_iff.2 ?_, ?_, ?_, ?_⟩
  · simp [Value.leaves, Value.leavesOfItems, Value.isCell]
  · simp [Value.leaves, Value.leavesOfItems]
  · intro x n hx _
    have hx' : x = .ofInt (2 ^ 60) ∨ x = .ofInt 2 := by
      simpa [Value.leaves, Value.leavesOfItems] using hx
    rcases hx' with rfl | rfl <;> decide +kernel
  · refine .of_parts (fun _ h => by cases h) fun w hw => ?_
    have hw' : w = .real (.ofInt (2 ^ 60)) ∨ w = .set [.int 1, .real (.ofInt 2)] := by
      simpa [Value.parts] using hw
    rcases hw' with rfl | rfl
    · exact Value.sharpSets_of_rank rfl
    · refine .of_parts (fun _ h => ?_) fun w hw => Value.sharpSets_of_rank ?_
      · obtain rfl := Value.set.inj h
        refine ⟨List.pairwise_pair.2 ?_, by decide +kernel⟩
        decide +kernel
      · have hw' : w = .int 1 ∨ w = .real (.ofInt 2) := by simpa [Value.parts] using hw
        rcases hw' with rfl | rfl <;> rfl

theorem convert_keeps_value_cells :
    filledCells.convert (.product [.nat1, .set .int]) filledPair =
        .ok (.tuple [.int (2 ^ 60), .set [.int 1, .int 2]]) ∧
      filledCells.compare (.tuple [.int (2 ^ 60), .set [.int 1, .int 2]]) filledPair = .eq ∧
      convert {} .int (.real (.ofInt (2 ^ 63))) = .ok (.int Word.maxInt) ∧
      compare {} (.int Word.maxInt) (.real (.ofInt (2 ^ 63))) = .eq := by
  have hpair : filledCells.convert (.product [.nat1, .set .int]) filledPair =
      .ok (.tuple [.int (2 ^ 60), .set [.int 1, .int 2]]) := by rfl
  have htop : convert {} .int (.real (.ofInt (2 ^ 63))) = .ok (.int Word.maxInt) := by rfl
  refine ⟨hpair, (convert_keeps_value filledCells).1 _ _ _ faithful_filledPair hpair, htop, ?_⟩
  refine ((convert_keeps_value {}).2 .int List.mem_cons_self _ _ htop).2 ?_
  decide +kernel

/-- A set of pairs that are in order only because two different integers have the same nearest
double. -/
def blurredPairs : Value :=
  .set [.tuple [.int (2 ^ 53 + 1), .int 1], .tuple [.real (.ofInt (2 ^ 53)), .int 2]]

/-- Reals that `convert` accepts for an integer type without keeping them: one beyond the range of
integers, negative zero, a set of two that become one, and a set that is put into another order. -/
theorem convert_loses_numbers :
    (convert {} .int (.real (.ofInt (2 ^ 64))) = .ok (.int Word.maxInt) ∧
      compare {} (.int Word.maxInt) (.real (.ofInt (2 ^ 64))) = .lt) ∧
    (convert {} .int (.real .negativeZero) = .ok (.int 0) ∧
      compare {} (.int 0) (.real .negativeZero) = .gt) ∧
    (convert {} (.set .int) (.set [.real (.ofInt (2 ^ 64)), .real (.ofInt (2 ^ 65))]) =
        .ok (.set [.int Word.maxInt]) ∧
      compare {} (.set [.int Word.maxInt])
        (.set [.real (.ofInt (2 ^ 64)), .real (.ofInt (2 ^ 65))]) = .lt) ∧
    (convert {} (.set (.product [.int, .int])) blurredPairs =
        .ok (.set [.tuple [.int (2 ^ 53), .int 2], .tuple [.int (2 ^ 53 + 1), .int 1]]) ∧
      compare {} (.set [.tuple [.int (2 ^ 53), .int 2], .tuple [.int (2 ^ 53 + 1), .int 1]])
        blurredPairs = .lt) := by
  have hzero : integerOfReal? .negativeZero = some 0 := by decide +kernel
  refine ⟨⟨rfl, ?_⟩, ⟨?_, ?_⟩, ⟨rfl, ?_⟩, rfl, ?_⟩
  · decide +kernel
  · simp [convert, deref, strip, convertInteger, hzero]
  · decide +kernel
  · decide +kernel
  · decide +kernel

end Heap

end Animator
