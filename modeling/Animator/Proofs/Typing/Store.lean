import Animator.Proofs.Effect.Basic
import Animator.Proofs.Store.Place
import Animator.Proofs.Typing.Member
import Mathlib.Logic.Relation

/-!
# Heaps with the sources of their cells

Cells are made by declarations, by the state of a module, or outside of the model. A `Tracked` heap
remembers which of these made each cell, and with what initial value. While code of an origin is
evaluated, only three things happen to the cells (`Tracked.Move`): a declaration of the origin makes
one, a value is stored along a path, or none of them is touched. Each of these leaves the cells
sound (`Tracked.Valid`): what the model made holds a member of its type, or nothing yet, and a cell
that holds a member never stops doing so (`Tracked.Retains`).
-/

namespace Animator

/-! ### Storing along a path -/

namespace Heap

variable {h h' : Heap} {c : CellId} {stores : List (CellId × Heap)}

/-- Cells are stored into, one after the other, and this is the heap after each of the stores. -/
inductive Stores : Heap → List (CellId × Heap) → Heap → Prop where
  | nil {h : Heap} : Stores h [] h
  | snoc {h h₁ h₂ : Heap} {stores : List (CellId × Heap)} {c : CellId} (v : Value)
      (before : Stores h stores h₁) (hassign : h₁.assign c v = .ok h₂) :
      Stores h (stores ++ [(c, h₂)]) h₂

theorem Stores.assigning {x : Update Value} (hx : h.Stores stores (x h).2) :
    h.Stores (stores ++ storing c (x h)) ((x >>= assigning c) h).2 := by
  rcases hrun : x h with ⟨fault | w, h₁⟩
  · rw [hrun] at hx
    rw [bind_of_error hrun, storing, List.append_nil]
    exact hx
  · rw [hrun] at hx
    rw [bind_of_ok hrun, storing]
    cases hassign : h₁.assign c w with
    | ok h₂ =>
      rw [assigning_of_ok hassign]
      exact .snoc w hx hassign
    | error fault =>
      rw [assigning_of_error hassign]
      simpa using hx

theorem Stores.bind_pure {α β : Type} {x : Update α} {f : α → β} (hx : h.Stores stores (x h).2) :
    h.Stores stores ((x >>= fun a => pure (f a)) h).2 := by
  rcases hrun : x h with ⟨fault | a, h₁⟩
  · rw [hrun] at hx
    rw [bind_of_error hrun]
    exact hx
  · rw [hrun] at hx
    rw [bind_of_ok hrun]
    exact hx

theorem stores_replaceAt (h : Heap) (v : Value) (path : List Segment) (cur : Value) :
    h.Stores (storesWithin v path cur h) (replaceAt v path cur h).2 := by
  induction path generalizing cur with
  | nil => exact .nil
  | cons s rest ih =>
    rcases replaceAt_cons h v cur s rest with
      ⟨fault, hrun, hstores⟩ | ⟨old, -, hrun, hstores⟩ | ⟨ref, name, c, -, -, -, hrun, hstores⟩
    · rw [hrun, hstores]
      exact .nil
    · rw [hrun, hstores]
      exact (ih old).bind_pure
    · rw [hrun, hstores, ← bind_assoc]
      exact (ih (h.content c)).assigning.bind_pure

theorem Stores.eq_of_nil (hs : h.Stores [] h') : h' = h := by
  generalize hstores : ([] : List (CellId × Heap)) = stores at hs
  cases hs with
  | nil => rfl
  | snoc => simp at hstores

/-- Whole cells have been `Assigned` to, one after the other. -/
def Assigned : Heap → Heap → Prop :=
  Relation.ReflTransGen fun h h' => ∃ c v, h.assign c v = .ok h'

theorem Stores.assigned (hs : h.Stores stores h') : h.Assigned h' := by
  induction hs with
  | nil => exact .refl
  | snoc v _ hassign ih => exact ih.tail ⟨_, v, hassign⟩

/-- Going along a path with `replaceAt` assigns to the cells of the objects on the way, from the
last one back. -/
theorem assigned_replaceAt (h : Heap) (v : Value) (path : List Segment) (cur : Value) :
    h.Assigned (replaceAt v path cur h).2 :=
  (stores_replaceAt h v path cur).assigned

theorem assigned_storeAt (h : Heap) (c : CellId) (path : List Segment) (v : Value) :
    h.Assigned (storeAt c path v h).2 := by
  rw [storeAt_eq]
  exact (stores_replaceAt h v path (h.content c)).assigning.assigned

end Heap

/-! ### Sources -/

/-- What made a cell. -/
inductive CellSource where
  /-- Something outside of the model. -/
  | outside
  /-- The state of a module, when the program was set up. -/
  | field
  /-- A declaration of a variable, which may give an initial value. -/
  | declared (init : Option Expr)

/-- What a cell may hold, given what made it. A variable is `declared` with the type of its cell. -/
def Cell.Sound (o : Origin) (cell : Cell) : CellSource → Prop
  | .outside => True
  | .field => cell.ty.admits cell.value = true ∨ cell.value = .nil
  | .declared init => o.declares init cell.ty ∧
    (cell.ty.admits cell.value = true ∨ init = none ∧ cell.value = .nil)

theorem Cell.Sound.store {o : Origin} {cell : Cell} {source : CellSource} {v : Value}
    (h : cell.Sound o source) (hv : cell.ty.admits v = true) :
    Cell.Sound o { cell with value := v } source := by
  cases source with
  | outside => trivial
  | field => exact .inl hv
  | declared init => exact ⟨h.1, .inl hv⟩

/-- A cell holds a member of its type. -/
def Heap.Filled (h : Heap) (c : CellId) : Prop :=
  (h.cells[c]?).any (fun cell => cell.ty.admits cell.value) = true

instance (h : Heap) (c : CellId) : Decidable (h.Filled c) :=
  inferInstanceAs (Decidable (_ = true))

theorem Heap.filled_iff {h : Heap} {c : CellId} :
    h.Filled c ↔ ∃ cell, h.cells[c]? = some cell ∧ cell.ty.admits cell.value = true :=
  Option.any_eq_true _ _

/-- A heap together with the `sources` of its cells. -/
structure Tracked where
  heap : Heap
  sources : List CellSource

namespace Tracked

variable {o : Origin}

def source (t : Tracked) (c : CellId) : CellSource :=
  t.sources[c]?.getD .outside

/-- The cells are `sound`. -/
structure Valid (o : Origin) (t : Tracked) : Prop where
  length : t.sources.length = t.heap.cells.size
  /-- No chain of cells comes back to a cell. -/
  grounded : t.heap.Grounded
  sound : ∀ c (cell : Cell), t.heap.cells[c]? = some cell → cell.Sound o (t.source c)

/-- A cell that the model made. -/
def Owns (t : Tracked) (c : CellId) : Prop :=
  t.source c ≠ .outside ∧ ∃ cell, t.heap.cells[c]? = some cell

/-- What the model made stays there, and changes only to members of its type. -/
def Retains (t t' : Tracked) : Prop :=
  ∀ c cell, t.source c ≠ .outside → t.heap.cells[c]? = some cell →
    t'.source c = t.source c ∧ ∃ cell', t'.heap.cells[c]? = some cell' ∧ cell'.ty = cell.ty ∧
      (cell'.value = cell.value ∨ cell.ty.admits cell'.value = true)

/-- Everything that happens to cells while code of an `origin` is evaluated. -/
inductive Move (o : Origin) (t : Tracked) : Tracked → Prop where
  /-- A variable that the origin `declares` gets a cell of its type, with what it is `declared`
  with. -/
  | declare (cell : Cell) (init : Option Expr) (hdeclares : o.declares init cell.ty)
      (hmade : cell.Made t.heap init) :
    Move o t ⟨(t.heap.newCell cell).2, t.sources ++ [.declared init]⟩
  | store (c : CellId) (path : List Segment) (v : Value) :
    Move o t { t with heap := (Heap.storeAt c path v t.heap).2 }
  | objects (heap : Heap) (hcells : heap.cells = t.heap.cells) : Move o t { t with heap }

variable {t t' t₁ t₂ : Tracked}

theorem Retains.refl : t.Retains t :=
  fun _ cell _ hcell => ⟨rfl, cell, hcell, rfl, .inl rfl⟩

theorem Retains.trans (h : t.Retains t₁) (h' : t₁.Retains t₂) : t.Retains t₂ := by
  intro c cell hsource hcell
  obtain ⟨hsource₁, cell₁, hcell₁, hty₁, hvalue₁⟩ := h c cell hsource hcell
  obtain ⟨hsource₂, cell₂, hcell₂, hty₂, hvalue₂⟩ := h' c cell₁ (hsource₁ ▸ hsource) hcell₁
  refine ⟨hsource₂.trans hsource₁, cell₂, hcell₂, hty₂.trans hty₁, ?_⟩
  -- A change in the second part is one to a member, whatever happened in the first.
  rw [hty₁] at hvalue₂
  rcases hvalue₂ with hvalue₂ | hvalue₂
  · rw [hvalue₂]
    exact hvalue₁
  · exact .inr hvalue₂

theorem Retains.owns (h : t.Retains t') {c : CellId} (hc : t.Owns c) : t'.Owns c := by
  obtain ⟨hsource, cell, hcell⟩ := hc
  obtain ⟨hsame, cell', hcell', -⟩ := h c cell hsource hcell
  exact ⟨hsame ▸ hsource, cell', hcell'⟩

/-- A cell of the model that is `Filled` holds a member from then on. -/
theorem Retains.filled (h : t.Retains t') {c : CellId} (hc : t.Owns c) (hfilled : t.heap.Filled c) :
    t'.heap.Filled c := by
  obtain ⟨cell, hcell, hvalue⟩ := Heap.filled_iff.1 hfilled
  obtain ⟨-, cell', hcell', hty, hkept⟩ := h c cell hc.1 hcell
  refine Heap.filled_iff.2 ⟨cell', hcell', ?_⟩
  rw [hty]
  rcases hkept with hkept | hkept
  · rw [hkept]
    exact hvalue
  · exact hkept

/-! ### One step -/

/-- An assignment converts the value, so the cell stays sound. -/
theorem Valid.assign {c : CellId} {v : Value} {heap : Heap} (ht : t.Valid o)
    (hassign : t.heap.assign c v = .ok heap) :
    Valid o { t with heap } ∧ t.Retains { t with heap } := by
  obtain ⟨cell, w, hcell, hw, rfl⟩ := Heap.exists_of_assign hassign
  have hmember := ht.grounded.admits_convert cell.ty v w hw
  have hget : ∀ d, (t.heap.store c w).cells[d]? =
      if c = d then (t.heap.cells[d]?).map fun cell => { cell with value := w }
      else t.heap.cells[d]? := fun d => Array.getElem?_modify
  refine ⟨⟨?_, ?_, ?_⟩, ?_⟩
  · rw [ht.length]
    exact Array.size_modify.symm
  · -- The cell that is written to holds no cell now, so no chain gets longer.
    intro d d' hd
    by_cases hdc : d = c
    · subst hdc
      rw [Heap.content_store (by rw [hcell]; rfl)] at hd
      subst hd
      exact absurd (Ty.not_isCell_of_admits hmember) Bool.noConfusion
    · rw [Heap.content_store_of_ne hdc] at hd
      exact ht.grounded d d' hd
  · intro d found hfound
    rw [hget] at hfound
    split at hfound
    · next hcd =>
      subst hcd
      rw [hcell] at hfound
      cases hfound
      exact (ht.sound c cell hcell).store hmember
    · exact ht.sound d found hfound
  · intro d found hsource hfound
    refine ⟨rfl, ?_⟩
    rw [hget]
    split
    · next hcd =>
      subst hcd
      rw [hcell] at hfound ⊢
      cases hfound
      exact ⟨_, rfl, rfl, .inr hmember⟩
    · exact ⟨found, hfound, rfl, .inl rfl⟩

theorem Valid.assigned {heap : Heap} (ht : t.Valid o) (h : t.heap.Assigned heap) :
    Valid o { t with heap } ∧ t.Retains { t with heap } := by
  induction h with
  | refl => exact ⟨ht, .refl⟩
  | tail _ hstep ih =>
    obtain ⟨c, v, hassign⟩ := hstep
    obtain ⟨hvalid, hretains⟩ := ih.1.assign hassign
    exact ⟨hvalid, ih.2.trans hretains⟩

theorem source_push {heap : Heap} {source : CellSource} (c : CellId) :
    Tracked.source ⟨heap, t.sources ++ [source]⟩ c =
      if c = t.sources.length then source else t.source c := by
  unfold Tracked.source
  dsimp only
  rw [List.getElem?_append]
  split
  · next hlt => rw [if_neg (Nat.ne_of_lt hlt)]
  · next hge =>
    by_cases heq : c = t.sources.length
    · rw [if_pos heq, heq, Nat.sub_self]
      rfl
    · have hgt : t.sources.length < c := by
        rcases Nat.lt_trichotomy c t.sources.length with hlt | hsame | hgt
        · exact absurd hlt hge
        · exact absurd hsame heq
        · exact hgt
      rw [if_neg heq, List.getElem?_eq_none (Nat.le_of_lt hgt),
        List.getElem?_eq_none (Nat.sub_pos_of_lt hgt)]

/-- A new cell that is `Sound` leaves the others as they are. -/
theorem Valid.newCell {cell : Cell} {source : CellSource} (ht : t.Valid o)
    (hsound : cell.Sound o source) (hcell : cell.value.isCell = false) :
    Valid o ⟨(t.heap.newCell cell).2, t.sources ++ [source]⟩ ∧
      t.Retains ⟨(t.heap.newCell cell).2, t.sources ++ [source]⟩ := by
  have hget : ∀ d : CellId, (t.heap.newCell cell).2.cells[d]? =
      if d = t.heap.cells.size then some cell else t.heap.cells[d]? := fun d => Array.getElem?_push
  refine ⟨⟨?_, ?_, ?_⟩, ?_⟩
  · rw [List.length_append, ht.length]
    exact (Array.size_push cell).symm
  · intro d d' hd
    rw [Heap.content, hget] at hd
    by_cases hnew : d = t.heap.cells.size
    · rw [if_pos hnew] at hd
      dsimp only at hd
      rw [hd] at hcell
      cases hcell
    · rw [if_neg hnew] at hd
      exact ht.grounded d d' hd
  · intro d found hfound
    rw [source_push, ht.length]
    rw [hget] at hfound
    by_cases hnew : d = t.heap.cells.size
    · rw [if_pos hnew] at hfound ⊢
      cases hfound
      exact hsound
    · rw [if_neg hnew] at hfound ⊢
      exact ht.sound d found hfound
  · -- An old cell has an address below the size, and the new one is at the size.
    intro d found _ hfound
    have hold : d ≠ t.heap.cells.size := by
      rintro rfl
      rw [Array.getElem?_eq_none (Nat.le_refl _)] at hfound
      cases hfound
    refine ⟨?_, found, ?_, rfl, .inl rfl⟩
    · rw [source_push, ht.length, if_neg hold]
    · rw [hget, if_neg hold]
      exact hfound

theorem Valid.made {cell : Cell} {init : Option Expr} (ht : t.Valid o)
    (hdeclares : o.declares init cell.ty) (hmade : cell.Made t.heap init) :
    cell.Sound o (.declared init) ∧ cell.value.isCell = false := by
  cases init with
  | none =>
    have hnil : cell.value = .nil := hmade
    exact ⟨⟨hdeclares, .inr ⟨rfl, hnil⟩⟩, by rw [hnil]; rfl⟩
  | some e =>
    obtain ⟨v, hv⟩ := hmade
    have hmember := ht.grounded.admits_convert cell.ty v cell.value hv
    exact ⟨⟨hdeclares, .inl hmember⟩, Ty.not_isCell_of_admits hmember⟩

theorem Valid.untouched (ht : t.Valid o) (hlength : t'.sources.length = t'.heap.cells.size)
    (hgrounded : t'.heap.Grounded) (hsource : ∀ c, t'.source c = t.source c)
    (hcells : ∀ c, t.source c ≠ .outside → t'.heap.cells[c]? = t.heap.cells[c]?) :
    t'.Valid o ∧ t.Retains t' := by
  refine ⟨⟨hlength, hgrounded, fun c cell hcell => ?_⟩, fun c cell hmodel hcell => ?_⟩
  · rw [hsource]
    by_cases hmodel : t.source c = .outside
    · rw [hmodel]
      trivial
    · exact ht.sound c cell (hcells c hmodel ▸ hcell)
  · exact ⟨hsource c, cell, (hcells c hmodel).trans hcell, rfl, .inl rfl⟩

theorem Move.valid (ht : t.Valid o) (hmove : t.Move o t') : t'.Valid o ∧ t.Retains t' := by
  cases hmove with
  | declare cell init hdeclares hmade =>
    obtain ⟨hsound, hcell⟩ := ht.made hdeclares hmade
    exact ht.newCell hsound hcell
  | store c path v => exact ht.assigned (Heap.assigned_storeAt t.heap c path v)
  | objects heap hcells =>
    refine ht.untouched (hcells ▸ ht.length) (fun c c' hc => ?_) (fun _ => rfl) fun c _ => by
      rw [hcells]
    rw [Heap.content, hcells] at hc
    exact ht.grounded c c' hc

/-! ### Many steps -/

def Leads (o : Origin) : Tracked → Tracked → Prop :=
  Relation.ReflTransGen (Move o)

/-- Cells are brought from outside, and those that came from there before may be changed there. -/
structure Brings (t t' : Tracked) : Prop where
  length : t'.sources.length = t'.heap.cells.size
  /-- Outside, too, a cell can only be put into a newer one. -/
  grounded : t'.heap.Grounded
  source : ∀ c, t'.source c = t.source c
  /-- The cells of the model are the same. -/
  cells : ∀ c, t.source c ≠ .outside → t'.heap.cells[c]? = t.heap.cells[c]?

/-- Evaluations have taken place, and cells have been brought from outside. -/
def Goes (o : Origin) : Tracked → Tracked → Prop :=
  Relation.ReflTransGen fun t t' => t.Move o t' ∨ t.Brings t'

theorem Leads.goes (h : t.Leads o t') : t.Goes o t' := by
  induction h with
  | refl => exact .refl
  | tail _ hmove ih => exact ih.tail (.inl hmove)

theorem Goes.valid (h : t.Goes o t') (ht : t.Valid o) : t'.Valid o ∧ t.Retains t' := by
  induction h with
  | refl => exact ⟨ht, .refl⟩
  | tail _ hstep ih =>
    rcases hstep with hmove | hbrings
    · obtain ⟨hvalid, hretains⟩ := hmove.valid ih.1
      exact ⟨hvalid, ih.2.trans hretains⟩
    · obtain ⟨hvalid, hretains⟩ :=
        ih.1.untouched hbrings.length hbrings.grounded hbrings.source hbrings.cells
      exact ⟨hvalid, ih.2.trans hretains⟩

end Tracked

end Animator
