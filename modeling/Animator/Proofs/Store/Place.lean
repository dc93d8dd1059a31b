import Animator.Proofs.Origin.Machine
import Animator.Proofs.Store.Component

/-!
# Places

A path leads from a cell through records and sequences, and where it comes to an object it goes on
in the cell of a member of that object. The place that it leads to is the last cell together with
the rest of the path, which stays inside of that cell (`Place`, `Heap.Walk`). Assigning to a path
changes the content of that cell at that place, and no other cell (`Heap.storeAt_spec`): the cells
on the way are written again, but with what they held before. If the cell itself is among them, then
the change is lost.
-/

namespace Animator

variable {s : Segment}

/-! ### Cells -/

namespace Heap

variable {h h' : Heap} {c c' : CellId} {v w : Value}

theorem content_of_getElem? {cell : Cell} (hc : h.cells[c]? = some cell) :
    h.content c = cell.value := by
  rw [content, hc]

def IsPlain (h : Heap) : Prop :=
  ∀ c, (h.content c).isPlain = true

theorem isPlain_iff : h.IsPlain ↔ h.cells.all (·.value.isPlain) = true := by
  rw [Array.all_eq_true_iff_forall_mem]
  constructor
  · intro hh cell hcell
    obtain ⟨c, hc⟩ := Array.mem_iff_getElem?.1 hcell
    rw [← content_of_getElem? hc]
    exact hh c
  · intro hcells c
    cases hc : h.cells[c]? with
    | none =>
      rw [content, hc]
      rfl
    | some cell =>
      rw [content_of_getElem? hc]
      exact hcells cell (Array.mem_of_getElem? hc)

instance : DecidablePred IsPlain :=
  fun _ => decidable_of_iff _ isPlain_iff.symm

theorem content_store (hc : (h.cells[c]?).isSome = true) : (h.store c v).content c = v := by
  obtain ⟨cell, hcell⟩ := Option.isSome_iff_exists.1 hc
  have hmodify : (h.store c v).cells[c]? = some { cell with value := v } := by
    rw [store, Array.getElem?_modify, if_pos rfl, hcell]
    rfl
  rw [content_of_getElem? hmodify]

theorem content_store_of_ne (hne : c' ≠ c) : (h.store c v).content c' = h.content c' := by
  rw [content, content, store, Array.getElem?_modify, if_neg hne.symm]

theorem store_content : h.store c (h.content c) = h := by
  suffices hcells : (h.store c (h.content c)).cells = h.cells by
    cases h
    exact congrArg (Heap.mk · _) hcells
  refine Array.ext_getElem? fun i => ?_
  rw [store, Array.getElem?_modify]
  split
  · next hi =>
    subst hi
    cases hcell : h.cells[c]? with
    | none => rfl
    | some cell => rw [content_of_getElem? hcell, Option.map_some]
  · rfl

theorem store_store : (h.store c v).store c w = h.store c w := by
  suffices hcells : ((h.store c v).store c w).cells = (h.store c w).cells from
    congrArg (Heap.mk · _) hcells
  refine Array.ext_getElem? fun i => ?_
  simp only [store, Array.getElem?_modify]
  split
  · cases h.cells[i]? <;> rfl
  · rfl

theorem get_bind {α : Type} (f : Heap → Update α) (h : Heap) : (get >>= f) h = f h h :=
  rfl

theorem assigning_of_ok (hassign : h.assign c v = .ok h') : assigning c v h = (.ok (), h') := by
  rw [assigning, get_bind, hassign]
  rfl

theorem assigning_of_error {fault : ValueFault} (hassign : h.assign c v = .error fault) :
    assigning c v h = (.error fault, h) := by
  rw [assigning, get_bind, hassign]
  rfl

theorem exists_of_assign (hassign : h.assign c v = .ok h') :
    ∃ cell w, h.cells[c]? = some cell ∧ h.convert cell.ty v = .ok w ∧ h' = h.store c w := by
  unfold assign at hassign
  split at hassign
  · next cell hcell =>
    obtain ⟨w, hw, hassign⟩ := bind_eq_ok hassign
    cases hassign
    exact ⟨cell, w, hcell, hw, rfl⟩
  · cases hassign

theorem store_of_assigning (hv : v.isPlain = true) (hrun : assigning c v h = (.ok (), h')) :
    (h.cells[c]?).isSome = true ∧ h' = h.store c v := by
  cases hassign : h.assign c v with
  | error fault => cases (assigning_of_error hassign).symm.trans hrun
  | ok h₁ =>
    cases (assigning_of_ok hassign).symm.trans hrun
    obtain ⟨cell, w, hcell, hw, rfl⟩ := exists_of_assign hassign
    exact ⟨by rw [hcell]; rfl, by rw [convert_eq_self h _ hv hw]⟩

end Heap

/-! ### Walks -/

/-- A place inside of a cell, and the cells on the way to it. -/
structure Place where
  /-- The cells that have been left, each with the path inside of it to an object. -/
  through : List (CellId × List Segment)
  cell : CellId
  inside : List Segment
  deriving DecidableEq

namespace Place

def visited (p : Place) : List CellId :=
  p.through.map (·.1)

/-- The cells on the way that assigning to the place writes again: from the first one on in which a
component had to be gone through. -/
def rewritten (p : Place) : List CellId :=
  (p.through.dropWhile (·.2.isEmpty)).map (·.1)

theorem rewritten_subset {p : Place} : p.rewritten ⊆ p.visited :=
  List.map_subset _ (List.dropWhile_sublist _).subset

end Place

def Heap.read? (h : Heap) (p : Place) : Option Value :=
  (h.content p.cell).at? p.inside

/-- One step of a path leads from one place to another. -/
inductive Heap.Goes (h : Heap) (p : Place) : Segment → Place → Prop where
  | inside {s : Segment} {x : Value} (hx : h.read? { p with inside := p.inside ++ [s] } = some x) :
    Goes h p s { p with inside := p.inside ++ [s] }
  /-- From an object to the cell of a `member`. -/
  | member {ref : ObjectRef} {name : Name} {c : CellId} (hobject : h.read? p = some (.object ref))
      (hc : h.field ref name = .ok (.updatable c)) :
    Goes h p (.field name) { through := p.through ++ [(p.cell, p.inside)], cell := c, inside := [] }

/-- Where one step of a path leads to, computed. -/
def Heap.step? (h : Heap) (p : Place) (s : Segment) : Option Place :=
  match h.read? p, s with
  | some (.object ref), .field name =>
    match h.field ref name with
    | .ok (.updatable c) =>
      some { through := p.through ++ [(p.cell, p.inside)], cell := c, inside := [] }
    | _ => none
  | some w, s =>
    if (w.component? s).isSome then some { p with inside := p.inside ++ [s] } else none
  | none, _ => none

/-- A path leads from one place to another. -/
def Heap.Walk (h : Heap) : Place → List Segment → Place → Prop
  | p, [], q => q = p
  | p, s :: rest, q => ∃ r, h.Goes p s r ∧ h.Walk r rest q

namespace Heap

variable {h h' : Heap} {p q : Place} {v w cur : Value} {path : List Segment}

theorem Walk.append {path' : List Segment} :
    h.Walk p (path ++ path') q ↔ ∃ r, h.Walk p path r ∧ h.Walk r path' q := by
  induction path generalizing p with
  | nil => exact ⟨fun hq => ⟨p, rfl, hq⟩, fun ⟨_, hr, hq⟩ => hr ▸ hq⟩
  | cons s rest ih =>
    constructor
    · rintro ⟨r, hgoes, hwalk⟩
      obtain ⟨r', hr', hq⟩ := ih.1 hwalk
      exact ⟨r', ⟨r, hgoes, hr'⟩, hq⟩
    · rintro ⟨r', ⟨r, hgoes, hr'⟩, hq⟩
      exact ⟨r, hgoes, ih.2 ⟨r', hr', hq⟩⟩

/-- A cell that is left on the way is left from somewhere beyond the place at which it was entered.
-/
theorem Walk.through (hwalk : h.Walk p path q) :
    q.through = p.through ∨
      ∃ i later, q.through = p.through ++ (p.cell, p.inside ++ i) :: later := by
  induction path generalizing p with
  | nil =>
    subst hwalk
    exact .inl rfl
  | cons s rest ih =>
    obtain ⟨r, hgoes, hwalk⟩ := hwalk
    have hr := ih hwalk
    cases hgoes with
    | inside hx =>
      refine hr.imp_right fun ⟨i, later, hq⟩ => ⟨s :: i, later, ?_⟩
      rw [hq, List.append_assoc, List.singleton_append]
    | member hobject hc =>
      refine .inr ⟨[], ?_⟩
      rw [List.append_nil]
      rcases hr with hq | ⟨i, later, hq⟩
      · exact ⟨[], hq⟩
      · exact ⟨_, hq.trans (List.append_assoc ..)⟩

/-- The cells that are `rewritten`, if a path is followed after cells that were left as a whole. -/
theorem Walk.rewritten {c : CellId} {before later : List (CellId × List Segment)}
    (hwalk : h.Walk ⟨before, c, []⟩ path q) (hwhole : ∀ left ∈ before, left.2 = [])
    (hfirst : ∀ {name rest ref}, path = .field name :: rest → h.content c ≠ .object ref)
    (hq : q.through = before ++ later) : q.rewritten = later.map (·.1) := by
  -- The first of them is left from inside of it.
  have hlater : later = [] ∨ ∃ s i rest, later = (c, s :: i) :: rest := by
    cases path with
    | nil =>
      subst hwalk
      exact .inl (List.self_eq_append_right.1 hq)
    | cons s rest =>
      obtain ⟨r, hgoes, hwalk⟩ := hwalk
      cases hgoes with
      | inside hx =>
        rcases hwalk.through with hthrough | ⟨i, rest, hthrough⟩
        · exact .inl (List.self_eq_append_right.1 (hthrough.symm.trans hq))
        · exact .inr ⟨s, i, rest, List.append_cancel_left (hq.symm.trans hthrough)⟩
      | member hobject hc => exact absurd (Option.some.inj hobject) (hfirst rfl)
  have hbefore : ∀ left ∈ before, left.2.isEmpty = true :=
    fun left hleft => List.isEmpty_iff.2 (hwhole left hleft)
  rw [Place.rewritten, hq, List.dropWhile_append_of_pos hbefore]
  rcases hlater with rfl | ⟨s, i, rest, rfl⟩ <;> rfl

/-- A heap after a value has been `Stored` at a place, and then some cells have been written again.
-/
inductive Stored (h : Heap) (v : Value) (q : Place) (rewritten : List CellId) : Heap → Prop where
  | written (hexists : (h.cells[q.cell]?).isSome = true) :
    Stored h v q rewritten (h.store q.cell (Value.put v (h.content q.cell) q.inside))
  /-- The cell itself has been written again, with what it held before. -/
  | lost (hmem : q.cell ∈ rewritten) : Stored h v q rewritten h

section Stored

variable {rewritten : List CellId} {c : CellId}

theorem Stored.eq_store (hstored : h.Stored v q rewritten h') (hq : q.cell ∉ rewritten) :
    (h.cells[q.cell]?).isSome = true ∧
      h' = h.store q.cell (Value.put v (h.content q.cell) q.inside) := by
  cases hstored with
  | written hexists => exact ⟨hexists, rfl⟩
  | lost hmem => exact absurd hmem hq

theorem Stored.content_of_ne (hstored : h.Stored v q rewritten h') (hc : c ≠ q.cell) :
    h'.content c = h.content c := by
  cases hstored with
  | written => exact content_store_of_ne hc
  | lost => rfl

theorem Stored.at?_of_diverge (hstored : h.Stored v q rewritten h')
    (hpath : Value.Diverge q.inside path) :
    (h'.content q.cell).at? path = (h.content q.cell).at? path := by
  cases hstored with
  | written hexists => rw [content_store hexists, Value.at?_put_of_diverge hpath]
  | lost => rfl

theorem Stored.isPlain (hstored : h.Stored v q rewritten h') (hv : v.isPlain = true)
    (hheap : h.IsPlain) : h'.IsPlain := by
  intro c
  cases hstored with
  | lost => exact hheap c
  | written hexists =>
    by_cases hc : c = q.cell
    · rw [hc, content_store hexists]
      exact Value.isPlain_put (hheap q.cell) hv
    · rw [content_store_of_ne hc]
      exact hheap c

end Stored

/-- What replacing does on the way to a place: as long as the path stays in a cell, it makes a
changed copy; from an object on it changes another cell, and the copy is the value itself. -/
inductive Replaced (h : Heap) (v : Value) (p : Place) (path : List Segment) (cur : Value) :
    Place → Value → Heap → Prop where
  | inside : Replaced h v p path cur { p with inside := p.inside ++ path } (Value.put v cur path) h
  | through {q : Place} {later : List (CellId × List Segment)} {i : List Segment} {h' : Heap}
      (hq : q.through = p.through ++ (p.cell, i) :: later)
      (hstored : h.Stored v q (later.map (·.1)) h') :
    Replaced h v p path cur q cur h'

/-- After a replacement on the way the cell is written (`Stored`): that makes up the change, or it
writes again what the cell held. -/
theorem Replaced.stored (hrep : h.Replaced v p path (h.content p.cell) q w h')
    (hinside : p.inside = []) (hexists : (h'.cells[p.cell]?).isSome = true) :
    ∃ later, q.through = p.through ++ later ∧
      h.Stored v q (later.map (·.1)) (h'.store p.cell w) := by
  cases hrep with
  | inside =>
    have hstored : h.Stored v { p with inside := p.inside ++ path } [] _ := .written hexists
    rw [hinside] at hstored ⊢
    exact ⟨[], (List.append_nil _).symm, hstored⟩
  | @through _ later i _ hq hstored =>
    -- The cell is written with what it held, which undoes a change of this cell and no other.
    refine ⟨(p.cell, i) :: later, hq, ?_⟩
    cases hstored with
    | lost hmem =>
      rw [store_content]
      exact .lost (List.mem_cons_of_mem _ hmem)
    | written hfound =>
      by_cases hcell : q.cell = p.cell
      · -- The cell itself is on the way, and what had been put there is gone.
        rw [hcell, store_store, store_content]
        exact .lost (hcell ▸ List.mem_cons_self)
      · rw [← content_store_of_ne (Ne.symm hcell), store_content]
        exact .written hfound

theorem Replaced.isPlain (hrep : h.Replaced v p path cur q w h') (hv : v.isPlain = true)
    (hcur : cur.isPlain = true) : w.isPlain = true := by
  cases hrep with
  | inside => exact Value.isPlain_put hcur hv
  | through => exact hcur

theorem Replaced.component {old : Value} (hs : cur.component? s = some old)
    (hrep : h.Replaced v { p with inside := p.inside ++ [s] } path old q w h') :
    h.Replaced v p (s :: path) cur q (Value.replace w cur s) h' := by
  cases hrep with
  | inside =>
    have hput : Value.replace (Value.put v old path) cur s = Value.put v cur (s :: path) := by
      rw [Value.put_cons, hs, Option.elim_some]
    have hrep : h.Replaced v p (s :: path) cur _ _ h := .inside
    rw [List.append_cons] at hrep
    rwa [hput]
  | through hq hstored =>
    rw [Value.replace_self hs]
    exact .through hq hstored

theorem read?_append (hcur : h.read? p = some cur) :
    h.read? { p with inside := p.inside ++ [s] } = cur.component? s := by
  rw [read?] at hcur
  rw [read?, Value.at?_append, hcur, Option.bind_some, Value.at?_cons]
  cases cur.component? s <;> rfl

theorem exists_component {x : Value} (hx : h.read? { p with inside := p.inside ++ [s] } = some x) :
    ∃ w, h.read? p = some w ∧ w.component? s = some x := by
  have hbind := hx
  rw [read?, Value.at?_append] at hbind
  obtain ⟨w, hw, -⟩ := Option.bind_eq_some_iff.1 hbind
  have hread : h.read? p = some w := hw
  exact ⟨w, hread, (read?_append hread).symm.trans hx⟩

theorem Goes.step?_eq (hgoes : h.Goes p s q) : h.step? p s = some q := by
  cases hgoes with
  | inside hx =>
    obtain ⟨w, hw, hcomponent⟩ := exists_component hx
    simp only [step?, hw]
    cases w with
    | object ref => cases s <;> cases hcomponent
    | _ => simp only [hcomponent, Option.isSome_some, if_true]
  | member hobject hmember => simp only [step?, hobject, hmember]

theorem Goes.exists_read? (hgoes : h.Goes p s q) : ∃ w, h.read? q = some w := by
  cases hgoes with
  | inside hx => exact ⟨_, hx⟩
  | member => exact ⟨_, rfl⟩

/-- A step that `Goes` somewhere can be made again after a cell has been written, as long as that
cell is not on the way and the step still leads somewhere. -/
theorem Goes.store {c : CellId} {x : Value} (hgoes : h.Goes p s q) (hc : c ∉ q.visited)
    (hread : ((h.store c x).read? q).isSome = true) :
    (h.store c x).Goes p s q ∧ c ∉ p.visited ∧ ((h.store c x).read? p).isSome = true := by
  cases hgoes with
  | inside _ =>
    obtain ⟨y, hy⟩ := Option.isSome_iff_exists.1 hread
    obtain ⟨w, hw, -⟩ := exists_component hy
    exact ⟨.inside hy, hc, Option.isSome_iff_exists.2 ⟨w, hw⟩⟩
  | @member ref _ _ hobject hmember =>
    have hvisited : c ∉ p.visited ++ [p.cell] := by
      rw [Place.visited, List.map_append] at hc
      exact hc
    rw [List.mem_append, List.mem_singleton, not_or] at hvisited
    have hsame : (h.store c x).read? p = some (.object ref) := by
      rw [read?, content_store_of_ne (Ne.symm hvisited.2)]
      exact hobject
    exact ⟨.member hsame hmember, hvisited.1, Option.isSome_iff_exists.2 ⟨_, hsame⟩⟩

theorem eq_updatable_of_cell {c : CellId} (hc : v.cell = .ok c) : v = .updatable c := by
  cases v with
  | updatable c' => exact congrArg Value.updatable (Except.ok.inj hc)
  | _ => cases hc

theorem field_of_cell {ref : ObjectRef} {name : Name} {c : CellId}
    (hc : h.field ref name >>= Value.cell = .ok c) : h.field ref name = .ok (.updatable c) := by
  obtain ⟨member, hmember, hc⟩ := bind_eq_ok hc
  rw [hmember, eq_updatable_of_cell hc]

/-- One step of a path in `replaceAt` fails at once, or leads to a component, or leads to the cell
of a member. Only the last of these stores anything, after all that is stored further on. -/
theorem replaceAt_cons (h : Heap) (v cur : Value) (s : Segment) (rest : List Segment) :
    (∃ fault, replaceAt v (s :: rest) cur h = (.error fault, h) ∧
      storesWithin v (s :: rest) cur h = []) ∨
    (∃ old, (h.deref cur).component? s = some old ∧
      replaceAt v (s :: rest) cur h =
        (do return Value.replace (← replaceAt v rest old) (h.deref cur) s : Update Value) h ∧
      storesWithin v (s :: rest) cur h = storesWithin v rest old h) ∨
    ∃ ref name c, h.deref cur = .object ref ∧ s = .field name ∧
      h.field ref name = .ok (.updatable c) ∧
      replaceAt v (s :: rest) cur h = (do
        let updated ← replaceAt v rest (h.content c)
        assigning c updated
        return .object ref : Update Value) h ∧
      storesWithin v (s :: rest) cur h =
        storesWithin v rest (h.content c) h ++ storing c (replaceAt v rest (h.content c) h) := by
  cases s with
  | field name =>
    rw [replaceAt, get_bind, storesWithin]
    cases hcur : h.deref cur with
    | record tag fields =>
      dsimp only [Value.component?]
      cases hfind : fields.find? (·.1 == name.text) with
      | none => exact .inl ⟨_, rfl, rfl⟩
      | some f => exact .inr (.inl ⟨f.2, rfl, rfl, rfl⟩)
    | object ref =>
      dsimp only
      cases hcell : h.field ref name >>= Value.cell with
      | error fault => exact .inl ⟨fault, bind_of_error rfl, rfl⟩
      | ok c => exact .inr (.inr ⟨ref, name, c, rfl, rfl, field_of_cell hcell, bind_of_ok rfl, rfl⟩)
    | _ => exact .inl ⟨_, rfl, rfl⟩
  | index i =>
    rw [replaceAt, get_bind, storesWithin]
    cases hcur : h.deref cur with
    | seq items =>
      dsimp only [Value.component?]
      cases hitem : (if 1 ≤ i then items[(i - 1).toNat]? else none) with
      | none => exact .inl ⟨_, rfl, rfl⟩
      | some old => exact .inr (.inl ⟨old, rfl, rfl, rfl⟩)
    | _ => exact .inl ⟨_, rfl, rfl⟩

/-- What `replaceAt` does goes along a `Walk`. -/
theorem replaceAt_spec (hheap : h.IsPlain) (hv : v.isPlain = true)
    (hcur : h.read? p = some cur) (hrun : replaceAt v path cur h = (.ok w, h')) :
    ∃ q, h.Walk p path q ∧ h.Replaced v p path cur q w h' := by
  have hplain : cur.isPlain = true := Value.isPlain_at (hheap p.cell) hcur
  induction path generalizing p cur w h' with
  | nil =>
    cases hrun
    refine ⟨p, rfl, ?_⟩
    have hrep : h.Replaced v p [] cur _ _ h := .inside
    rwa [List.append_nil] at hrep
  | cons s rest ih =>
    rcases replaceAt_cons h v cur s rest with ⟨fault, hfails, -⟩ | ⟨old, hold, hstep, -⟩ |
      ⟨ref, name, c, hobject, rfl, hmember, hstep, -⟩
    · cases hfails.symm.trans hrun
    · -- A component: the rest of the path is replaced in it.
      rw [deref_eq_self hplain] at hold hstep
      obtain ⟨w', h₁, hrest, hw⟩ := exists_of_bind_eq_ok (hstep.symm.trans hrun)
      cases hw
      have hread := (read?_append hcur).trans hold
      obtain ⟨q, hwalk, hrep⟩ :=
        ih hread hrest (Value.isPlain_of_mem_parts hplain (Value.mem_parts_of_component hold))
      exact ⟨q, ⟨_, .inside hread, hwalk⟩, hrep.component hold⟩
    · -- The path goes on in the cell of the member, and that is written afterwards.
      rw [deref_eq_self hplain] at hobject
      subst hobject
      obtain ⟨updated, h₁, hrest, hrun⟩ := exists_of_bind_eq_ok (hstep.symm.trans hrun)
      obtain ⟨_, h₂, hassign, hrun⟩ := exists_of_bind_eq_ok hrun
      cases hrun
      have hread : h.read? ⟨p.through ++ [(p.cell, p.inside)], c, []⟩ = some (h.content c) := rfl
      obtain ⟨q, hwalk, hrep⟩ := ih hread hrest (hheap c)
      obtain ⟨hexists, rfl⟩ := store_of_assigning (hrep.isPlain hv (hheap c)) hassign
      obtain ⟨later, hq, hstored⟩ := hrep.stored rfl hexists
      rw [List.append_assoc] at hq
      exact ⟨q, ⟨_, .member hcur hmember, hwalk⟩, .through hq hstored⟩

/-- An empty path is written by `storeAt` without looking at the cell, but that makes no difference.
-/
theorem storeAt_eq (c : CellId) (path : List Segment) (v : Value) (h : Heap) :
    storeAt c path v h = (replaceAt v path (h.content c) >>= assigning c) h := by
  cases path <;> rfl

/-! ### Origins -/

/-- The heap comes from the `Origin`, and the result has a property, if there is one. -/
def Upholds {α : Type} (o : Origin) (Q : α → Prop) (out : Except ValueFault α × Heap) : Prop :=
  out.2.From o ∧ ∀ a, out.1 = .ok a → Q a

section Origins

variable {o : Origin}

theorem Upholds.bind {α β : Type} {Q : α → Prop} {R : β → Prop} {x : Update α} {f : α → Update β}
    (hx : Upholds o Q (x h)) (hf : ∀ a h₁, h₁.From o → Q a → Upholds o R (f a h₁)) :
    Upholds o R ((x >>= f) h) := by
  rcases hrun : x h with ⟨fault | a, h₁⟩ <;> rw [hrun] at hx
  · rw [bind_of_error hrun]
    exact ⟨hx.1, fun _ hb => by cases hb⟩
  · rw [bind_of_ok hrun]
    exact hf a h₁ hx.1 (hx.2 a rfl)

theorem From.assigning (hh : h.From o) (c : CellId) (hv : v.From o) :
    Upholds o (fun _ => True) (assigning c v h) := by
  refine ⟨?_, fun _ _ => trivial⟩
  cases hassign : h.assign c v with
  | error fault =>
    rw [assigning_of_error hassign]
    exact hh
  | ok h' =>
    obtain ⟨cell, w, -, hw, rfl⟩ := exists_of_assign hassign
    rw [assigning_of_ok hassign]
    exact hh.store c (hh.convert _ hv.bound hw)

theorem From.replaceAt (hh : h.From o) (hv : v.From o) (path : List Segment) (hcur : cur.From o) :
    Upholds o (·.From o) (replaceAt v path cur h) := by
  induction path generalizing cur with
  | nil =>
    refine ⟨hh, fun w hw => ?_⟩
    cases hw
    exact hv
  | cons s rest ih =>
    rcases replaceAt_cons h v cur s rest with ⟨fault, hrun, -⟩ | ⟨old, hold, hrun, -⟩ |
      ⟨ref, name, c, -, -, -, hrun, -⟩ <;> rw [hrun]
    · exact ⟨hh, fun _ hw => by cases hw⟩
    · have hd := hh.deref hcur.bound
      refine (ih (hd.parts old (Value.mem_parts_of_component hold))).bind fun w h₁ hh₁ hw => ?_
      exact ⟨hh₁, fun _ hb => by cases hb; exact hd.replace hw⟩
    · refine (ih (hh.cells c)).bind fun w h₁ hh₁ hw => ?_
      refine (hh₁.assigning c hw).bind fun _ h₂ hh₂ _ => ?_
      exact ⟨hh₂, fun _ hb => by cases hb; trivial⟩

theorem From.storeAt (hh : h.From o) (c : CellId) (path : List Segment) (hv : v.From o) :
    (storeAt c path v h).2.From o := by
  rw [storeAt_eq]
  exact ((hh.replaceAt hv path (hh.cells c)).bind fun _ _ hh₁ hw => hh₁.assigning c hw).1

end Origins

/-! ### Storing at a place -/

theorem storeAt_spec {c : CellId} (hheap : h.IsPlain)
    (hv : v.isPlain = true) (before : List (CellId × List Segment))
    (hrun : storeAt c path v h = (.ok (), h')) :
    ∃ q later, h.Walk ⟨before, c, []⟩ path q ∧ q.through = before ++ later ∧
      h.Stored v q (later.map (·.1)) h' := by
  rw [storeAt_eq] at hrun
  obtain ⟨updated, h₁, hreplace, hassign⟩ := exists_of_bind_eq_ok hrun
  have hread : h.read? ⟨before, c, []⟩ = some (h.content c) := rfl
  obtain ⟨q, hwalk, hrep⟩ := replaceAt_spec hheap hv hread hreplace
  obtain ⟨hexists, rfl⟩ := store_of_assigning (hrep.isPlain hv (hheap c)) hassign
  obtain ⟨later, hq, hstored⟩ := hrep.stored rfl hexists
  exact ⟨q, later, hwalk, hq, hstored⟩

end Heap

end Animator
