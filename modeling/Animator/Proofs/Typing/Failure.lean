import Animator.Proofs.Assignment
import Animator.Proofs.Typing.Session

/-!
# Failed assignments

An assignment along a path through objects writes to several cells, from the last one back. Each of
these writes converts a value, so any of them might fail, with some of the cells written already.
But if every cell has been made by the model, all of them hold members of their types, and only the
first write can fail: from then on each cell gets a value that has all the types of its content
(`Heap.storesWithin_eq_nil_or_fits`), and members can always be converted. So an assignment that
fails stores nothing (`Heap.stores_of_storeAt_error`).

`failed_assignment_changes_nothing` says that of assignments in sessions.
-/

namespace Animator

variable {fault : ValueFault} {heap : Heap}

/-! ### Values that fit -/

namespace Value

variable {v w old : Value} {s : Segment}

theorem Fits.refl : v.Fits v :=
  fun _ h => h

/-- A component may be replaced (`replace`) by a value that has all its types. -/
theorem fits_replace (hold : v.component? s = some old) (hw : w.Fits old) :
    (replace w v s).Fits v := by
  cases s with
  | field name =>
    cases v with
    | record tag fields => exact fits_record tag fields _
    | _ => cases hold
  | index i =>
    cases v with
    | seq items =>
      dsimp only [component?] at hold
      split at hold
      · exact fits_seq_set hold hw
      · cases hold
    | _ => cases hold

theorem fits_of_deref {h : Heap} (hw : w.Fits (h.deref v)) : w.Fits v := by
  cases hv : v.isCell with
  | false =>
    rw [Heap.deref_of_not_isCell hv] at hw
    exact hw
  | true =>
    intro ty hty
    rw [Ty.not_isCell_of_admits hty] at hv
    cases hv

end Value

/-! ### Storing along a path -/

namespace Heap

variable {h h₁ h₂ : Heap} {c : CellId} {v w cur : Value} {path : List Segment}

/-- Every cell holds a member of its type, or nothing. -/
def IsTyped (h : Heap) : Prop :=
  ∀ (c : CellId) (cell : Cell), h.cells[c]? = some cell →
    cell.ty.admits cell.value = true ∨ cell.value = .nil

theorem Assigned.exists_cell (hassigned : h.Assigned h₁) {cell : Cell}
    (hcell : h.cells[c]? = some cell) : ∃ cell', h₁.cells[c]? = some cell' ∧ cell'.ty =
      cell.ty := by
  induction hassigned with
  | refl => exact ⟨cell, hcell, rfl⟩
  | tail _ hstep ih =>
    obtain ⟨d, u, hassign⟩ := hstep
    obtain ⟨cell', hcell', hty⟩ := ih
    obtain ⟨-, w, -, -, rfl⟩ := exists_of_assign hassign
    dsimp only [store]
    rw [Array.getElem?_modify, hcell']
    split
    · exact ⟨_, rfl, hty⟩
    · exact ⟨cell', rfl, hty⟩

/-- A cell takes a value that has all the types of its `content`, also after other assignments. -/
theorem exists_assign (hh : h.IsTyped) (hassigned : h.Assigned h₁) (hcontent : h.content c ≠ .nil)
    (hw : w.Fits (h.content c)) : ∃ h₂, h₁.assign c w = .ok h₂ := by
  cases hcell : h.cells[c]? with
  | none =>
    rw [content, hcell] at hcontent
    exact absurd rfl hcontent
  | some cell =>
    rw [content_of_getElem? hcell] at hcontent hw
    have hmember := (hh c cell hcell).resolve_right hcontent
    obtain ⟨cell', hcell', hty⟩ := hassigned.exists_cell hcell
    obtain ⟨x, hx⟩ := convert_of_admits h₁ cell.ty w (hw cell.ty hmember)
    refine ⟨h₁.store c x, ?_⟩
    unfold assign
    rw [hcell']
    dsimp only
    rw [hty, hx]
    rfl

/-- Nothing is stored on the way (`storesWithin`), or the new value has all the types of the old
one. -/
theorem storesWithin_eq_nil_or_fits (h : Heap) (v : Value) (path : List Segment) (cur : Value) :
    storesWithin v path cur h = [] ∨
      ∀ w h₁, replaceAt v path cur h = (.ok w, h₁) → w.Fits cur := by
  induction path generalizing cur with
  | nil => exact .inl rfl
  | cons s rest ih =>
    rcases replaceAt_cons h v cur s rest with
      ⟨fault, -, hstores⟩ | ⟨old, hold, hrun, hstores⟩ | ⟨ref, name, c, hcur, -, -, hrun, -⟩
    · exact .inl hstores
    · rw [hstores]
      refine (ih old).imp_right fun hfits w h₁ hok => ?_
      obtain ⟨x, h₂, hx, hok⟩ := exists_of_bind_eq_ok (hrun.symm.trans hok)
      cases hok
      exact Value.fits_of_deref (Value.fits_replace hold (hfits x _ hx))
    · refine .inr fun w h₁ hok => ?_
      rw [hrun, ← bind_assoc] at hok
      obtain ⟨-, h₂, -, hok⟩ := exists_of_bind_eq_ok hok
      cases hok
      have hfits : (Value.object ref).Fits (h.deref cur) := hcur ▸ .refl
      exact Value.fits_of_deref hfits

/-- A cell that fails to take a value has not been given anything on the way either
(`storesWithin`). -/
theorem stores_of_assigning_error (hh : h.IsTyped)
    (hpath : ∀ fault h₁, replaceAt v path (h.content c) h = (.error fault, h₁) →
      storesWithin v path (h.content c) h = [])
    (hrun : (replaceAt v path (h.content c) >>= assigning c) h = (.error fault, h₁)) :
    storesWithin v path (h.content c) h ++ storing c (replaceAt v path (h.content c) h) = [] := by
  have hassigned := assigned_replaceAt h v path (h.content c)
  rcases hreplace : replaceAt v path (h.content c) h with ⟨fault' | w, h₂⟩
  · rw [hpath fault' h₂ hreplace]
    rfl
  rw [hreplace] at hassigned
  rw [bind_of_ok hreplace] at hrun
  cases hassign : h₂.assign c w with
  | ok h₃ =>
    rw [assigning_of_ok hassign] at hrun
    cases hrun
  | error fault' =>
    have hwithin : storesWithin v path (h.content c) h = [] := by
      refine (storesWithin_eq_nil_or_fits h v path (h.content c)).elim id fun hfits => ?_
      by_cases hcontent : h.content c = .nil
      · -- Nothing can be replaced inside of nil.
        rw [hcontent] at hreplace ⊢
        cases path with
        | nil => rfl
        | cons s rest => cases s <;> cases hreplace
      · obtain ⟨h₃, hok⟩ := exists_assign hh hassigned hcontent (hfits w h₂ hreplace)
        cases hassign.symm.trans hok
    rw [hwithin, storing, hassign]
    rfl

theorem storesWithin_of_error (hh : h.IsTyped) (v : Value) (path : List Segment) (cur : Value)
    (hrun : replaceAt v path cur h = (.error fault, h₁)) :
    storesWithin v path cur h = [] := by
  induction path generalizing cur h₁ fault with
  | nil => rfl
  | cons s rest ih =>
    rcases replaceAt_cons h v cur s rest with
      ⟨fault, -, hstores⟩ | ⟨old, -, hstep, hstores⟩ | ⟨ref, name, c, -, -, -, hstep, hstores⟩
    · exact hstores
    · rw [hstores]
      rcases hreplace : replaceAt v rest old h with ⟨fault' | w, h₂⟩
      · exact ih old hreplace
      · rw [hstep, bind_of_ok hreplace] at hrun
        cases hrun
    · rw [hstores]
      rw [hstep, ← bind_assoc] at hrun
      rcases hassigning : (replaceAt v rest (h.content c) >>= assigning c) h with ⟨fault' | _, h₂⟩
      · exact stores_of_assigning_error hh (fun _ _ => ih _) hassigning
      · rw [bind_of_ok hassigning] at hrun
        cases hrun

/-- An assignment that fails stores nothing (`storing`), neither on the way nor into the cell
itself. -/
theorem stores_of_storeAt_error (hh : h.IsTyped)
    (hstore : storeAt c path v h = (.error fault, h₁)) :
    storesWithin v path (h.content c) h ++ storing c (replaceAt v path (h.content c) h) = [] := by
  rw [storeAt_eq] at hstore
  exact stores_of_assigning_error hh (fun _ _ => storesWithin_of_error hh v path _) hstore

theorem eq_of_storeAt_error (hh : h.IsTyped)
    (hstore : storeAt c path v h = (.error fault, h₁)) : h₁ = h := by
  have hstores := (stores_replaceAt h v path (h.content c)).assigning (c := c)
  rw [stores_of_storeAt_error hh hstore, ← storeAt_eq, hstore] at hstores
  exact hstores.eq_of_nil

end Heap

theorem Machine.changesOf_of_error {m : Machine} {id : ThreadId} {c : CellId} {path : List Segment}
    {v : Value} (hm : m.heap.IsTyped)
    (hstore : Heap.storeAt c path v m.heap = (.error fault, heap)) : m.changesOf id c path v =
      [] := by
  obtain ⟨hwithin, hown⟩ := List.append_eq_nil_iff.1 (Heap.stores_of_storeAt_error hm hstore)
  simp only [changesOf, hwithin, hown, List.map_nil, List.append_nil]

/-! ### Sessions without cells from outside -/

namespace Tracked

variable {o : Origin} {t t' : Tracked}

/-- Every cell has been made by the model. -/
def IsNative (t : Tracked) : Prop :=
  .outside ∉ t.sources

theorem IsNative.source_ne (hnative : t.IsNative) {c : CellId} (hc : c < t.sources.length) :
    t.source c ≠ .outside := by
  intro houtside
  unfold source at houtside
  rw [List.getElem?_eq_getElem hc, Option.getD_some] at houtside
  exact hnative (houtside ▸ List.getElem_mem hc)

theorem IsNative.isTyped (hnative : t.IsNative) (ht : t.Valid o) : t.heap.IsTyped := by
  intro c cell hcell
  have hsound := ht.sound c cell hcell
  have hsize : c < t.heap.cells.size := (Array.getElem?_eq_some_iff.1 hcell).1
  have hsource := hnative.source_ne (ht.length ▸ hsize)
  cases hc : t.source c with
  | outside => exact absurd hc hsource
  | field =>
    rw [hc] at hsound
    exact hsound
  | declared init =>
    rw [hc] at hsound
    exact hsound.2.imp_right And.right

theorem IsNative.move (hnative : t.IsNative) (hmove : t.Move o t') : t'.IsNative := by
  cases hmove with
  | declare =>
    intro hmem
    rcases List.mem_append.1 hmem with hmem | hmem
    · exact hnative hmem
    · cases List.mem_singleton.1 hmem
  | store | objects => exact hnative

theorem IsNative.leads (hnative : t.IsNative) (h : t.Leads o t') : t'.IsNative := by
  induction h with
  | refl => exact hnative
  | tail _ hmove ih => exact ih.move hmove

theorem isNative_start (P : Program) (hheap : heap.cells = #[]) :
    (start P heap).IsNative := by
  intro hmem
  rcases List.mem_append.1 hmem with hmem | hmem
  · rw [hheap] at hmem
    cases hmem
  · obtain ⟨f, -, hf⟩ := List.mem_map.1 hmem
    cases hf

end Tracked

/-- A machine whose cells have all been made by the model, by way of evaluations since the program
was set up. -/
def Machine.IsNative (P : Program) (m : Machine) : Prop :=
  ∃ heap sources, heap.cells = #[] ∧ (Tracked.start P heap).Leads .all (m.tracked sources)

namespace Machine.IsNative

variable {P : Program} {m m' : Machine}

theorem initial (hheap : heap.cells = #[]) : (Machine.initial P heap).IsNative P :=
  ⟨heap, _, hheap, .refl⟩

theorem leads (hm : m.IsNative P) (hleads : m.Leads .all m') : m'.IsNative P := by
  obtain ⟨heap, sources, hheap, h⟩ := hm
  obtain ⟨sources', h'⟩ := hleads.cells sources
  exact ⟨heap, sources', hheap, h.trans h'⟩

theorem sameCells (hm : m.IsNative P) (hcells : m'.heap.cells = m.heap.cells) : m'.IsNative P := by
  obtain ⟨heap, sources, hheap, h⟩ := hm
  exact ⟨heap, sources, hheap, h.tail (.objects m'.heap hcells)⟩

theorem isTyped (hm : m.IsNative P) : m.heap.IsTyped := by
  obtain ⟨heap, sources, hheap, h⟩ := hm
  have hgrounded : heap.Grounded := by
    intro c c' hc
    rw [Heap.content, hheap] at hc
    cases hc
  have hvalid := (h.goes.valid (Tracked.extends_start P hgrounded).valid).1
  exact ((Tracked.isNative_start P hheap).leads h).isTyped hvalid

end Machine.IsNative

/-! ### Failing -/

namespace Engine

variable (E : Engine) {m m₁ : Machine} (c : Context) (location : Location) {α : Type}

theorem offer_of_unlinked (v : Value) (hlink : m.link = none) (catchpoints : List Breakpoint) :
    ∃ breakpoints, E.offer v location c catchpoints m = (.ok (), { m with breakpoints }) := by
  induction catchpoints with
  | nil => exact ⟨m.breakpoints, rfl⟩
  | cons b rest ih =>
    unfold offer
    rw [Eval.heap, reads_bind]
    split
    · refine ⟨m.breakpoints.hit b.number, (bind_of_ok rfl).trans ?_⟩
      rw [suspend_apply]
      dsimp only
      rw [hlink]
    · exact ih

theorem fail_of_unlinked (code : Code) (message : String) (hlink : m.link = none) :
    ∃ halt breakpoints, (E.fail code message location c : Eval α) m =
      (.error halt, { m with breakpoints }) := by
  unfold fail
  split
  · unfold raise
    rw [Eval.thread, reads_bind]
    dsimp only
    split
    · exact ⟨_, m.breakpoints, rfl⟩
    · rw [reads_bind]
      obtain ⟨breakpoints, hoffer⟩ := E.offer_of_unlinked
        (c.hold (.tuple [.int code.number, .ofText message])) location
        (.tuple [.int code.number, .ofText message]) hlink m.breakpoints.catchpoints
      exact ⟨_, breakpoints, bind_of_ok hoffer⟩
  · exact ⟨_, m.breakpoints, bind_of_ok (reportFatal_of_none E _ location c hlink)⟩

end Engine

/-- An assignment (`assign`) whose store step fails, seen from the machine at that step. -/
theorem Engine.assign_of_error {E : Engine} {m m₁ : Machine} {d : Designator} {v : Value}
    {location : Location} {ctx : Context} {c : CellId} {path : List Segment}
    (htarget : E.target location (ctx.hold v) d m = (.ok (c, path), m₁))
    (hstore : Heap.storeAt c path v m₁.heap = (.error fault, m₁.heap))
    (hnone : m₁.changesOf ctx.thread c path v = []) :
    ∃ ctx', E.assign d v location ctx m = E.fail fault.code fault.message location ctx' m₁ := by
  have hsame : m₁.wrote E.settings ctx.thread c path v = m₁ := by
    simp [Machine.wrote, Machine.line?, hstore, hnone, Except.isOk, Except.toBool]
  unfold assign
  rw [bind_of_ok htarget]
  dsimp only
  rw [write_apply, hsame, hstore]
  exact ⟨_, rfl⟩

/-- Failed assignments. Take a machine whose cells have all been made by the model; setting up a
program gives one, and evaluations and everything that leaves the cells alone lead from one to
another. If an assignment of any value to any `target` fails when the value is stored, then the
cells and the objects are what they were before, and the failure is that of the machine as it was
before, with its log and all the rest. Without a debugger nothing happens then, except that
catchpoints count. -/
theorem failed_assignment_changes_nothing (P : Program) :
    (∀ heap : Heap, heap.cells = #[] → (Machine.initial P heap).IsNative P) ∧
    (∀ (m : Machine) (bound : Nat) (activity : Activity), m.IsNative P →
      (activity.after (P.engine bound) m).IsNative P) ∧
    (∀ m m' : Machine, m.IsNative P → m'.heap.cells = m.heap.cells → m'.IsNative P) ∧
    ∀ (m m₁ : Machine) (bound : Nat) (d : Designator) (v : Value) (location : Location)
      (ctx : Context) (c : CellId) (path : List Segment) (fault : ValueFault) (heap : Heap),
      m.IsNative P →
      (P.engine bound).target location (ctx.hold v) d m = (.ok (c, path), m₁) →
      Heap.storeAt c path v m₁.heap = (.error fault, heap) →
      heap = m₁.heap ∧
      (∃ ctx', (P.engine bound).assign d v location ctx m =
        (P.engine bound).fail fault.code fault.message location ctx' m₁) ∧
      (m₁.link = none → ∃ halt breakpoints,
        (P.engine bound).assign d v location ctx m = (.error halt, { m₁ with breakpoints })) := by
  refine ⟨fun _ => .initial, fun m bound activity hm => hm.leads
    (Activity.leads Origin.closed_all P.delegates_from_all P.model.from_all bound activity.from_all
      m.from_all),
    fun m m' hm hcells => hm.sameCells hcells, ?_⟩
  intro m m₁ bound d v location ctx c path fault heap hm htarget hstore
  have hm₁ : m₁.IsNative P := by
    have hmoves : ((P.engine bound).target location (ctx.hold v) d).Moves :=
      trackDrift.moves ((Effect.logic ((trackDrift P .all _).leaves Origin.closed_all bound)).target
        ⟨rfl, (ctx.hold v).from_all, trivial⟩ fun _ _ => trivial)
    have hleads := hmoves m
    rw [htarget] at hleads
    exact hm.leads hleads
  obtain rfl := Heap.eq_of_storeAt_error hm₁.isTyped hstore
  obtain ⟨ctx', hassign⟩ := Engine.assign_of_error htarget hstore
    (Machine.changesOf_of_error hm₁.isTyped hstore)
  refine ⟨rfl, ⟨ctx', hassign⟩, fun hlink => ?_⟩
  rw [hassign]
  exact Engine.fail_of_unlinked _ ctx' location _ _ hlink

/-- A set of numbers in an object, which is an item of a sequence. -/
def ringNumbers : Designator :=
  .field (.index (.name (ringName "items")) (ringIndex 1)) (ringName "ints")

/-- Where it is, and the machine after that has been found out. -/
def ringFound (m : Machine) : Except Halt (CellId × List Segment) × Machine :=
  (ringProgram.engine 19).target (.onLine 9) (ringContext.hold .nil) ringNumbers m

/-- The `ringNumbers` cannot be set to nil. -/
theorem failed_assignment_changes_nothing_ring :
    let out := (ringProgram.engine 19).assign ringNumbers .nil (.onLine 9) ringContext ringMachine
    ringMachine.IsNative ringProgram ∧ out.1.isOk = false ∧
      out.2.heap = (ringFound ringMachine).2.heap ∧ out.2.log = (ringFound ringMachine).2.log := by
  obtain ⟨hinitial, hafter, -, hfailed⟩ := failed_assignment_changes_nothing ringProgram
  have hnative : ringMachine.IsNative ringProgram :=
    hafter _ 19 (.task (.entry (.newInstance "Ring" [])))
      (hafter _ 19 .initialise (hinitial {} rfl))
  have hlink : (ringFound ringMachine).2.link.isNone = true := by decide +kernel
  have hfails : (ringFound ringMachine).1.toOption.any (fun place =>
      !(Heap.storeAt place.1 place.2 .nil (ringFound ringMachine).2.heap).1.isOk) = true := by
    decide +kernel
  refine ⟨hnative, ?_⟩
  -- From here on only the theorem is used, and the run is not looked into.
  generalize ringMachine = m at *
  obtain ⟨⟨c, path⟩, hplace, hstore⟩ := (Option.any_eq_true _ _).1 hfails
  rcases hrun : Heap.storeAt c path .nil (ringFound m).2.heap with ⟨fault | _, heap⟩
  · obtain ⟨-, -, hunlinked⟩ := hfailed m _ 19 ringNumbers .nil (.onLine 9) ringContext c path fault
      heap hnative (eq_ok_of_toOption hplace) hrun
    obtain ⟨halt, breakpoints, hout⟩ := hunlinked (Option.isNone_iff_eq_none.1 hlink)
    rw [hout]
    exact ⟨rfl, rfl, rfl⟩
  · rw [hrun] at hstore
    cases hstore

end Animator
