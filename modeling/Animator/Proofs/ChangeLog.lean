import Animator.Proofs.Effect.Session
import Animator.Proofs.Typing.Store

/-!
# The log of changes

An assignment goes along a path, and it may store values into several cells: into the members of
objects on the way, the last one first, and then into the cell that its target begins with. The
machine remembers all of these stores (`Machine.changes`), and they are what happens to the heap
(`Machine.stores_changesOf`). The log is written afterwards, and only about the last cell. So it
tells of the stores that are not nested (`Machine.Reachable.logged`), and it is exact as long as no
store on the way goes into an instance variable (`change_log_tells_of_targets`).
-/

namespace Animator

/-! ### Stores into cells -/

namespace Heap

variable {h : Heap} {c : CellId}

/-- The last store of `storing` is that into the cell itself, and it takes place if nothing fails.
-/
theorem storing_replaceAt (h : Heap) (c : CellId) (path : List Segment) (v : Value) :
    storing c (replaceAt v path (h.content c) h) =
      if (storeAt c path v h).1.isOk then [(c, (storeAt c path v h).2)] else [] := by
  rw [storeAt_eq]
  rcases hrun : replaceAt v path (h.content c) h with ⟨fault | w, h₁⟩
  · rw [bind_of_error hrun]
    rfl
  · rw [bind_of_ok hrun, storing]
    cases hassign : h₁.assign c w with
    | ok h₂ =>
      rw [assigning_of_ok hassign]
      rfl
    | error fault =>
      rw [assigning_of_error hassign]
      rfl

theorem isChange_of_change? {r : LogRecord} (htext : h.change? c = some r.text) :
    r.isChange = true := by
  obtain ⟨owner, -, htext⟩ := Option.map_eq_some_iff.1 htext
  simp only [String.append_assoc] at htext
  exact LogRecord.isChange_of_change ⟨_, htext.symm⟩

end Heap

namespace Change

/-- What an exact log says of a store: there is a line if the cell is an instance variable, and if
the thread is in no pure section. -/
def line? (change : Change) : Option String :=
  if change.isPure then none else change.heap.change? change.cell

/-- What the `settings` make of that: only the stores that are not nested are logged. -/
def logged? (settings : Settings) (change : Change) : Option (ThreadId × String) :=
  if settings.logInstanceChanges && !change.isNested then change.line?.map (change.thread,
    ·) else none

end Change

namespace Machine

variable {m : Machine} {id : ThreadId}

/-- The lines about changes in the log, and the threads that have written them. -/
def changeLines (m : Machine) : List (ThreadId × String) :=
  (m.log.toList.filter (·.isChange)).map fun r => (r.thread, r.text)

theorem stores_changesOf (m : Machine) (id : ThreadId) (c : CellId) (path : List Segment)
    (v : Value) :
    m.heap.Stores ((m.changesOf id c path v).map fun change => (change.cell, change.heap))
      (Heap.storeAt c path v m.heap).2 := by
  have hstores := (m.heap.stores_replaceAt v path (m.heap.content c)).assigning (c := c)
  have hpair : ∀ isNested,
      (fun change : Change => (change.cell, change.heap)) ∘ m.changeBy id isNested =
      fun store => store := fun _ => rfl
  rw [Heap.storeAt_eq, changesOf, List.map_append, List.map_map, List.map_map, hpair, hpair,
    List.map_id', List.map_id']
  exact hstores

/-- The stores of an assignment that a machine `Remembers`. -/
structure Remembers (m : Machine) (id : ThreadId) (c : CellId) (stores : List Change)
    (m₁ : Machine) : Prop where
  changes : m₁.changes = stores.reverse ++ m.changes
  heap : m.heap.Stores (stores.map fun s => (s.cell, s.heap)) m₁.heap
  /-- They are made by the thread as it is. -/
  thread : ∀ s ∈ stores, s.thread = id ∧ s.isPure = (m.thread id).isPure
  /-- The `target` begins with the cell that is not on the way. -/
  target : ∀ s ∈ stores, s.isNested = false → s.cell = c

theorem remembers_wrote (m : Machine) (settings : Settings) (id : ThreadId) (c : CellId)
    (path : List Segment) (v : Value) :
    m.Remembers id c (m.changesOf id c path v) (m.wrote settings id c path v) := by
  refine ⟨rfl, m.stores_changesOf id c path v, fun s hs => ?_, fun s hs htarget => ?_⟩
  · rcases List.mem_append.1 hs with hs | hs <;>
    · obtain ⟨store, -, rfl⟩ := List.mem_map.1 hs
      exact ⟨rfl, rfl⟩
  · rcases List.mem_append.1 hs with hs | hs <;> obtain ⟨store, hstore, rfl⟩ := List.mem_map.1 hs
    · cases htarget
    · rw [Heap.storing_replaceAt] at hstore
      split at hstore
      · rw [List.mem_singleton.1 hstore]
        rfl
      · cases hstore

/-- Of the stores of an assignment at most one is logged. -/
theorem filterMap_changesOf (m : Machine) (settings : Settings) (id : ThreadId) (c : CellId)
    (path : List Segment) (v : Value) :
    (m.changesOf id c path v).filterMap (Change.logged? settings) =
      ((m.line? settings id c path v).map (id, ·)).toList := by
  have hwithin : ∀ stores : List (CellId × Heap),
      (stores.map (m.changeBy id true)).filterMap (Change.logged? settings) = [] := by
    intro stores
    rw [List.filterMap_map, List.filterMap_eq_nil_iff]
    intro s _
    simp [Change.logged?, changeBy]
  have hown : ∀ s, Change.logged? settings (m.changeBy id false s) =
      (if settings.logInstanceChanges && !(m.thread id).isPure then s.2.change? s.1 else none).map
        (id, ·) := by
    intro s
    cases hlogs : settings.logInstanceChanges <;> cases hpure : (m.thread id).isPure <;>
      simp [Change.logged?, Change.line?, changeBy, hlogs, hpure]
  rw [changesOf, List.filterMap_append, hwithin, List.nil_append, Heap.storing_replaceAt, line?]
  cases (Heap.storeAt c path v m.heap).1.isOk with
  | false => simp
  | true =>
    simp only [if_true, Bool.and_true, List.map_cons, List.map_nil, List.filterMap_cons,
      List.filterMap_nil, hown]
    rfl

theorem isChange_of_line? {settings : Settings} {c : CellId} {path : List Segment} {v : Value}
    {r : LogRecord} (hline : m.line? settings id c path v = some r.text) : r.isChange = true := by
  unfold line? at hline
  dsimp only at hline
  split at hline
  · exact Heap.isChange_of_change? hline
  · cases hline

/-- The log tells of the stores. -/
def Logged (settings : Settings) (m : Machine) : Prop :=
  m.changeLines = m.changes.reverse.filterMap (Change.logged? settings)

namespace Logged

variable {settings : Settings}

theorem log (hm : m.Logged settings) {r : LogRecord} (hother : r.isChange = false) :
    Logged settings { m with log := m.log.push r } := by
  have hlines : changeLines { m with log := m.log.push r } = m.changeLines := by
    simp [changeLines, List.filter_append, hother]
  exact hlines.trans hm

theorem wrote (hm : m.Logged settings) (id : ThreadId) (c : CellId) (path : List Segment)
    (v : Value) :
    (m.wrote settings id c path v).Logged settings := by
  have hlines : (m.wrote settings id c path v).changeLines =
      m.changeLines ++ ((m.line? settings id c path v).map (id, ·)).toList := by
    cases hline : m.line? settings id c path v with
    | none => simp [changeLines, Machine.wrote, hline]
    | some text =>
      let r : LogRecord := { time := m.scheduler.time id, thread := id, text }
      have hr : r.isChange = true := isChange_of_line? hline
      have hlog : (m.wrote settings id c path v).log = m.log.push r := by
        rw [Machine.wrote, hline]
        rfl
      rw [changeLines, hlog, Array.toList_push, List.filter_append, List.map_append,
        List.filter_cons_of_pos hr]
      rfl
  unfold Logged
  rw [hlines, hm, ← filterMap_changesOf]
  simp [Machine.wrote]

end Logged

theorem Happens.logged {P : Program} {o : Origin} {T : ThreadId → Prop} {Made : ObjectRef → Prop}
    {m' : Machine} (h : m.Happens P o T Made m') (hm : m.Logged P.settings) :
      m'.Logged P.settings := by
  cases h with
  | step hs =>
    cases hs with
    | write id c path v => exact hm.wrote id c path v
    | log r _ _ hother => exact hm.log hother
    | _ => exact hm
  | obey hs => cases hs <;> exact hm
  | _ => exact hm

end Machine

/-- The log keeps in step with the stores. -/
def logDrift (P : Program) : Drift P .all where
  Inv := Machine.Logged P.settings
  delegates := P.delegates_from_all
  keeps hm h := h.logged hm
  enter g hm := by cases g <;> exact hm
  leave g hm := by cases g <;> exact hm

instance {P : Program} : (logDrift P).effect.Joins where
  step hm hs := by cases hs <;> exact ⟨hm, trivial⟩
  swallow _ := trivial
  join hm hs := by cases hs <;> exact ⟨hm, trivial⟩

theorem Machine.Reachable.logged {P : Program} {m : Machine} (h : m.Reachable P .all) :
    m.Logged P.settings := by
  refine (h.upholds ((logDrift P).leaves Origin.closed_all) P.model.from_all (fun _ hm => hm)
    (fun _ hm _ => hm) (fun _ _ => (rfl : [] = [])) fun hm hs => ?_).2
  cases hs <;> exact hm

/-! ### Exactness -/

/-- Leaving out some members of a list leaves out some results, unless these members have none. -/
theorem filterMap_filter_eq_iff {α β : Type} {f : α → Option β} {p : α → Bool} {l : List α} :
    (l.filter p).filterMap f = l.filterMap f ↔ ∀ a ∈ l, p a = false → f a = none := by
  induction l with
  | nil => simp
  | cons a l ih =>
    cases hp : p a with
    | true => cases hf : f a <;> simp [hp, hf, ih]
    | false =>
      cases hf : f a with
      | none => simp [hp, hf, ih]
      | some b =>
        -- There is one result more, and those of the other members do not make up for it.
        have hlength := ((List.filter_sublist (p := p) (l := l)).filterMap f).length_le
        simp only [List.filter_cons, hp, List.filterMap_cons, hf, List.forall_mem_cons,
          reduceCtorEq,
          imp_false, not_true, false_and, iff_false, Bool.false_eq_true, if_false]
        intro heq
        rw [heq, List.length_cons] at hlength
        omega

namespace Machine

/-- The lines about changes that a thread has written into the log, in their order. -/
def changeTexts (m : Machine) (id : ThreadId) : List String :=
  (m.log.toList.filter fun r => r.isChange && r.thread == id).map (·.text)

/-- The stores that the assignments of a thread have made, in their order. -/
def storesBy (m : Machine) (id : ThreadId) : List Change :=
  m.changes.reverse.filter (·.thread == id)

theorem Logged.changeTexts_eq {settings : Settings} {m : Machine} (hm : m.Logged settings)
    (hlogs : settings.logInstanceChanges = true) (id : ThreadId) :
    m.changeTexts id = ((m.storesBy id).filter (!·.isNested)).filterMap Change.line? := by
  have htexts : m.changeTexts id = (m.changeLines.filter (·.1 == id)).map (·.2) := by
    simp [changeTexts, changeLines, List.filter_map, Function.comp_def, List.filter_filter,
      Bool.and_comm]
  rw [htexts, hm, storesBy]
  induction m.changes.reverse with
  | nil => rfl
  | cons change changes ih =>
    cases hid : change.thread == id <;> cases hnested : change.isNested <;>
      cases hline : change.line? <;> simp [hid, hnested, hline, hlogs, Change.logged?, ih]

end Machine

/-- The log of changes. An assignment whose `target` has been found `Remembers` the stores that it
makes, and they lead to the heap that it leaves behind. In a session that logs changes, the lines of
a thread are those of its stores into the cells that targets begin with, in their order; each line
names the instance variable and shows what it holds then, and nothing is said of cells that are no
instance variables and of stores in pure sections. The stores into members on the way are left out,
so the log is exact just if none of them goes into an instance variable outside of pure sections. -/
theorem change_log_tells_of_targets (P : Program) :
    (∀ (bound : Nat) (d : Designator) (v : Value) (location : Location) (ctx : Context)
      (m m₁ : Machine) (c : CellId) (path : List Segment),
      (P.engine bound).target location (ctx.hold v) d m = (.ok (c, path), m₁) →
      ∃ inner stores m₂, m₁.Remembers ctx.thread c stores m₂ ∧
        (P.engine bound).assign d v location ctx m =
          (P.engine bound).lift (Heap.storeAt c path v m₁.heap).1 location inner m₂) ∧
    ∀ (m : Machine) (id : ThreadId), m.Reachable P .all → P.settings.logInstanceChanges = true →
      m.changeTexts id = ((m.storesBy id).filter (!·.isNested)).filterMap Change.line? ∧
      (m.changeTexts id = (m.storesBy id).filterMap Change.line? ↔
        ∀ s ∈ m.storesBy id, s.isNested = true → s.line? = none) := by
  refine ⟨fun bound d v location ctx m m₁ c path htarget => ?_, fun m id hm hlogs => ?_⟩
  · have hassign := bind_of_ok htarget (f := fun target =>
      let inner := ctx.hold (.updatable target.1)
      (P.engine bound).write target.1 target.2 v location
        (if target.2.isEmpty then inner.hold v else inner) ctx)
    exact ⟨_, _, _, m₁.remembers_wrote (P.engine bound).settings ctx.thread c path v,
      hassign.trans Engine.write_apply⟩
  · have htexts := hm.logged.changeTexts_eq hlogs id
    refine ⟨htexts, ?_⟩
    rw [htexts, filterMap_filter_eq_iff]
    simp only [Bool.not_eq_false']

def roomName (text : String) : Name :=
  { «module» := "Room", text }

def boxValue : Name :=
  { «module» := "Box", text := "value" }

def firstBox : Designator :=
  .field (.name (roomName "first")) boxValue

def secondBox : Designator :=
  .field (.index (.name (roomName "boxes")) (.onLine 8 (.literal (.int 1)))) boxValue

def roomAssign (line : Nat) (target : Designator) (i : Int) : Stmt :=
  .onLine line (.assign ⟨target, .onLine line (.literal (.int i)), .onLine line⟩)

/-- A box of its own and a box in a sequence. -/
def roomProgram : Program :=
  { settings := { logInstanceChanges := true }
    model := {
      classes := [{
        name := "Box", location := .onLine 1, values := [], functions := [], operations := []
        invariants := [], thread := none
        instanceVars := [{
          name := boxValue, ty := .nat, init := some (.onLine 2 (.literal (.int 0)))
          isStatic := false, location := .onLine 2 }] }]
      modules := [{
        name := "Room", location := .onLine 3, values := [], functions := []
        state := some { name := "S", location := .onLine 4, fields := [
          { name := roomName "first", ty := .class "Box"
            init := some (.onLine 4 (.new "Box" [])) },
          { name := roomName "boxes", ty := .seq (.class "Box")
            init := some (.onLine 5 (.seqEnum [.onLine 5 (.new "Box" [])])) }] }
        operations := [.plain "Room" "fill" (.onLine 6 (.block []
          [roomAssign 7 firstBox 5, roomAssign 8 secondBox 7]))] }] } }

def roomMachine : Machine :=
  ((Entry.call "Room" "fill" []).run (roomProgram.engine 20)
    ((roomProgram.engine 20).initialise (Machine.initial roomProgram {})).2).2

def roomContext : Context :=
  { inner := { id := 0, title := "", location := .onLine 9, root := some { kind := .state "Room" } }
    thread := mainThread }

/-- Where the second box is, and the machine after that has been found out. -/
def roomFound (m : Machine) : Except Halt (CellId × List Segment) × Machine :=
  (roomProgram.engine 20).target (.onLine 9) (roomContext.hold (.int 9)) secondBox m

/-- In the `roomMachine` only the first box is in the log, by `changeTexts`. Filling the second one
again is remembered, too. -/
theorem change_log_tells_of_targets_room :
    roomMachine.Reachable roomProgram .all ∧ roomProgram.settings.logInstanceChanges = true ∧
      roomMachine.changeTexts mainThread = ["instance variable Box`value of #1 changed to 5"] ∧
      (roomFound roomMachine).1.toOption.isSome = true ∧
      ∃ c stores m, (roomFound roomMachine).2.Remembers mainThread c stores m := by
  have hreachable : roomMachine.Reachable roomProgram .all :=
    .run _ 20 (Entry.from_all _) (.create {} [] 20 (Heap.from_all _))
  have hstores : ((roomMachine.storesBy mainThread).filter (!·.isNested)).filterMap Change.line? =
      ["instance variable Box`value of #1 changed to 5"] := by decide +kernel
  have hfound : (roomFound roomMachine).1.toOption.isSome = true := by decide +kernel
  -- From here on only the theorem is used, and the run is not looked into.
  generalize roomMachine = m at *
  obtain ⟨hremembers, htexts⟩ := change_log_tells_of_targets roomProgram
  refine ⟨hreachable, rfl, (htexts m mainThread hreachable rfl).1.trans hstores, hfound, ?_⟩
  obtain ⟨⟨c, path⟩, hplace⟩ := Option.isSome_iff_exists.1 hfound
  obtain ⟨-, stores, m₂, hm₂, -⟩ := hremembers 20 secondBox (.int 9) (.onLine 9) roomContext m
    (roomFound m).2 c path (eq_ok_of_toOption hplace)
  exact ⟨c, stores, m₂, hm₂⟩

/-- The log of changes is not exact: both boxes have been filled, by `storesBy`. -/
theorem not_change_log_exact :
    roomMachine.Reachable roomProgram .all ∧ roomProgram.settings.logInstanceChanges = true ∧
      roomMachine.changeTexts mainThread = ["instance variable Box`value of #1 changed to 5"] ∧
      (roomMachine.storesBy mainThread).filterMap Change.line? =
        ["instance variable Box`value of #1 changed to 5",
          "instance variable Box`value of #2 changed to 7"] :=
  ⟨.run _ 20 (Entry.from_all _) (.create {} [] 20 (Heap.from_all _)), rfl, by decide +kernel,
    by decide +kernel⟩

end Animator
