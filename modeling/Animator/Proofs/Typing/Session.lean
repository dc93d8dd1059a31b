import Animator.Proofs.Effect.Runs
import Animator.Proofs.Typing.Store

/-!
# Store typing

The cells that a model makes hold members of their types. A session begins with the cells of the
states of modules, which hold nothing yet (`Tracked.start`). From then on everything that is
evaluated moves the cells as described by `Tracked.Leads`, however it ends (`trackDrift`). So
whatever has been evaluated, every cell is sound. The initialisation gives a value to every field
that has an initial value (`filled_initialise`), but as long as it has not come to a field, the
field holds nothing, and it can be read. Arguments are converted before they are matched
(`Engine.bindsMembers`).

`store_typing` is all that together.
-/

namespace Animator

/-! ### Evaluations as moves -/

namespace Heap

theorem cells_modifyObject (h : Heap) (id : ObjectId) (f : Object → Object) :
    (h.modifyObject id f).cells = h.cells := by
  cases id <;> rfl

end Heap

namespace Machine

/-- The heap with `sources` of its cells. -/
def tracked (m : Machine) (sources : List CellSource) : Tracked :=
  ⟨m.heap, sources⟩

/-- What an evaluation of code of an `Origin` does to the cells and to the states of modules. -/
structure Leads (o : Origin) (m m' : Machine) : Prop where
  cells : ∀ sources, ∃ sources', (m.tracked sources).Leads o (m'.tracked sources')
  /-- The states are made of the same cells. -/
  states : m'.globals.states = m.globals.states

variable {P : Program} {o : Origin} {T : ThreadId → Prop} {Made : ObjectRef → Prop}
  {m m₁ m₂ m' : Machine}

namespace Leads

theorem refl : m.Leads o m :=
  ⟨fun sources => ⟨sources, .refl⟩, rfl⟩

theorem trans (h : m.Leads o m₁) (h' : m₁.Leads o m₂) : m.Leads o m₂ := by
  refine ⟨fun sources => ?_, h'.states.trans h.states⟩
  obtain ⟨sources₁, hcells⟩ := h.cells sources
  obtain ⟨sources₂, hcells'⟩ := h'.cells sources₁
  exact ⟨sources₂, hcells.trans hcells'⟩

theorem ofCells (hcells : m'.heap.cells = m.heap.cells)
    (hstates : m'.globals.states = m.globals.states) : m.Leads o m' :=
  ⟨fun sources => ⟨sources, .single (.objects m'.heap hcells)⟩, hstates⟩

theorem exists_valid (h : m.Leads o m') {sources : List CellSource}
    (ht : (m.tracked sources).Valid o) :
    ∃ sources', (m'.tracked sources').Valid o ∧
      (m.tracked sources).Retains (m'.tracked sources') := by
  obtain ⟨sources', hleads⟩ := h.cells sources
  exact ⟨sources', hleads.goes.valid ht⟩

end Leads

theorem Step.leads (hs : m.Step P o T Made m') : m.Leads o m' := by
  cases hs with
  | context | unhit | log | stop | newObject | called => exact .ofCells rfl rfl
  | setMember | spawn => exact .ofCells (Heap.cells_modifyObject _ _ _) rfl
  | newCell cell init hv hdeclares hmade =>
    exact ⟨fun sources => ⟨_, .single (.declare cell init hdeclares hmade)⟩, rfl⟩
  | store c path v | write id c path v =>
    exact ⟨fun sources => ⟨sources, .single (.store c path v)⟩, rfl⟩
  | delegate call v heap scheduler hargs hi =>
    refine .ofCells ?_ rfl
    rcases Delegates.invoke_cases hi with
      ⟨-, rfl, -⟩ | ⟨-, ⟨rfl, -⟩ | ⟨rfl, -⟩ | ⟨-, ref, cpu, rfl⟩⟩
    · rfl
    · rfl
    · rfl
    · exact Heap.cells_modifyObject _ _ _

theorem Happens.leads (h : m.Happens P o T Made m') : m.Leads o m' := by
  cases h with
  | step hs => exact hs.leads
  | obey hs => cases hs <;> exact .ofCells rfl rfl
  | _ => exact .ofCells rfl rfl

theorem HostStep.leads (hs : m.HostStep o m') : m.Leads o m' := by
  cases hs with
  | globals g hg hstates => exact .ofCells rfl hstates
  | _ => exact .ofCells rfl rfl

theorem JoinStep.leads (hs : m.JoinStep m') : m.Leads o m' := by
  cases hs with
  | takeWaiting | takeOutcome => exact .ofCells rfl rfl
  | finish id outcome =>
    refine .ofCells ?_ rfl
    dsimp only [Machine.finish]
    split
    · exact Heap.cells_modifyObject _ _ _
    · rfl

theorem Leads.guard (g : Guard) {id : ThreadId} (h : (g.enter id m).Leads o m') :
    m.Leads o (g.leave id m') := by
  have henter : m.Leads o (g.enter id m) := by cases g <;> exact .ofCells rfl rfl
  have hleave : m'.Leads o (g.leave id m') := by cases g <;> exact .ofCells rfl rfl
  exact (henter.trans h).trans hleave

end Machine

/-- Every evaluation of code of an `Origin` moves the cells. -/
def trackDrift (P : Program) (o : Origin) (hP : P.delegates.From o) : Drift P o where
  Rel := Machine.Leads o
  delegates := hP
  refl := .refl
  trans := .trans
  moves _ h := h.leads
  guard g _ _ := .guard g

instance {P : Program} {o : Origin} {hP : P.delegates.From o} :
    (trackDrift P o hP).effect.Joins where
  step _ hs := ⟨trivial, hs.leads⟩
  swallow h := h
  join _ hs := ⟨trivial, hs.leads⟩

theorem Activity.leads {P : Program} {o : Origin} (ho : o.Closed) (hP : P.delegates.From o)
    (hmodel : P.model.From o) (bound : Nat) {activity : Activity} (hactivity : activity.From o)
    {m : Machine} (hm : m.From o) : m.Leads o (activity.after (P.engine bound) m) := by
  have L := (trackDrift P o hP).leaves ho bound
  obtain ⟨-, -, _, hleads⟩ := Effect.rel_after L hmodel hactivity hm trivial
  exact hleads

/-- Whatever it begins with and however it ends, the evaluation moves the cells. -/
def Eval.Moves {α : Type} (x : Eval α) : Prop :=
  ∀ m : Machine, m.Leads .all (x m).2

theorem trackDrift.moves {P : Program} {α : Type} {Q : α → α → Prop} {x : Eval α}
    (hx : (trackDrift P .all P.delegates_from_all).effect.Holds Q x x) : x.Moves :=
  fun m => Drift.rel hx m trivial

/-! ### The first cells -/

/-- The fields of the states of modules. -/
def Model.stateFields (model : Model) : List StateField :=
  model.modules.flatMap fun d => d.state.toList.flatMap (·.fields)

namespace Tracked

/-- The heap of a program before anything is evaluated. It may hold cells from outside. -/
def start (P : Program) (heap : Heap) : Tracked :=
  (Machine.initial P heap).tracked
    (List.replicate heap.cells.size .outside ++ P.model.stateFields.map fun _ => .field)

variable {o : Origin} {t t₁ t₂ : Tracked}

/-- Some cells have been made for states of modules. -/
structure Extends (o : Origin) (t t' : Tracked) (cells : List CellId) : Prop where
  valid : t'.Valid o
  retains : t.Retains t'
  owns : ∀ c ∈ cells, t'.Owns c

theorem Extends.trans {cells cells' : List CellId} (h : t.Extends o t₁ cells)
    (h' : t₁.Extends o t₂ cells') : t.Extends o t₂ (cells ++ cells') := by
  refine ⟨h'.valid, h.retains.trans h'.retains, fun c hc => ?_⟩
  rcases List.mem_append.1 hc with hc | hc
  · exact h'.retains.owns (h.owns c hc)
  · exact h'.owns c hc

theorem extends_stateFields (ht : t.Valid o) (fields : List StateField) :
    t.Extends o ⟨(Machine.stateFields t.heap fields).2, t.sources ++ fields.map fun _ => .field⟩
      ((Machine.stateFields t.heap fields).1.map (·.2)) := by
  induction fields generalizing t with
  | nil =>
    rw [List.map_nil, List.append_nil]
    exact ⟨ht, .refl, nofun⟩
  | cons f rest ih =>
    let cell : Cell := { value := .nil, ty := f.ty }
    let t₁ : Tracked := ⟨(t.heap.newCell cell).2, t.sources ++ [.field]⟩
    have hsound : cell.Sound o .field := .inr rfl
    obtain ⟨hvalid, hretains⟩ := ht.newCell hsound rfl
    have howns : t₁.Owns t.heap.cells.size := by
      refine ⟨?_, cell, Array.getElem?_push_size⟩
      rw [source_push, if_pos ht.length.symm]
      simp
    have hfirst : t.Extends o t₁ [t.heap.cells.size] :=
      ⟨hvalid, hretains, fun c hc => List.mem_singleton.1 hc ▸ howns⟩
    -- The sources of the rest are appended to that of the first field.
    have hboth := hfirst.trans (ih hvalid)
    rw [List.append_assoc] at hboth
    exact hboth

theorem extends_stateScopes (ht : t.Valid o) (modules : List ModuleDef) :
    t.Extends o ⟨(Machine.stateScopes t.heap modules).2,
        t.sources ++ (modules.flatMap fun d => d.state.toList.flatMap (·.fields)).map fun _ =>
          .field⟩
      ((Machine.stateScopes t.heap modules).1.flatMap fun entry => entry.2.fields.map (·.2)) := by
  induction modules generalizing t with
  | nil =>
    rw [List.flatMap_nil, List.map_nil, List.append_nil]
    exact ⟨ht, .refl, nofun⟩
  | cons d rest ih =>
    rw [List.flatMap_cons, List.map_append]
    unfold Machine.stateScopes
    cases hstate : d.state with
    | none => exact ih ht
    | some state =>
      have hfields := extends_stateFields ht state.fields
      have hboth := hfields.trans (ih hfields.valid)
      rw [List.append_assoc] at hboth
      rw [show (some state).toList.flatMap (·.fields) = state.fields from List.append_nil _]
      exact hboth

/-- At the start all cells are sound, and those of `stateScopes` belong to the model. -/
theorem extends_start (P : Program) {heap : Heap} (hheap : heap.Grounded) :
    Extends o ⟨heap, List.replicate heap.cells.size .outside⟩ (start P heap)
      ((Machine.stateScopes heap P.model.modules).1.flatMap fun entry =>
        entry.2.fields.map (·.2)) := by
  refine extends_stateScopes ⟨List.length_replicate, hheap, fun c cell hcell => ?_⟩ _
  have houtside : Tracked.source ⟨heap, List.replicate heap.cells.size .outside⟩ c = .outside := by
    unfold source
    rw [List.getElem?_replicate]
    split <;> rfl
  rw [houtside]
  trivial

end Tracked

/-- The cells of the fields that have an initial value. -/
def Globals.initialCells (g : Globals) (model : Model) : List CellId :=
  model.modules.flatMap fun d =>
    match d.state, g.state? d.name with
    | some state, some scope =>
      ((state.fields.zip scope.fields).filter (·.1.init.isSome)).map (·.2.2)
    | _, _ => []

theorem Globals.mem_initialCells {g : Globals} {model : Model} {c : CellId} :
    c ∈ g.initialCells model ↔ ∃ d ∈ model.modules, ∃ state scope, d.state = some state ∧
      g.state? d.name = some scope ∧
      ∃ f ∈ state.fields.zip scope.fields, f.1.init.isSome = true ∧ f.2.2 = c := by
  unfold initialCells
  rw [List.mem_flatMap]
  refine exists_congr fun d => and_congr_right fun _ => ?_
  cases d.state with
  | none => simp
  | some state =>
    cases g.state? d.name with
    | none => simp
    | some scope =>
      simp only [List.mem_map, List.mem_filter, Option.some.injEq, exists_and_left, exists_eq_left',
        and_assoc]

theorem Tracked.owns_initialCells (P : Program) {heap : Heap} (hheap : heap.Grounded) {c : CellId}
    (hc : c ∈ (Machine.initial P heap).globals.initialCells P.model) :
    (Tracked.start P heap).Owns c := by
  obtain ⟨d, -, state, scope, -, hscope, f, hf, -, rfl⟩ := Globals.mem_initialCells.1 hc
  -- The state that is found by its name is one of those that have been made.
  obtain ⟨entry, hentry, rfl⟩ := Option.map_eq_some_iff.1 hscope
  have hmem := Registry.mem_ofList (List.mem_of_find?_eq_some hentry)
  refine (extends_start (o := .all) P hheap).owns _ (List.mem_flatMap.2 ⟨entry, hmem, ?_⟩)
  exact List.mem_map_of_mem (List.of_mem_zip hf).2

/-! ### Initialisation -/

section Initialise

variable {α β : Type} {P : Program} {states : Registry StateScope} {c : CellId} {x : Eval α}

/-- The evaluation gives a value to a cell of the model, if it gives a result. -/
def Fills (states : Registry StateScope) (c : CellId) (x : Eval α) : Prop :=
  ∀ m sources a m', m.globals.states = states → (m.tracked sources).Valid .all →
    (m.tracked sources).Owns c → x m = (.ok a, m') → m'.heap.Filled c

theorem Fills.first {f : α → Eval β} (hx : Fills states c x) (hmoves : x.Moves)
    (hf : ∀ a, (f a).Moves) : Fills states c (x >>= f) := by
  intro m sources b m' hstates hvalid howns hrun
  obtain ⟨a, m₁, hrun₁, hrun₂⟩ := exists_of_bind_eq_ok hrun
  -- The cells are sound between the two parts, so the second part retains what the first has done.
  have hleads := hmoves m
  rw [hrun₁] at hleads
  obtain ⟨sources₁, hvalid₁, hretains₁⟩ := hleads.exists_valid hvalid
  have hleads' := hf a m₁
  rw [hrun₂] at hleads'
  obtain ⟨sources₂, -, hretains₂⟩ := hleads'.exists_valid hvalid₁
  exact hretains₂.filled (hretains₁.owns howns) (hx m sources a m₁ hstates hvalid howns hrun₁)

theorem Fills.later {f : α → Eval β} (hx : x.Moves) (hf : ∀ a, Fills states c (f a)) :
    Fills states c (x >>= f) := by
  intro m sources b m' hstates hvalid howns hrun
  obtain ⟨a, m₁, hrun₁, hrun₂⟩ := exists_of_bind_eq_ok hrun
  have hleads := hx m
  rw [hrun₁] at hleads
  obtain ⟨sources₁, hvalid₁, hretains₁⟩ := hleads.exists_valid hvalid
  exact hf a m₁ sources₁ b m' (hleads.states.trans hstates) hvalid₁ (hretains₁.owns howns) hrun₂

theorem Fills.state {name : String} {f : Option StateScope → Eval β}
    (hf : Fills states c (f (states.get? name))) :
    Fills states c (Eval.reads (·.globals.state? name) >>= f) := by
  intro m sources b m' hstates hvalid howns hrun
  have hread : m.globals.state? name = states.get? name := congrArg (·.get? name) hstates
  rw [reads_bind, hread] at hrun
  exact hf m sources b m' hstates hvalid howns hrun

theorem fills_each (P : Program) {f : α → Eval Unit} {items : List α} {a : α} (ha : a ∈ items)
    (hfills : Fills states c (f a))
    (hf : ∀ b ∈ items, (trackDrift P .all P.delegates_from_all).effect.Does Eq (f b)) :
    Fills states c (Engine.each f items) := by
  induction items with
  | nil => cases ha
  | cons first rest ih =>
    obtain ⟨hfirst, hrest⟩ := List.forall_mem_cons.1 hf
    rcases List.mem_cons.1 ha with rfl | ha
    · exact hfills.first (trackDrift.moves hfirst)
        fun _ => trackDrift.moves (Effect.holds_each hrest)
    · exact .later (trackDrift.moves hfirst) fun _ => ih ha hrest

variable {E : Engine} (L : (trackDrift P .all P.delegates_from_all).effect.Leaves E) {ctx : Context}

theorem fills_assigning {v : Value} {location : Location} :
    Fills states c (E.updateHeap (Heap.assigning c v) location ctx) := by
  intro m sources a m' _ hvalid _ hrun
  obtain ⟨heap, hassigning, rfl⟩ := Engine.eq_ok_of_updateHeap hrun
  cases hassign : m.heap.assign c v with
  | error fault =>
    rw [Heap.assigning_of_error hassign] at hassigning
    cases hassigning
  | ok heap' =>
    rw [Heap.assigning_of_ok hassign] at hassigning
    cases hassigning
    obtain ⟨cell, w, hcell, hw, rfl⟩ := Heap.exists_of_assign hassign
    refine Heap.filled_iff.2 ⟨{ cell with value := w }, ?_,
      hvalid.grounded.admits_convert cell.ty v w hw⟩
    dsimp only [Heap.store]
    rw [Array.getElem?_modify, if_pos rfl, hcell]
    rfl

include L

/-- A state field with an initialiser is filled when its turn comes. -/
theorem fills_initialiseFields {fields : List StateField} {cells : List (Name × CellId)}
    {f : StateField × Name × CellId} (hf : f ∈ fields.zip cells) (hinit : f.1.init.isSome = true)
    (hc : f.2.2 = c) : Fills states c (E.initialiseFields ctx fields cells) := by
  induction fields generalizing cells with
  | nil => cases hf
  | cons first rest ih =>
    cases cells with
    | nil => cases hf
    | cons cell cells =>
      have hrest : (E.initialiseFields ctx rest cells).Moves :=
        trackDrift.moves (Effect.holds_initialiseFields L ctx.from_all fun _ _ _ _ => trivial)
      have hstore : ∀ v location,
          (E.updateHeap (Heap.storeAt cell.2 [] v) location (ctx.hold v)).Moves := fun v _ =>
        trackDrift.moves (Effect.holds_store L (Context.from_all _) trivial v.from_all)
      unfold Engine.initialiseFields
      rw [List.zip_cons_cons] at hf
      rcases List.mem_cons.1 hf with rfl | hf
      · -- It is the field in question, so its initial value is stored.
        obtain ⟨init, hsome⟩ := Option.isSome_iff_exists.1 hinit
        dsimp only at hsome hc ⊢
        rw [hsome, hc]
        refine .later (trackDrift.moves (L.expr trivial ctx.from_all trivial)) fun v => ?_
        exact fills_assigning.first (hc ▸ hstore v _) fun _ => hrest
      · cases first.init with
        | none => exact ih hf
        | some init =>
          refine .later (trackDrift.moves (L.expr trivial ctx.from_all trivial)) fun v => ?_
          exact .later (hstore v _) fun _ => ih hf

theorem fills_initialiseModule {d : ModuleDef} {state : StateDef} {scope : StateScope}
    {f : StateField × Name × CellId} (hstate : d.state = some state)
    (hscope : states.get? d.name = some scope) (hf : f ∈ state.fields.zip scope.fields)
    (hinit : f.1.init.isSome = true) (hc : f.2.2 = c) :
    Fills states c (E.initialiseModule ctx d) := by
  have hctx := ctx.from_all
  have hvalues : ∀ e ∈ d.values.flatMap (·.exprs), Origin.all.expr e := fun _ _ => trivial
  refine .later (trackDrift.moves (Effect.holds_constants L hctx hvalues)) fun matched => ?_
  refine .later (trackDrift.moves (P := P) (Effect.holds_define (Bindings.from_all matched)))
    fun _ => .state ?_
  rw [hstate, hscope]
  have hframe : (trackDrift P .all P.delegates_from_all).effect.Holds
      (trackDrift P .all P.delegates_from_all).effect.Ctx
      (Eval.frame ctx { kind := .state d.name } state.name state.location)
      (Eval.frame ctx { kind := .state d.name } state.name state.location) :=
    (Effect.logic L).frame ⟨rfl, hctx, trivial⟩ (Root.from_plain (.state d.name))
  exact .later (trackDrift.moves hframe) fun _ => fills_initialiseFields L hf hinit hc

end Initialise

/-- The initialisation gives a value to every field that has an `initial` value. -/
theorem filled_initialise (P : Program) (bound : Nat) {heap : Heap} (hheap : heap.Grounded)
    {kept : List Value} {m : Machine} {c : CellId}
    (hrun : (P.engine bound).initialise { Machine.initial P heap with kept } = (.ok (), m))
    (hc : c ∈ (Machine.initial P heap).globals.initialCells P.model) : m.heap.Filled c := by
  have L := (trackDrift P .all P.delegates_from_all).leaves Origin.closed_all bound
  obtain ⟨d, hd, state, scope, hstate, hscope, f, hf, hinit, hcell⟩ := Globals.mem_initialCells.1 hc
  have hfills : Fills (Machine.initial P heap).globals.states c (P.engine bound).initialise := by
    -- Modules come before classes, and what comes after the module of the field retains its value.
    refine .later (trackDrift.moves (P := P) (Effect.holds_entry trivial)) fun root => ?_
    have hroot := root.from_all
    have hmodules : ∀ d ∈ P.model.modules, (trackDrift P .all P.delegates_from_all).effect.Does Eq
        ((P.engine bound).initialiseModule root d) :=
      fun d hd => Effect.holds_initialiseModule L hroot P.model.from_all hd
    refine (fills_each P hd ?_ hmodules).first (trackDrift.moves (Effect.holds_each hmodules))
      fun _ => trackDrift.moves (Effect.holds_initialiseClasses L hroot)
    exact fills_initialiseModule L hstate hscope hf hinit hcell
  exact hfills { Machine.initial P heap with kept } _ _ _ rfl (Tracked.extends_start P hheap).valid
    (Tracked.owns_initialCells P hheap hc) hrun

/-! ### Parameters -/

/-- How parameters are bound to arguments: each argument is converted to a member of the type of its
parameter, and that member is `matched`. -/
inductive Binds (h : Heap) : List Pattern → List Ty → List Value → Context → Context → Prop where
  /-- Nothing is left to bind. -/
  | done {ps : List Pattern} {types : List Ty} {vs : List Value} {c : Context}
      (hend : ps = [] ∨ vs = []) : Binds h ps types vs c c
  | param {p : Pattern} {ps : List Pattern} {types : List Ty} {v w : Value} {vs : List Value}
      {matched : Matched} {c c' : Context} (hconvert : h.convert (types.headD .unknown) v = .ok w)
      (hmember : (types.headD .unknown).admits w = true) (hmatch : h.match? p w = some matched)
      (hrest : Binds h ps types.tail vs (c.bindAll matched) c') :
    Binds h (p :: ps) types (v :: vs) c c'

/-- Binding parameters succeeds with all of them, or it fails after some of them: with an argument
that cannot be converted, or with a member that does not match. -/
def Engine.BindsMembers (E : Engine) (m : Machine) (location : Location) (ps : List Pattern)
    (types : List Ty) (vs : List Value) (c : Context) : Prop :=
  (∃ c', E.bindParams location ps types vs c m = (.ok c', m) ∧ Binds m.heap ps types vs c c') ∨
  ∃ n c' held code message, Binds m.heap (ps.take n) types (vs.take n) c c' ∧
    (∀ w ∈ held, ((types.drop n).headD .unknown).admits w = true) ∧
    E.bindParams location ps types vs c m = E.fail code message location (c'.holdAll held) m

/-- Parameters are matched with members of their types (`BindsMembers`). -/
theorem Engine.bindsMembers (E : Engine) {m : Machine} (hm : m.heap.Grounded) (location : Location)
    (ps : List Pattern) (types : List Ty) (vs : List Value) (c : Context) :
    E.BindsMembers m location ps types vs c := by
  induction ps generalizing types vs c with
  | nil => exact .inl ⟨c, rfl, .done (.inl rfl)⟩
  | cons p ps ih =>
    cases vs with
    | nil => exact .inl ⟨c, rfl, .done (.inr rfl)⟩
    | cons v vs =>
      unfold BindsMembers bindParams
      cases hconvert : m.heap.convert (types.headD .unknown) v with
      | error fault =>
        refine .inr ⟨0, c, [], fault.code, fault.message, .done (.inl rfl), nofun, ?_⟩
        exact bind_of_fail (consultHeap_of_error hconvert)
      | ok w =>
        have hmember := hm.admits_convert _ v w hconvert
        rw [bind_of_ok (consultHeap_of_ok hconvert)]
        cases hmatch : m.heap.match? p w with
        | none =>
          refine .inr ⟨0, c, [w], _, _, .done (.inl rfl), ?_,
            bind_of_fail (matchOrFail_of_none hmatch)⟩
          intro w' hw'
          rw [List.mem_singleton.1 hw']
          exact hmember
        | some matched =>
          rw [bind_of_ok (matchOrFail_of_some hmatch)]
          -- The other parameters are bound in the context that has got this one.
          rcases ih types.tail vs (c.bindAll matched) with
            ⟨c', hrun, hbinds⟩ | ⟨n, c', held, code, message, hbinds, hheld, hrun⟩
          · exact .inl ⟨c', hrun, .param hconvert hmember hmatch hbinds⟩
          · refine .inr ⟨n + 1, c', held, code, message, .param hconvert hmember hmatch hbinds, ?_,
              hrun⟩
            rw [← List.drop_tail]
            exact hheld

/-! ### The theorem -/

/-- Store typing, for an `Origin` that has the code of the model. Whatever of it has been evaluated,
and whatever was brought from outside since the program was set up, every cell that was not brought
from outside is that of a field of a module's state or of a variable that the origin declares with
the type of the cell. It holds a member of its type, or nothing yet; the latter only if the
declaration gives no `initial` value or if it is a field. A cell that holds a member holds members
from then on. Once the program has been initialised, this is so of all fields with initial values.
Parameters are matched against members of their types. -/
theorem store_typing (P : Program) (o : Origin) (ho : o.Closed) (hP : P.delegates.From o)
    (hmodel : P.model.From o) (heap : Heap) (hheap : heap.Grounded) :
    (∀ t, (Tracked.start P heap).Goes o t →
      (∀ c (cell : Cell), t.heap.cells[c]? = some cell → cell.Sound o (t.source c)) ∧
        ∀ t', t.Goes o t' → t.Retains t') ∧
    (∀ (bound : Nat) (activity : Activity) (m : Machine) (sources : List CellSource),
      activity.From o → m.From o → ∃ sources',
        (m.tracked sources).Leads o ((activity.after (P.engine bound) m).tracked sources')) ∧
    (∀ (bound : Nat) (kept : List Value) (m : Machine) (sources : List CellSource) (t : Tracked),
      (P.engine bound).initialise { Machine.initial P heap with kept } = (.ok (), m) →
      (Tracked.start P heap).Leads o (m.tracked sources) → (m.tracked sources).Goes o t →
      ∀ c ∈ (Machine.initial P heap).globals.initialCells P.model, t.heap.Filled c) ∧
    ∀ (t : Tracked) (bound : Nat) (m : Machine), (Tracked.start P heap).Goes o t → m.heap = t.heap →
      ∀ location ps types vs c, (P.engine bound).BindsMembers m location ps types vs c := by
  have hstart : (Tracked.start P heap).Valid o := (Tracked.extends_start P hheap).valid
  refine ⟨fun t ht => ?_, fun bound activity m sources hactivity hm =>
    (Activity.leads ho hP hmodel bound hactivity hm).cells sources,
    fun bound kept m sources t hrun hleads ht c hc => ?_, fun t bound m ht hm => ?_⟩
  · have hvalid := (ht.valid hstart).1
    exact ⟨hvalid.sound, fun t' ht' => (ht'.valid hvalid).2⟩
  · -- The field has a member when the initialisation is over, and it keeps one.
    obtain ⟨hvalid, hretains⟩ := hleads.goes.valid hstart
    have howns := hretains.owns (Tracked.owns_initialCells P hheap hc)
    exact (ht.valid hvalid).2.filled howns (filled_initialise P bound hheap hrun hc)
  · have hgrounded := (ht.valid hstart).1.grounded
    exact Engine.bindsMembers _ (hm ▸ hgrounded)

/-- A name of a module in the example. -/
def earlyName (module text : String) : Name :=
  { module, text }

/-- Two modules. The constant of the first is the state of the second, which is initialised later.
-/
def earlyProgram : Program :=
  { model := { modules := [
      { name := "A", location := .onLine 1, state := none, functions := [], operations := []
        values := [⟨.onLine 2, .value ⟨.onLine 2, .ident (earlyName "A" "v")⟩ none
          (.onLine 3 (.apply (.onLine 3 (.name (earlyName "B" "get"))) []))⟩] },
      { name := "B", location := .onLine 4, values := [], functions := []
        state := some { name := "S", location := .onLine 5, fields := [
          { name := earlyName "B" "x", ty := .nat, init := some (.onLine 5 (.literal (.int 5))) }] }
        operations := [{ OperationDef.plain "B" "get"
          (.onLine 6 (.return (some (.onLine 6 (.name (earlyName "B" "x")))))) with
            result := .unknown }] }] } }

/-- Expressions, and statements that have no others inside. No variable is declared. -/
def Origin.undeclared : Origin where
  expr _ := True
  stmt s := s.kind.stmts = [] ∧ s.kind.declarations = []
  cells := True
  declares _ _ := False

theorem Origin.closed_undeclared : Origin.undeclared.Closed where
  expr _ _ _ _ := trivial
  stmt _ hs := ⟨fun _ _ => trivial, hs.1 ▸ List.forall_mem_nil _, hs.2 ▸ List.forall_mem_nil _⟩

theorem earlyProgram_undeclared : earlyProgram.model.From .undeclared where
  classes := nofun
  operations := by
    refine List.forall_mem_cons.2 ⟨nofun, List.forall_mem_singleton.2 ?_⟩
    exact List.forall_mem_singleton.2 ⟨⟨rfl, rfl⟩, fun _ _ => trivial⟩
  functions _ _ _ _ _ _ := trivial
  values _ _ _ _ := trivial
  inits _ _ _ _ _ _ _ _ := trivial

/-- After `initialise` the state is there, whatever is evaluated. -/
theorem store_typing_early :
    Heap.Grounded {} ∧ Origin.undeclared.Closed ∧ earlyProgram.model.From .undeclared ∧
    let m := ((earlyProgram.engine 20).initialise (Machine.initial earlyProgram {})).2
    ∀ (bound : Nat) (activity : Activity), activity.From .undeclared →
      (activity.after (earlyProgram.engine bound) m).heap.Filled 0 := by
  have hground : Heap.Grounded {} := nofun
  have hP : earlyProgram.delegates.From .undeclared := nofun
  have hmodel := earlyProgram_undeclared
  refine ⟨hground, Origin.closed_undeclared, hmodel, ?_⟩
  intro m bound activity hactivity
  have hok : ((earlyProgram.engine 20).initialise (Machine.initial earlyProgram {})).1.toOption =
      some () := by decide +kernel
  have hcell : 0 ∈ (Machine.initial earlyProgram {}).globals.initialCells earlyProgram.model := by
    decide +kernel
  have hfirst : (Machine.initial earlyProgram {}).From .undeclared :=
    Machine.from_initial hmodel (Heap.from_empty _)
  have hinitialise : Activity.initialise.From .undeclared := trivial
  have hm : m.From .undeclared :=
    (Effect.rel_after ((keepDrift earlyProgram _ hP).leaves Origin.closed_undeclared 20) hmodel
      hinitialise hfirst trivial).1
  obtain ⟨-, hleads, hfilled, -⟩ :=
    store_typing earlyProgram .undeclared Origin.closed_undeclared hP hmodel {} hground
  obtain ⟨sources, hinit⟩ := hleads 20 .initialise (Machine.initial earlyProgram {})
    (Tracked.start earlyProgram {}).sources hinitialise hfirst
  obtain ⟨sources', hafter⟩ := hleads bound activity m sources hactivity hm
  exact hfilled 20 [] m sources _ (eq_ok_of_toOption hok) hinit hafter.goes 0 hcell

/-- But it is not true of all cells at all times. Before the initialisation has come to it, the
field holds nothing, though it has an `initial` value; and that can be seen, since the constant of
the first module is no natural number. -/
theorem not_filled_before_initialised :
    let out := (earlyProgram.engine 20).initialise (Machine.initial earlyProgram {})
    0 ∈ (Machine.initial earlyProgram {}).globals.initialCells earlyProgram.model ∧
      ¬(Machine.initial earlyProgram {}).heap.Filled 0 ∧ out.1.toOption = some () ∧
      (out.2.globals.lookup (earlyName "A" "v")).map Ty.nat.admits = some false ∧
      out.2.heap.Filled 0 := by
  decide +kernel

end Animator
