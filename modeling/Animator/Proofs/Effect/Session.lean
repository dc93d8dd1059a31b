import Animator.Eval.Join
import Animator.Proofs.Effect.Keep
import Animator.Proofs.Logic.Entry

/-!
# Sessions

A session begins with the initialisation of a program. Then it is asked to evaluate things, its
threads are joined, and it is debugged, in any order (`Machine.Reachable`).
-/

namespace Animator

/-- The code of the model belongs to the `Origin`. -/
structure Model.From (o : Origin) (model : Model) : Prop where
  classes : ∀ d ∈ model.classes, o.Class d
  operations : ∀ d ∈ model.modules, ∀ op ∈ d.operations, o.Operation op
  functions : ∀ d ∈ model.modules, ∀ f ∈ d.functions, o.Function f
  values : ∀ d ∈ model.modules, ∀ e ∈ d.values.flatMap (·.exprs), o.expr e
  inits : ∀ d ∈ model.modules, ∀ state, d.state = some state → ∀ f ∈ state.fields,
    ∀ e, f.init = some e → o.expr e

theorem Origin.Whole.model {o : Origin} (ho : o.Whole) (model : Model) : model.From o where
  classes d _ := ho.classes d
  operations _ _ op _ := ho.operation op
  functions _ _ _ _ e _ := ho.expr e
  values _ _ e _ := ho.expr e
  inits _ _ _ _ _ _ e _ := ho.expr e

theorem Model.from_all (model : Model) : model.From .all :=
  Origin.whole_all.model model

variable {P : Program} {o : Origin} {m : Machine}

/-! ### The first machine -/

theorem Registry.eq_or_mem_of_mem_insert {α : Type} {r : Registry α} {name : String} {a : α}
    {entry : String × α} (h : entry ∈ r.insert name a) : entry = (name, a) ∨ entry ∈ r := by
  induction r with
  | nil => simpa [Registry.insert] using h
  | cons first rest ih =>
    unfold Registry.insert at h
    -- The entry is put in its place in the order of names.
    split at h <;> grind

theorem Registry.mem_ofList {α : Type} {entries : List (String × α)} {entry : String × α}
    (h : entry ∈ Registry.ofList entries) : entry ∈ entries := by
  have hfold : ∀ (entries : List (String × α)) (r : Registry α),
      entry ∈ entries.foldl (fun r e => r.insert e.1 e.2) r →
        entry ∈ entries ∨ entry ∈ r := by
    intro entries
    induction entries with
    | nil => exact fun r h => .inr h
    | cons first rest ih =>
      intro r h
      rcases ih _ h with h | h
      · exact .inl (List.mem_cons_of_mem _ h)
      · rcases eq_or_mem_of_mem_insert h with rfl | h
        · exact .inl List.mem_cons_self
        · exact .inr h
  exact (hfold entries [] h).resolve_right List.not_mem_nil

namespace Machine

/-- Nothing is going on: the main thread is known, and it is under no guard. -/
def Idle (m : Machine) : Prop :=
  m.Has mainThread ∧ m.nesting mainThread = ⟨0, 0, 0, false⟩

theorem Idle.keeps {m' : Machine} (h : m.Idle) (hkeeps : m.Keeps m') : m'.Idle :=
  ⟨(hkeeps mainThread h.1).1, (hkeeps mainThread h.1).2.trans h.2⟩

theorem from_stateFields {h : Heap} (hh : h.From o) (fields : List StateField) :
    (stateFields h fields).2.From o := by
  induction fields generalizing h with
  | nil => exact hh
  | cons f rest ih => exact ih (hh.newCell trivial)

theorem from_stateScopes {h : Heap} (hh : h.From o) (modules : List ModuleDef) :
    (stateScopes h modules).2.From o := by
  induction modules generalizing h with
  | nil => exact hh
  | cons d rest ih =>
    unfold stateScopes
    split
    · exact ih hh
    · exact ih (from_stateFields hh _)

theorem from_moduleRoutines (hmodel : P.model.From o) {d : ModuleDef} (hd : d ∈ P.model.modules) :
    Bindings.From o (moduleRoutines d) := by
  intro b hb
  rcases List.mem_append.1 hb with hb | hb
  · obtain ⟨f, hf, rfl⟩ := List.mem_map.1 hb
    exact .inr (Value.from_function_iff.2 ⟨hmodel.functions d hd f hf, nofun⟩)
  · obtain ⟨op, hop, rfl⟩ := List.mem_map.1 hb
    exact .inr (hmodel.operations d hd op hop)

theorem from_classRoutines {d : ClassDef} (hd : o.Class d) : Bindings.From o (classRoutines d) := by
  intro b hb
  rcases List.mem_append.1 hb with hb | hb
  · obtain ⟨f, hf, rfl⟩ := List.mem_map.1 hb
    exact .inr (Value.from_function_iff.2 ⟨hd.functions f hf, nofun⟩)
  · obtain ⟨op, hop, rfl⟩ := List.mem_map.1 hb
    exact .inr (hd.operations op (List.mem_filter.1 hop).1)

theorem from_initial (hmodel : P.model.From o) {heap : Heap} (hheap : heap.From o) :
    (initial P heap).From o where
  globals := by
    refine ⟨Bindings.From.insertAll (fun b hb => ?_) (fun _ hb => absurd hb List.not_mem_nil),
      fun entry hentry => ?_, fun entry hentry => ?_⟩
    · obtain ⟨d, hd, hb⟩ := List.mem_flatMap.1 hb
      exact from_moduleRoutines hmodel hd b hb
    · obtain ⟨d, hd, rfl⟩ := List.mem_map.1 (Registry.mem_ofList hentry)
      exact hmodel.classes d hd
    · obtain ⟨d, hd, rfl⟩ := List.mem_map.1 (Registry.mem_ofList hentry)
      exact (from_classRoutines (hmodel.classes d hd)).insertAll nofun
  heap := from_stateScopes hheap _
  waiting _ hw := absurd hw List.not_mem_nil
  breakpoints _ hb := absurd hb List.not_mem_nil
  watch := nofun

theorem idle_initial (P : Program) (heap : Heap) (kept : List Value) :
    Idle { initial P heap with kept } :=
  ⟨rfl, rfl⟩

end Machine

/-! ### Evaluations from outside -/

theorem Context.from_entry {id : ContextId} {title : String} {location : Location} {kind : RootKind}
    {thread : ThreadId} :
    Context.From o { inner := { id, title, location, root := some { kind } }, thread } := by
  intro s hs
  rw [List.mem_singleton.1 hs]
  exact ⟨nofun, fun r hr => Option.some.inj hr ▸ Root.from_plain kind⟩

theorem Globals.From.routine {model : Model} {g : Globals} (hg : g.From o) {owner name : String}
    {arity : Nat} {v : Value} (hv : Engine.routine model g owner name arity = some v) :
    v.Bound o := by
  unfold Engine.routine at hv
  split at hv
  · obtain ⟨n, -, hv⟩ := Option.bind_eq_some_iff.1 hv
    exact hg.lookup hv
  · obtain ⟨scope, hscope, hv⟩ := Option.bind_eq_some_iff.1 hv
    obtain ⟨n, -, hv⟩ := Option.bind_eq_some_iff.1 hv
    obtain ⟨entry, hentry, rfl⟩ := Globals.mem_classes hscope
    exact (hg.statics entry hentry).get? hv

namespace Effect

variable {T : ThreadId → Prop} {F : Effect P o T} {E : Engine}

theorem holds_entry {kind : RootKind} {title : String} {location : Location} {id : ThreadId}
    (ht : T id) :
    F.Does F.Ctx (Eval.entry kind title location id) :=
  holds_scope fun _ => ⟨rfl, Context.from_entry, ht⟩

theorem entries (L : F.Leaves E) (ht : T mainThread) : (logic L).Entries where
  context := holds_entry ht
  routine := .reads fun _ hm _ => ⟨rfl, fun _ hv => hm.globals.routine hv⟩
  unresolved := by
    rintro Q c _ message ⟨rfl, -⟩ m hm hi
    exact ⟨rfl, hm, hi, F.ends hi (.inl rfl), .halt trivial⟩

theorem holds_activate (L : F.Leaves E) {id : ThreadId} (ht : T id) {body : ThreadBody}
    (hbody : body.From o) :
    F.Does (Same (·.From o)) (E.activate id body) := by
  cases body with
  | statement ref s => exact .bind (holds_entry ht) fun _ _ hroot => (logic L).stmt hbody hroot
  | operation ref op =>
    exact .bind (holds_entry ht) fun _ _ hroot =>
      (logic L).callOperation ((logic L).calls hroot) hbody nofun

end Effect

inductive Task where
  | entry (entry : Entry)
  /-- One `activation` of a thread. -/
  | activation (id : ThreadId) (body : ThreadBody)
  /-- A statement or an expression, in any context. -/
  | node (node : Node) (c : Context)

namespace Task

def thread : Task → ThreadId
  | .entry _ => mainThread
  | .activation id _ => id
  | .node _ c => c.thread

def run (E : Engine) : Task → Eval Value
  | .entry e => e.run E
  | .activation id body => E.activate id body
  | .node n c => n.eval E c

/-- It brings nothing from outside of the `Origin`. -/
def From (o : Origin) : Task → Prop
  | .entry e => e.From o
  | .activation _ body => body.From o
  | .node n c => o.node n ∧ c.From o

theorem from_all (task : Task) : task.From .all := by
  cases task with
  | entry entry => exact entry.from_all
  | activation id body => exact body.from_all
  | node node c => exact ⟨by cases node <;> trivial, c.from_all⟩

end Task

theorem Effect.holds_task {T : ThreadId → Prop} {F : Effect P o T} {E : Engine} (L : F.Leaves E)
    {task : Task} (ht : T task.thread) (htask : task.From o) :
    F.Does (Same (·.From o)) (task.run E) := by
  cases task with
  | entry entry => exact Logic.entry (entries L ht) htask
  | activation id body => exact holds_activate L ht htask
  | node node c =>
    cases node with
    | stmt s => exact L.stmt htask.1 htask.2 ht
    | expr e => exact L.expr htask.1 htask.2 ht

/-! ### Initialisation -/

/-- Everything that a session does to a machine beside evaluating and joining: it defines `globals`,
but no states, and it begins activations of threads. -/
inductive Machine.HostStep (o : Origin) (m : Machine) : Machine → Prop where
  | globals (g : Globals) (hg : g.From o) (hstates : g.states = m.globals.states) :
    HostStep o m { m with globals := g }
  | release (id : ThreadId) (due : Nat) :
    HostStep o m { m with scheduler := (m.scheduler.release id due).2 }
  | die (id : ThreadId) : HostStep o m { m with scheduler := m.scheduler.die id }

/-- What joining does in addition: threads that wait are taken, they come to their ends, and their
outcomes are taken. -/
inductive Machine.JoinStep (m : Machine) : Machine → Prop where
  | takeWaiting : JoinStep m { m with scheduler := m.scheduler.takeWaiting.2 }
  | finish (id : ThreadId) (outcome : Outcome) : JoinStep m (m.finish id outcome)
  | takeOutcome (id : ThreadId) :
    JoinStep m { m with scheduler := (m.scheduler.takeOutcome id).2 }

theorem Machine.From.hostStep {m' : Machine} (hm : m.From o) (hs : m.HostStep o m') :
    m'.From o := by
  cases hs with
  | globals g hg hstates => exact { hm with globals := hg }
  | release id due =>
    refine { hm with waiting := ?_ }
    dsimp only [Scheduler.release]
    split <;> exact hm.waiting
  | die id => exact { hm with }

theorem Machine.From.joinStep {m' : Machine} (hm : m.From o) (hs : m.JoinStep m') : m'.From o := by
  cases hs with
  | takeWaiting => exact { hm with waiting := fun _ hw => absurd hw List.not_mem_nil }
  | finish id outcome =>
    refine { hm with heap := ?_ }
    dsimp only [Machine.finish]
    split
    · exact hm.heap.setThread _ _
    · exact hm.heap
  | takeOutcome id => exact { hm with }

namespace Effect

/-- The `Effect` holds of what a session does beside evaluating, and it does not matter to it
whether a session takes an early end for a result. -/
class Hosts (F : Effect P o fun _ => True) : Prop where
  step {m m' : Machine} : F.Inv m → m.HostStep o m' → F.Inv m' ∧ F.Rel m none m'
  swallow {m m' : Machine} {halt : Halt} : F.Rel m (some halt) m' → F.Rel m none m'

/-- The `Effect` holds also of what joining does. -/
class Joins (F : Effect P o fun _ => True) : Prop extends F.Hosts where
  join {m m' : Machine} : F.Inv m → m.JoinStep m' → F.Inv m' ∧ F.Rel m none m'

variable {F : Effect P o fun _ => True} [F.Hosts] {E : Engine} (L : F.Leaves E) {c : Context}
  (hc : c.From o)

theorem holds_host {α : Type} {Q : α → α → Prop} {f : Machine → α} {g : Machine → Machine}
    (hf : ∀ m, m.From o → Q (f m) (f m)) (hg : ∀ m : Machine, m.From o → m.HostStep o (g m)) :
    F.Does Q (fun m => (.ok (f m), g m)) := by
  intro m hm hi
  obtain ⟨hinv, hrel⟩ := Hosts.step (F := F) hi (hg m hm)
  exact ⟨rfl, hm.hostStep (hg m hm), hinv, hrel, .value (hf m hm)⟩

omit [F.Hosts] in
theorem holds_join [F.Joins] {α : Type} {Q : α → α → Prop} {f : Machine → α}
    {g : Machine → Machine} (hf : ∀ m, m.From o → Q (f m) (f m))
    (hg : ∀ m : Machine, m.JoinStep (g m)) :
    F.Does Q (fun m => (.ok (f m), g m)) := by
  intro m hm hi
  obtain ⟨hinv, hrel⟩ := Joins.join (F := F) hi (hg m)
  exact ⟨rfl, hm.joinStep (hg m), hinv, hrel, .value (hf m hm)⟩

theorem holds_globals {α : Type} {f : Globals → α → Globals} {items : List α}
    (hf : ∀ a ∈ items, ∀ g : Globals, g.From o → (f g a).From o)
    (hstates : ∀ (g : Globals) a, (f g a).states = g.states) :
    F.Does Eq (Eval.change fun m => { m with globals := items.foldl f m.globals }) := by
  have hfold : ∀ g : Globals, g.From o →
      (items.foldl f g).From o ∧ (items.foldl f g).states = g.states := by
    induction items with
    | nil => exact fun g hg => ⟨hg, rfl⟩
    | cons first rest ih =>
      obtain ⟨hfirst, hrest⟩ := List.forall_mem_cons.1 hf
      intro g hg
      obtain ⟨hfrom, heq⟩ := ih hrest (f g first) (hfirst g hg)
      exact ⟨hfrom, heq.trans (hstates g first)⟩
  refine holds_host (fun _ _ => rfl) fun m hm => ?_
  obtain ⟨hfrom, heq⟩ := hfold m.globals hm.globals
  exact .globals _ hfrom heq

theorem holds_define {matched : List (Name × Value)} (hmatched : Bindings.From o matched) :
    F.Does Eq (Engine.define matched) := by
  refine holds_globals (F := F) (f := fun g (b : Name × Value) => g.define b.1 b.2)
    (fun b hb g hg => ?_) fun _ _ => rfl
  exact { hg with values := hg.values.insert (hmatched b hb) }

theorem holds_defineStatic {className : String} {matched : List (Name × Value)}
    (hmatched : Bindings.From o matched) :
    F.Does Eq (Engine.defineStatic className matched) := by
  refine holds_globals (F := F) (f := fun g (b : Name × Value) => g.defineStatic className b.1 b.2)
    (fun b hb g hg => ?_) fun _ _ => rfl
  refine { hg with
    classes := fun entry hentry => ?_
    statics := fun entry hentry => ?_ }
  all_goals
    obtain ⟨⟨name, scope⟩, hscope, rfl⟩ := List.mem_map.1 hentry
    dsimp only
    split
  -- Whether it is the class in question or not, its definition stays.
  · exact hg.classes (name, scope) hscope
  · exact hg.classes (name, scope) hscope
  · exact (hg.statics (name, scope) hscope).insert (hmatched b hb)
  · exact hg.statics (name, scope) hscope

include L hc

omit [F.Hosts] in
theorem holds_constants {defs : List Definition} (hdefs : ∀ e ∈ defs.flatMap (·.exprs), o.expr e) :
    F.Does (Same (Bindings.From o)) (E.constants defs c) := by
  cases defs with
  | nil => exact .pure ⟨rfl, nofun⟩
  | cons first rest =>
    refine .bind ((logic L).definitions ⟨rfl, hc, trivial⟩ hdefs) ?_
    rintro child _ ⟨rfl, hchild, -⟩
    refine .reads fun m hm _ => ⟨rfl, fun b hb => ?_⟩
    -- The names are looked up in the scope that the definitions have made.
    obtain ⟨name, -, hb⟩ := List.mem_filterMap.1 hb
    obtain ⟨v, hv, rfl⟩ := Option.map_eq_some_iff.1 hb
    exact hchild.lookup hm.globals hm.heap hv

omit [F.Hosts] in
theorem holds_initialiseFields {fields : List StateField} {cells : List (Name × CellId)}
    (hfields : ∀ f ∈ fields, ∀ e, f.init = some e → o.expr e) :
    F.Does Eq (E.initialiseFields c fields cells) := by
  induction fields generalizing cells with
  | nil =>
    unfold Engine.initialiseFields
    exact .pure rfl
  | cons f rest ih =>
    obtain ⟨hinit, hrest⟩ := List.forall_mem_cons.1 hfields
    -- Fields and cells go together, one by one.
    cases cells with
    | nil => exact .pure rfl
    | cons cell cells =>
      unfold Engine.initialiseFields
      cases hf : f.init with
      | none => exact ih hrest
      | some init =>
        refine .bind (L.expr (hinit init hf) hc trivial) ?_
        rintro v _ ⟨rfl, hv⟩
        have hstore : F.Does Eq
            (E.updateHeap (Heap.storeAt cell.2 [] v) init.location (c.hold v)) :=
          holds_store L (hc.holdAll [v]) trivial hv
        exact .bindEq hstore fun _ => ih hrest

theorem holds_initialiseModule (hmodel : P.model.From o) {d : ModuleDef}
    (hd : d ∈ P.model.modules) :
    F.Does Eq (E.initialiseModule c d) := by
  refine .bind (holds_constants L hc (hmodel.values d hd)) ?_
  rintro matched _ ⟨rfl, hmatched⟩
  refine .bindEq (holds_define hmatched) fun _ => .bindEq (.reads fun _ _ _ => rfl) fun scope => ?_
  cases hstate : d.state with
  | none => exact .pure rfl
  | some state =>
    cases scope with
    | none => exact .pure rfl
    | some scope =>
      refine .bind ((logic L).frame ⟨rfl, hc, trivial⟩ (Root.from_plain _)) ?_
      rintro ctx _ ⟨rfl, hctx, -⟩
      exact holds_initialiseFields L hctx (hmodel.inits d hd state hstate)

theorem holds_initialiseStatics {className : String} {vars : List InstanceVarDef}
    (hvars : ∀ v ∈ vars, ∀ e, v.init = some e → o.expr e)
    (hdeclares : ∀ v ∈ vars, o.declares v.init v.ty) :
    F.Does Eq (E.initialiseStatics className c vars) := by
  induction vars with
  | nil => exact .pure rfl
  | cons d rest ih =>
    obtain ⟨hinit, hrest⟩ := List.forall_mem_cons.1 hvars
    obtain ⟨hd, hothers⟩ := List.forall_mem_cons.1 hdeclares
    unfold Engine.initialiseStatics
    split
    · refine .bind ((logic L).newVariable hinit hd ⟨rfl, hc, trivial⟩) ?_
      rintro cell _ ⟨rfl, hcell⟩
      refine .bindEq (holds_defineStatic fun b hb => ?_) fun _ => ih hrest hothers
      rw [List.mem_singleton.1 hb]
      exact hcell
    · exact ih hrest hothers

theorem holds_initialiseClass {d : ClassDef} (hd : o.Class d) :
    F.Does Eq (E.initialiseClass c d) := by
  refine .bind ((logic L).frame ⟨rfl, hc, trivial⟩ (Root.from_plain _)) ?_
  rintro ctx _ ⟨rfl, hctx, -⟩
  refine .bind (holds_constants L hctx fun e he => ?_) ?_
  · obtain ⟨v, hv, he⟩ := List.mem_flatMap.1 he
    exact hd.values v hv e he
  · rintro matched _ ⟨rfl, hmatched⟩
    exact .bindEq (holds_defineStatic hmatched) fun _ =>
      holds_initialiseStatics L hctx hd.inits hd.declares

omit [F.Hosts] L hc in
theorem holds_each {α : Type} {f : α → Eval Unit} {items : List α}
    (hf : ∀ a ∈ items, F.Does Eq (f a)) :
    F.Does Eq (Engine.each f items) := by
  induction items with
  | nil => exact .pure rfl
  | cons first rest ih =>
    obtain ⟨hfirst, hrest⟩ := List.forall_mem_cons.1 hf
    exact .bindEq hfirst fun _ => ih hrest

theorem holds_initialiseClasses :
    F.Does Eq
      (Eval.reads (·.globals.classes) >>=
        Engine.each fun entry => E.initialiseClass c entry.2.definition) := by
  refine .bind (Q := Same fun classes => ∀ entry ∈ classes, o.Class entry.2.definition)
    (.reads fun _ hm _ => ⟨rfl, hm.globals.classes⟩) ?_
  rintro classes _ ⟨rfl, hclasses⟩
  exact holds_each fun entry hentry => holds_initialiseClass L hc (hclasses entry hentry)

omit hc in
theorem holds_initialise (hmodel : P.model.From o) :
    F.Does Eq E.initialise := by
  refine .bind (holds_entry trivial) ?_
  rintro root _ ⟨rfl, hroot, -⟩
  refine .bindEq (holds_each fun d hd => ?_) fun _ => holds_initialiseClasses L hroot
  exact holds_initialiseModule L hroot hmodel (L.program ▸ hd)

/-! ### Joining threads -/

omit L hc in
theorem holds_outcomeOn {α : Type} {Q : α → α → Prop} {x : Eval α} (id : ThreadId)
    (hx : F.Holds Q x x) :
    F.Does Eq (x.outcomeOn id) := by
  intro m hm hi
  have hpost := hx m hm hi
  rcases hrun : x m with ⟨r, m₁⟩
  rw [hrun] at hpost
  cases r with
  | ok a =>
    rw [outcomeOn_of_ok hrun]
    exact ⟨rfl, hpost.origin, hpost.inv, hpost.rel, .value rfl⟩
  | error halt =>
    by_cases hh : halt = .exhausted
    · subst hh
      cases hdead : m₁.scheduler.isDead id with
      | true =>
        rw [outcomeOn_of_dead hrun hdead]
        exact ⟨rfl, hpost.origin, hpost.inv, Hosts.swallow hpost.rel, .value rfl⟩
      | false =>
        rw [outcomeOn_of_exhausted hrun hdead]
        exact ⟨rfl, hpost.origin, hpost.inv, hpost.rel, .halt trivial⟩
    · rw [outcomeOn_of_error hrun hh]
      exact ⟨rfl, hpost.origin, hpost.inv, Hosts.swallow hpost.rel, .value rfl⟩

section Join

variable {rounds : Nat} {id : ThreadId}

omit L hc

theorem holds_release {due : Nat} :
    F.Does Eq (Eval.schedule (·.release id due)) :=
  holds_host (fun _ _ => rfl) fun _ _ => .release id due

theorem holds_activations {start period : Nat} {body : Nat → Eval Value}
    (hbody : ∀ k, F.Does (Same (·.From o)) (body k)) (n k : Nat) :
    F.Does (Same (·.From o)) (Engine.activations id start period body n k) := by
  induction n generalizing k with
  | zero => exact fun m hm hi => Post.throw (.inr rfl) trivial hm hi
  | succ n ih =>
    refine .bindEq (.reads fun _ _ _ => rfl) fun thread => ?_
    split
    · exact .pure ⟨rfl, trivial⟩
    split
    · refine .bindEq holds_release fun due => ?_
      split
      · exact .bind (hbody k) fun _ _ _ => ih (k + 1)
      · exact .pure ⟨rfl, trivial⟩
    · refine .bindEq (holds_host (fun _ _ => rfl) fun _ _ => .die id) fun _ => ?_
      exact fun m hm hi => Post.throw (.inr rfl) trivial hm hi

theorem holds_runThread {timing : Timing} {body : Nat → Eval Value}
    (hbody : ∀ k, F.Does (Same (·.From o)) (body k)) :
    F.Does (Same (·.From o)) (Engine.runThread rounds id timing body) := by
  cases timing with
  | plain => exact hbody 0
  | periodic | sporadic =>
    exact .bindEq (.reads fun _ _ _ => rfl) fun base => holds_activations hbody _ _

variable [F.Joins]

omit [F.Hosts]

theorem holds_takeOutcome : F.Does Eq (Engine.takeOutcome id) := by
  refine .bindEq (.reads fun _ _ _ => rfl) fun thread => ?_
  exact .bindEq (holds_join (fun _ _ => rfl) fun _ => .takeOutcome id) fun found => .pure rfl

theorem holds_joinThread {job : Job} {body : ThreadId → Job → Nat → Eval Value}
    (hbody : ∀ k, F.Does (Same (·.From o)) (body id job k)) :
    F.Does Eq (Engine.joinThread rounds body id job) := by
  refine .bindEq (holds_outcomeOn id (holds_runThread hbody)) fun result => ?_
  cases result with
  | none => exact holds_takeOutcome
  | some result =>
    exact .bindEq (holds_join (fun _ _ => rfl) fun _ => .finish id result) fun _ =>
      holds_takeOutcome

theorem holds_joinThreads {body : ThreadId → Job → Nat → Eval Value} {batch : List (ThreadId × Job)}
    (hbody : ∀ id job k, (id, job) ∈ batch →
      F.Does (Same (·.From o)) (body id job k)) :
    F.Does Eq (Engine.joinThreads rounds body batch) := by
  induction batch with
  | nil => exact .pure rfl
  | cons first rest ih =>
    refine .bindEq (holds_joinThread fun k => hbody first.1 first.2 k List.mem_cons_self)
      fun _ => ?_
    refine .bindEq (ih fun id job k hjob => hbody id job k (List.mem_cons_of_mem _ hjob))
      fun _ => ?_
    exact .pure rfl

theorem holds_joinWaiting {body : ThreadId → Job → Nat → Eval Value}
    (hbody : ∀ id (job : Job) k, job.body.From o →
      F.Does (Same (·.From o)) (body id job k)) (n : Nat) :
    F.Does Eq (Engine.joinWaiting rounds body n) := by
  induction n with
  | zero => exact fun m hm hi => Post.throw (.inr rfl) trivial hm hi
  | succ n ih =>
    -- All threads that wait are taken at once; those that they start wait for the next round.
    refine .bind (Q := Same fun batch => ∀ w ∈ batch, w.2.body.From o)
      (holds_join (fun _ hm => ⟨rfl, hm.waiting⟩) fun _ => .takeWaiting) ?_
    rintro batch _ ⟨rfl, hbatch⟩
    cases batch with
    | nil => exact .pure rfl
    | cons first rest =>
      refine .bindEq (holds_joinThreads fun id job k hjob => hbody id job k (hbatch _ hjob))
        fun _ => ?_
      exact .bindEq ih fun _ => .pure rfl

end Join

omit [F.Hosts] hc in
theorem holds_joinAll [F.Joins] : F.Does Eq E.joinAll :=
  holds_joinWaiting (fun _ _ _ hjob => holds_activate L trivial hjob) _

end Effect

/-! ### Sessions -/

theorem Machine.HostStep.keeps {m' : Machine} (hs : m.HostStep o m') : m.Keeps m' := by
  cases hs with
  | globals => exact .ofRecords rfl
  | release id due =>
    dsimp only [Scheduler.release]
    split <;> exact .ofModify (fun _ => rfl) fun _ => rfl
  | die id => exact .ofModify (fun _ => rfl) fun _ => rfl

theorem Machine.JoinStep.keeps {m' : Machine} (hs : m.JoinStep m') : m.Keeps m' := by
  cases hs with
  | takeWaiting => exact .ofRecords rfl
  | finish id outcome =>
    have hended : m.Keeps { m with scheduler := m.scheduler.finish id outcome } := by
      unfold Scheduler.finish
      exact .ofModify (fun _ => rfl) fun _ => rfl
    exact hended.trans (.ofRecords rfl)
  | takeOutcome id => exact .ofModify (fun _ => rfl) fun _ => rfl

instance {hP : P.delegates.From o} : (keepDrift P o hP).effect.Joins where
  step _ hs := ⟨trivial, hs.keeps⟩
  swallow h := h
  join _ hs := ⟨trivial, hs.keeps⟩

/-- What a session evaluates. -/
inductive Activity where
  | initialise
  /-- An entry, an activation of a thread, or a node in any context. -/
  | task (task : Task)
  | joinAll

namespace Activity

def after (E : Engine) (m : Machine) : Activity → Machine
  | .initialise => (E.initialise m).2
  | .task t => (t.run E m).2
  | .joinAll => (E.joinAll m).2

/-- It brings nothing from outside of the `Origin`. -/
def From (o : Origin) : Activity → Prop
  | .task t => t.From o
  | .initialise | .joinAll => True

theorem from_all (activity : Activity) : activity.From .all := by
  cases activity with
  | task t => exact t.from_all
  | _ => trivial

end Activity

theorem Effect.rel_after {F : Effect P o fun _ => True} [F.Joins] {E : Engine} (L : F.Leaves E)
    (hmodel : P.model.From o) {activity : Activity} (hactivity : activity.From o) (hm : m.From o)
    (hi : F.Inv m) :
    (activity.after E m).From o ∧ F.Inv (activity.after E m) ∧
      ∃ r, F.Rel m r (activity.after E m) := by
  have hend : ∀ {α : Type} {Q : α → α → Prop} {x : Eval α}, F.Holds Q x x →
      (x m).2.From o ∧ F.Inv (x m).2 ∧ ∃ r, F.Rel m r (x m).2 := by
    intro α Q x hx
    have hpost := hx m hm hi
    exact ⟨hpost.origin, hpost.inv, _, hpost.rel⟩
  cases activity with
  | initialise => exact hend (holds_initialise L hmodel)
  | task t => exact hend (holds_task L trivial hactivity)
  | joinAll => exact hend (holds_joinAll L)

/-- The machines of sessions, in which everything that is brought from outside comes from an
`Origin`. -/
inductive Machine.Reachable (P : Program) (o : Origin) : Machine → Prop where
  /-- The program is initialised. The heap may hold cells and objects already. -/
  | create (heap : Heap) (kept : List Value) (bound : Nat) (hheap : heap.From o) :
    Reachable P o ((P.engine bound).initialise { Machine.initial P heap with kept }).2
  | run {m : Machine} (entry : Entry) (bound : Nat) (hentry : entry.From o) (h : Reachable P o m) :
    Reachable P o (entry.run (P.engine bound) m).2
  | join {m : Machine} (bound : Nat) (h : Reachable P o m) :
    Reachable P o ((P.engine bound).joinAll m).2
  /-- The debugger is set up. -/
  | debug {m : Machine} (breakpoints : BreakpointTable) (link : Option Link) (stops : Array Stop)
      (hbreakpoints : ∀ b ∈ breakpoints.entries, ∀ e ∈ b.kind.exprs, o.expr e)
      (hlink : ∀ l, link = some l → ∀ e ∈ l.watch, o.expr e) (h : Reachable P o m) :
    Reachable P o { m with breakpoints, link, stops }
  | interrupt {m : Machine} (level : Interrupt) (h : Reachable P o m) :
    Reachable P o { m with scheduler := { m.scheduler with interrupt := level } }
  /-- Cells, objects and values are brought from outside. -/
  | hold {m : Machine} (heap : Heap) (kept : List Value) (hheap : heap.From o)
      (h : Reachable P o m) : Reachable P o { m with heap, kept }

/-- What is done to a machine from outside. -/
inductive Machine.Prepares (m : Machine) : Machine → Prop where
  | debug (breakpoints : BreakpointTable) (link : Option Link) (stops : Array Stop) :
    Prepares m { m with breakpoints, link, stops }
  | interrupt (level : Interrupt) :
    Prepares m { m with scheduler := { m.scheduler with interrupt := level } }
  | hold (heap : Heap) (kept : List Value) : Prepares m { m with heap, kept }

/-- What evaluations keep is known of the machines of sessions, if it is known in the beginning and
does not depend on what is done from outside. -/
theorem Machine.Reachable.upholds {F : Effect P o fun _ => True} [F.Joins] {K : Machine → Prop}
    (hleaves : ∀ bound, F.Leaves (P.engine bound)) (hmodel : P.model.From o)
    (hinv : ∀ m, K m → F.Inv m)
    (hkeeps : ∀ {m m' r}, K m → F.Inv m' → F.Rel m r m' → K m')
    (hstart : ∀ heap kept, K { initial P heap with kept })
    (hprepares : ∀ {m m'}, K m → m.Prepares m' → K m') (h : m.Reachable P o) : m.From o ∧ K m := by
  have hafter : ∀ (m : Machine) (bound : Nat) (activity : Activity), activity.From o →
      m.From o ∧ K m → (activity.after (P.engine bound) m).From o ∧
        K (activity.after (P.engine bound) m) := by
    rintro m bound activity hactivity ⟨hm, hk⟩
    obtain ⟨hfrom, hi, r, hrel⟩ :=
      Effect.rel_after (hleaves bound) hmodel hactivity hm (hinv m hk)
    exact ⟨hfrom, hkeeps hk hi hrel⟩
  induction h with
  | create heap kept bound hheap =>
    exact hafter _ bound .initialise trivial ⟨{ from_initial hmodel hheap with }, hstart heap kept⟩
  | run entry bound hentry _ ih => exact hafter _ bound (.task (.entry entry)) hentry ih
  | join bound _ ih => exact hafter _ bound .joinAll trivial ih
  | debug breakpoints link stops hbreakpoints hlink _ ih =>
    exact ⟨{ ih.1 with breakpoints := hbreakpoints, watch := hlink }, hprepares ih.2 (.debug ..)⟩
  | interrupt level _ ih => exact ⟨{ ih.1 with }, hprepares ih.2 (.interrupt level)⟩
  | hold heap kept hheap _ ih =>
    exact ⟨{ ih.1 with heap := hheap }, hprepares ih.2 (.hold heap kept)⟩

theorem Machine.Reachable.origin {hP : P.delegates.From o} (hmodel : P.model.From o)
    (hsound : ∀ bound, (keepDrift P o hP).effect.Sound (P.engine bound)) (h : Reachable P o m) :
    m.From o ∧ m.Idle := by
  refine h.upholds (fun bound => Drift.leaves_of_sound (hsound bound)) hmodel (fun _ _ => trivial)
    (fun hm _ hkeeps => hm.keeps hkeeps) (idle_initial P) fun hm hs => ?_
  cases hs <;> exact hm

end Animator
