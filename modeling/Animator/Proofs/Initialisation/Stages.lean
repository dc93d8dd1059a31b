import Animator.Proofs.Initialisation.Names
import Mathlib.Data.List.Nodup

/-!
# Stages of the initialisation

A program is initialised in stages, one for each module and one for each class (`Stage`). The
modules come first, in the order of their definitions. The classes come after them in the order of
their names, which has nothing to do with the order in which they are defined.

When a stage begins, the names of the stages before it are defined and those of the other stages are
not, routines apart. So an initial value can use the static variables of the classes with smaller
names (`classes_initialised_by_name`), and no others (`initialisation_misses_first_class`).
-/

namespace Animator

/-- One part of the initialisation. -/
inductive Stage where
  /-- The constants and the state of a module. -/
  | module (d : ModuleDef)
  /-- The constants and the static variables of a class. -/
  | «class» (d : ClassDef)

namespace Stage

def run (E : Engine) (root : Context) : Stage → Eval Unit
  | .module d => E.initialiseModule root d
  | .class d => E.initialiseClass root d

/-- The names that the `Stage` defines, if they can be found from everywhere. -/
def names : Stage → List Name
  | .module d => d.values.flatMap (·.names)
  | .class d =>
    (d.values.flatMap (·.names) ++ (d.instanceVars.filter (·.isStatic)).map (·.name)).filter
      (·.module = d.name)

/-- The names of `routines`, which are there from the beginning. -/
def routines : Stage → List Name
  | .module d => (Machine.moduleRoutines d).map (·.1)
  | .class d => ((Machine.classRoutines d).map (·.1)).filter (·.module = d.name)

end Stage

/-- The `stages` of a model: the modules, then the classes in some order. -/
def Model.stages (model : Model) (order : List ClassDef) : List Stage :=
  model.modules.map .module ++ order.map .class

/-- Run some `stages` of the initialisation. -/
def Engine.initialiseStages (E : Engine) (stages : List Stage) : Eval Unit := do
  let root ← Eval.entry .global "initialisation" entryLocation mainThread
  each (Stage.run E root) stages

/-- What can happen to a machine in the course of a stage: anything is evaluated, with success or
not, perhaps not to its end, and more names are defined. -/
inductive Machine.Evolves (P : Program) (m : Machine) : Machine → Prop where
  | refl : Evolves P m m
  | task {m' : Machine} (task : Task) (bound : Nat) (h : Evolves P m m') :
    Evolves P m (task.run (P.engine bound) m').2
  /-- An evaluation is under way, and it has changed anything but the `globals`. -/
  | midway {m' m'' : Machine} (hglobals : m''.globals = m'.globals) (h : Evolves P m m') :
    Evolves P m m''
  | define {m' : Machine} (matched : List (Name × Value)) (h : Evolves P m m') :
    Evolves P m (Engine.define matched m').2
  | defineStatic {m' : Machine} (className : String) (matched : List (Name × Value))
      (h : Evolves P m m') :
    Evolves P m (Engine.defineStatic className matched m').2

theorem Machine.Evolves.isSome_lookup {P : Program} {m m' : Machine} (h : m.Evolves P m') {n : Name}
    (hn : (m.globals.lookup n).isSome) : (m'.globals.lookup n).isSome := by
  induction h with
  | refl => exact hn
  | task task bound h ih =>
    rw [(Eval.DefinesNothing.task P bound task _).globals]
    exact ih
  | midway hglobals h ih => exact hglobals ▸ ih
  | define matched h ih => exact ((Globals.adds_define matched _).lookup n).2 (.inr ih)
  | @defineStatic m' className matched h ih =>
    -- The class need not exist; then nothing is defined.
    have hfold : ∀ g : Globals, (g.lookup n).isSome →
        ((matched.foldl (fun g b => g.defineStatic className b.1 b.2) g).lookup n).isSome := by
      induction matched with
      | nil => exact fun g hg => hg
      | cons first rest ih =>
        exact fun g hg => ih _ (Globals.isSome_lookup_defineStatic.2 (.inr hg))
    exact hfold m'.globals ih

/-! ### What a stage defines -/

section Stages

variable {P : Program} {bound : Nat} {root : Context} {m m' : Machine}

theorem Machine.Defines.adds_static {className : String} {groups : List (List Name)}
    (h : Defines (Engine.defineStatic className) groups m m')
    (hclass : (m.globals.class? className).isSome) :
    Globals.Adds (groups.flatten.filter (·.module = className)) m.globals m'.globals := by
  induction h with
  | idle h =>
    rw [h.globals]
    exact .refl _
  | @group _ _ _ _ _ matched h hnames _ ih =>
    rw [← h.globals] at hclass ⊢
    have hadds := Globals.adds_defineStatic matched hclass
    refine (hadds.trans (ih (hadds.isSome_class? hclass))).congr fun n => ?_
    rw [← List.filter_append, List.mem_filter, List.mem_append, hnames, List.flatten_cons,
      List.mem_filter, List.mem_append]

theorem Stage.adds {s : Stage} (hclass : ∀ d, s = .class d → (m.globals.class? d.name).isSome)
    (hrun : s.run (P.engine bound) root m = (.ok (), m')) :
    Globals.Adds s.names m.globals m'.globals := by
  cases s with
  | module d =>
    cases Machine.Defines.initialiseModule hrun with
    | group h hnames hrest =>
      cases hrest with
      | idle h' =>
        rw [h'.globals, ← h.globals]
        exact (Globals.adds_define _ _).congr hnames
  | «class» d =>
    have hadds := (Machine.Defines.initialiseClass hrun).adds_static (hclass d rfl)
    rwa [List.flatten_cons, ← List.flatMap_def, ← List.map_eq_flatMap] at hadds

theorem Stage.adds_each {stages : List Stage}
    (hclass : ∀ d, .class d ∈ stages → (m.globals.class? d.name).isSome)
    (hrun : Engine.each (Stage.run (P.engine bound) root) stages m = (.ok (), m')) :
    Globals.Adds (stages.flatMap (·.names)) m.globals m'.globals := by
  induction stages generalizing m with
  | nil =>
    cases hrun
    exact .refl _
  | cons s rest ih =>
    obtain ⟨_, m₁, hfirst, hrest⟩ := exists_of_bind_eq_ok hrun
    have hadds := Stage.adds (fun d hd => hclass d (hd ▸ List.mem_cons_self)) hfirst
    -- The classes of the model are the same after the first stage.
    exact hadds.trans (ih (fun d hd =>
      hadds.isSome_class? (hclass d (List.mem_cons_of_mem _ hd))) hrest)

end Stages

/-! ### The order of the stages -/

theorem Engine.each_append {α : Type} (f : α → Eval Unit) (items more : List α) :
    Engine.each f (items ++ more) = (do Engine.each f items; Engine.each f more) := by
  induction items with
  | nil => rfl
  | cons first rest ih =>
    have hfirst : ∀ items, Engine.each f (first :: items) = (do f first; Engine.each f items) :=
      fun _ => rfl
    rw [List.cons_append, hfirst, hfirst, ih, bind_assoc]

theorem Engine.each_map {α β : Type} (f : β → Eval Unit) (g : α → β) (items : List α) :
    Engine.each f (items.map g) = Engine.each (fun a => f (g a)) items := by
  induction items with
  | nil => rfl
  | cons first rest ih => exact congrArg (fun x : Eval Unit => do f (g first); x) ih

theorem bind_congr_of_ok {α β : Type} {x : Eval α} {f g : α → Eval β} {m : Machine}
    (h : ∀ a m', x m = (.ok a, m') → f a m' = g a m') : (x >>= f) m = (x >>= g) m := by
  rcases hx : x m with ⟨halt | a, m'⟩
  · rw [bind_of_error hx, bind_of_error hx]
  · rw [bind_of_ok hx, bind_of_ok hx, h a m' hx]

namespace Machine

def classEntry (d : ClassDef) : String × ClassScope :=
  (d.name, { definition := d, statics := Bindings.insertAll (classRoutines d) [] })

variable {P : Program} {heap : Heap}

theorem exists_of_mem_classes {entry : String × ClassScope}
    (h : entry ∈ (initial P heap).globals.classes) : ∃ d ∈ P.model.classes, classEntry d = entry :=
  List.mem_map.1 (Registry.mem_ofList h)

def classOrder (P : Program) (heap : Heap) : List ClassDef :=
  (initial P heap).globals.classes.map (·.2.definition)

theorem pairwise_classOrder : (classOrder P heap).Pairwise (·.name < ·.name) := by
  have hname : ∀ entry ∈ (initial P heap).globals.classes, entry.2.definition.name = entry.1 := by
    intro entry hentry
    obtain ⟨d, -, rfl⟩ := exists_of_mem_classes hentry
    rfl
  refine List.pairwise_map.2 ((Registry.ofList_sorted _).imp_of_mem fun {a b} ha hb hlt => ?_)
  rw [hname a ha, hname b hb]
  exact hlt

variable (hnames : (P.model.classes.map (·.name)).Nodup)

include hnames

theorem classOrder_perm : (classOrder P heap).Perm P.model.classes := by
  have hentries : (Registry.ofList (P.model.classes.map classEntry)).Perm
      (P.model.classes.map classEntry) := by
    refine Registry.ofList_perm ?_
    rw [List.map_map]
    exact hnames
  have hdefinitions := hentries.map (·.2.definition)
  rw [List.map_map] at hdefinitions
  have hid : (fun entry : String × ClassScope => entry.2.definition) ∘ classEntry = id := rfl
  rw [hid, List.map_id] at hdefinitions
  exact hdefinitions

theorem class?_initial {d : ClassDef} (hd : d ∈ P.model.classes) :
    (initial P heap).globals.class? d.name = some (classEntry d).2 := by
  have hmem : d ∈ classOrder P heap := (classOrder_perm hnames).mem_iff.2 hd
  obtain ⟨entry, hentry, rfl⟩ := List.mem_map.1 hmem
  obtain ⟨d, -, rfl⟩ := exists_of_mem_classes hentry
  have hfound : ((initial P heap).globals.class? d.name).isSome := by
    rw [Globals.isSome_class?_iff]
    exact List.mem_map.2 ⟨_, List.mem_map.2 ⟨_, hentry, rfl⟩, rfl⟩
  obtain ⟨scope, hscope⟩ := Option.isSome_iff_exists.1 hfound
  -- What is found is the entry of a class of the same name, and that is the class itself.
  obtain ⟨e, he, rfl⟩ := Option.map_eq_some_iff.1 hscope
  obtain ⟨d', hd', rfl⟩ := exists_of_mem_classes (List.mem_of_find?_eq_some he)
  have hname : (classEntry d').1 = d.name := by simpa using List.find?_some he
  obtain rfl : d' = d := List.inj_on_of_nodup_map hnames hd' hd hname
  exact hscope

theorem isSome_lookup_initial {n : Name} :
    ((initial P heap).globals.lookup n).isSome ↔
      n ∈ (P.model.stages (classOrder P heap)).flatMap (·.routines) := by
  have hvalues : ((initial P heap).globals.values.get? n).isSome ↔
      ∃ d ∈ P.model.modules, n ∈ (Stage.module d).routines := by
    rw [Bindings.isSome_get?_iff]
    refine (Bindings.mem_names_insertAll.trans (or_iff_left List.not_mem_nil)).trans ?_
    simp only [List.map_flatMap, List.mem_flatMap, Stage.routines]
  have hstatics : ((initial P heap).globals.static? n.module n).isSome ↔
      ∃ d ∈ classOrder P heap, n ∈ (Stage.class d).routines := by
    have hroutines : ∀ d : ClassDef, ((classEntry d).2.statics.get? n).isSome ↔
        n ∈ (classRoutines d).map (·.1) := by
      intro d
      rw [Bindings.isSome_get?_iff]
      exact Bindings.mem_names_insertAll.trans (or_iff_left List.not_mem_nil)
    simp only [Stage.routines, List.mem_filter, decide_eq_true_eq, ← hroutines]
    constructor
    · intro hstatic
      obtain ⟨v, hv⟩ := Option.isSome_iff_exists.1 hstatic
      obtain ⟨scope, hscope, hv⟩ := Option.bind_eq_some_iff.1 hv
      obtain ⟨e, he, rfl⟩ := Option.map_eq_some_iff.1 hscope
      obtain ⟨d, hd, rfl⟩ := exists_of_mem_classes (List.mem_of_find?_eq_some he)
      have hname : (classEntry d).1 = n.module := by simpa using List.find?_some he
      exact ⟨d, (classOrder_perm hnames).mem_iff.2 hd, Option.isSome_of_eq_some hv, hname.symm⟩
    · rintro ⟨d, hd, hn, hmodule⟩
      rw [Globals.static?, hmodule, class?_initial hnames ((classOrder_perm hnames).mem_iff.1 hd)]
      exact hn
  rw [Globals.isSome_lookup_iff, hvalues, hstatics]
  simp only [Model.stages, List.flatMap_append, List.mem_append, List.mem_flatMap, List.mem_map,
    exists_exists_and_eq_and]

end Machine

/-! ### The theorem -/

section Order

variable {P : Program} {heap : Heap} {kept : List Value} (bound : Nat)
  (hnames : (P.model.classes.map (·.name)).Nodup)

theorem Engine.initialise_eq_stages (P : Program) (heap : Heap) (kept : List Value) (bound : Nat) :
    (P.engine bound).initialise { Machine.initial P heap with kept } =
      (P.engine bound).initialiseStages (P.model.stages (Machine.classOrder P heap))
        { Machine.initial P heap with kept } := by
  refine bind_congr_of_ok fun root m₁ hentry => ?_
  rw [Model.stages, Engine.each_append, Engine.each_map]
  refine bind_congr_of_ok fun _ m hmodules => ?_
  rw [reads_bind, Engine.each_map]
  -- The modules leave the classes alone, so they are those of the first machine.
  have hstages : Engine.each (Stage.run (P.engine bound) root) (P.model.modules.map .module) m₁ =
      (.ok (), m) := by
    rw [Engine.each_map]
    exact hmodules
  have hadds := Stage.adds_each (by simp) hstages
  have horder : m.globals.classes.map (·.2.definition) = Machine.classOrder P heap := by
    have houtline := congrArg (List.map Prod.snd) hadds.outline
    cases hentry
    simp only [Globals.outline, List.map_map] at houtline
    exact houtline
  rw [← horder, Engine.each_map]
  rfl

include hnames

/-- When a `Stage` begins, the names of the `stages` before it are defined, and no others. -/
theorem Engine.isSome_lookup_initialiseStages {before after : List Stage} {s : Stage} {m : Machine}
    (hstages : P.model.stages (Machine.classOrder P heap) = before ++ s :: after)
    (hrun : (P.engine bound).initialiseStages before { Machine.initial P heap with kept } =
      (.ok (), m))
    (n : Name) :
    (m.globals.lookup n).isSome ↔
      n ∈ (P.model.stages (Machine.classOrder P heap)).flatMap (·.routines) ∨
        n ∈ before.flatMap (·.names) := by
  obtain ⟨root, m₁, hentry, hrun⟩ := exists_of_bind_eq_ok hrun
  have hglobals : m₁.globals = (Machine.initial P heap).globals :=
    congrArg (·.2.globals) hentry.symm
  have hadds := Stage.adds_each (fun d hd => ?_) hrun
  · rw [hadds.lookup, hglobals, Machine.isSome_lookup_initial hnames, or_comm]
  · -- The classes of the stages are classes of the model.
    have hmem : Stage.class d ∈ P.model.stages (Machine.classOrder P heap) :=
      hstages ▸ List.mem_append_left _ hd
    have hclass : d ∈ P.model.classes := by
      refine (Machine.classOrder_perm hnames).mem_iff.1 (?_ : d ∈ Machine.classOrder P heap)
      simpa [Model.stages] using hmem
    rw [hglobals, Machine.class?_initial hnames hclass]
    rfl

end Order

/-- Classes are initialised in the order of their names. If the classes of a program have different
names, its initialisation consists of the `stages` of all modules, in the order of their
definitions, and the stages of all classes, in the order of their names; a stage is run when those
before it have succeeded. When it begins, the `globals` are the routines and the names of the stages
before it. Those stay, whatever is evaluated, and evaluating one of them as an expression never
fails. -/
theorem classes_initialised_by_name (P : Program) (heap : Heap) (kept : List Value)
    (hnames : (P.model.classes.map (·.name)).Nodup) :
    ∃ order : List ClassDef, order.Perm P.model.classes ∧ order.Pairwise (·.name < ·.name) ∧
      ∀ bound : Nat,
        (P.engine bound).initialise { Machine.initial P heap with kept } =
            (P.engine bound).initialiseStages (P.model.stages order)
              { Machine.initial P heap with kept } ∧
          ∀ before s after m, P.model.stages order = before ++ s :: after →
            (P.engine bound).initialiseStages before { Machine.initial P heap with kept } =
              (.ok (), m) →
            (∀ n, (m.globals.lookup n).isSome ↔
              n ∈ (P.model.stages order).flatMap (·.routines) ∨ n ∈ before.flatMap (·.names)) ∧
            ∀ m', m.Evolves P m' → ∀ n ∈ before.flatMap (·.names), ∀ bound' location c,
              ∃ v, (P.engine bound').exprKind (.name n) location c m' = (.ok v, m') := by
  refine ⟨Machine.classOrder P heap, Machine.classOrder_perm hnames, Machine.pairwise_classOrder,
    fun bound => ⟨Engine.initialise_eq_stages P heap kept bound, ?_⟩⟩
  intro before s after m hstages hrun
  have hlookup := Engine.isSome_lookup_initialiseStages bound hnames hstages hrun
  refine ⟨hlookup, fun m' hevolves n hn bound' location c => ?_⟩
  have hfound := hevolves.isSome_lookup ((hlookup n).2 (.inr hn))
  obtain ⟨v, hv⟩ := Option.isSome_iff_exists.1 (Context.isSome_lookup hfound c m'.heap)
  refine ⟨m'.heap.deref v, ?_⟩
  rw [Engine.exprKind, Eval.lookup, reads_bind, hv]
  rfl

def staticClass (className text : String) (line : Nat) (init : ExprKind) : ClassDef :=
  { name := className, location := .onLine line, values := [], functions := [], operations := []
    invariants := [], thread := none
    instanceVars := [{
      name := { module := className, text }, ty := .nat, init := some (.onLine line init)
      isStatic := true, location := .onLine line }] }

/-- Two classes. The static variable of the second begins with the value of that of the first. -/
def pairProgram (first second : String) : Program :=
  { model := { classes := [
      staticClass first "x" 1 (.literal (.int 1)),
      staticClass second "y" 2 (.name { module := first, text := "x" })] } }

/-- If the names of a `pairProgram` are in order, the static variable of the first class is there
when the stage of the second one begins. -/
theorem classes_initialised_by_name_pair :
    let P := pairProgram "Ant" "Zoo"
    let ant := staticClass "Ant" "x" 1 (.literal (.int 1))
    let m := ((P.engine 20).initialiseStages [.class ant] (Machine.initial P {})).2
    (P.model.classes.map (·.name)).Nodup ∧
      ∀ location c, ∃ v,
        (P.engine 20).exprKind (.name { module := "Ant", text := "x" }) location c m =
          (.ok v, m) := by
  intro P ant m
  have hnames : (P.model.classes.map (·.name)).Nodup := by decide
  refine ⟨hnames, fun location c => ?_⟩
  obtain ⟨order, hperm, hsorted, hinit⟩ := classes_initialised_by_name P {} [] hnames
  -- The classes are in the order of their names already.
  have horder : order = P.model.classes :=
    hperm.eq_of_pairwise (fun _ _ _ _ hlt hgt => absurd hgt (lt_asymm hlt)) hsorted (by decide)
  subst horder
  have hok : ((P.engine 20).initialiseStages [.class ant] (Machine.initial P {})).1.toOption =
      some () := by decide +kernel
  obtain ⟨-, hstage⟩ := hinit 20
  obtain ⟨-, hfound⟩ := hstage [.class ant] _ [] m rfl (eq_ok_of_toOption hok)
  exact hfound m .refl _ (by decide) 20 location c

/-- For `initialise` it is not the order of definitions that counts. With other names for the same
two classes, the static variable of the class that is defined first does not exist when the other
one needs it. -/
theorem initialisation_misses_first_class :
    let P := pairProgram "Zoo" "Ant"
    P.model.classes.map (·.name) = ["Zoo", "Ant"] ∧
      Halt.of? ((P.engine 20).initialise (Machine.initial P {})).1 =
        some (.fatal .nameNotFound "name Zoo`x not in scope" (.onLine 2) "Ant") :=
  ⟨rfl, rfl⟩

end Animator
