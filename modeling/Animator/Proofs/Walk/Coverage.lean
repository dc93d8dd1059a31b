import Animator.Coverage
import Animator.Proofs.Effect.Visits
import Animator.Proofs.Walk.Nodes
import Mathlib.Data.String.Basic

/-!
# What the walk is good for

Coverage is gathered along the walk, and breakpoints are placed on nodes that are found on it. So
both know about everything that is evaluated, but for the nodes that the walk leaves out: whatever a
session visits is a node of the model, or was brought from outside, and if it is a node of the model
then it is on the walk or inside the index of an assignment target (`walk_lists_all_but_indices`).
Such an index is evaluated and counted like everything else, but neither coverage nor the search for
a line shows it (`index_not_on_walk`).
-/

namespace Animator

/-! ### The code of a model -/

/-- The nodes of a model, together with code from outside. -/
def Model.origin (model : Model) (outside : Origin) : Origin where
  expr e := .expr e ∈ model.nodes ∨ outside.expr e
  stmt s := .stmt s ∈ model.nodes ∨ outside.stmt s
  cells := True

namespace Model

variable (model : Model) {outside : Origin}

theorem node_origin {node : Node} :
    (model.origin outside).node node ↔ node ∈ model.nodes ∨ outside.node node := by
  cases node <;> rfl

theorem mem_nodes_of_mem_parts {p q : Node} (hp : p ∈ model.nodes) (hq : q ∈ p.parts) :
    q ∈ model.nodes := by
  obtain ⟨root, hroot, hp⟩ := List.mem_flatMap.1 hp
  exact List.mem_flatMap.2 ⟨root, hroot, Node.mem_nodes_of_mem_parts hp hq⟩

theorem closed_origin (houtside : outside.Closed) : (model.origin outside).Closed where
  expr e he p hp := by
    rcases he with he | he
    · exact .inl (model.mem_nodes_of_mem_parts he (List.mem_map_of_mem hp))
    · exact .inr (houtside.expr e he p hp)
  stmt s hs := by
    rcases hs with hs | hs
    · refine ⟨fun p hp => .inl (model.mem_nodes_of_mem_parts hs ?_),
        fun q hq => .inl (model.mem_nodes_of_mem_parts hs ?_), fun _ _ => trivial⟩
      · exact List.mem_append_left _ (List.mem_map_of_mem hp)
      · exact List.mem_append_right _ (List.mem_map_of_mem hq)
    · exact ⟨fun p hp => .inr ((houtside.stmt s hs).exprs p hp),
        fun q hq => .inr ((houtside.stmt s hs).stmts q hq), fun _ _ => trivial⟩

end Model

namespace Origin

variable {o : Origin}

theorem operation_of_roots {d : OperationDef} (h : ∀ node ∈ d.roots, o.node node) :
    o.Operation d := by
  obtain ⟨hpre, hbody⟩ := List.forall_mem_append.1 h
  refine ⟨hbody _ List.mem_cons_self, fun e he => hpre (.expr e) ?_⟩
  simp [he]

theorem thread_of_roots {d : ThreadDef} (h : ∀ node ∈ d.roots, o.node node) : o.Thread d := by
  cases d with
  | plain body => exact h _ List.mem_cons_self
  | periodic | sporadic => exact fun e he => h (.expr e) (List.mem_map_of_mem he)

theorem class_of_roots {d : ClassDef} (hdeclares : ∀ init ty, o.declares init ty)
    (h : ∀ node ∈ d.roots, o.node node) : o.Class d := by
  simp only [ClassDef.roots, List.forall_mem_append, List.forall_mem_map, List.forall_mem_flatMap,
    Option.mem_toList] at h
  obtain ⟨⟨⟨⟨⟨hinits, hvalues⟩, hfunctions⟩, hoperations⟩, hinvariants⟩, hthread⟩ := h
  exact ⟨fun op hop => operation_of_roots (hoperations op hop), hfunctions, hinits,
    fun _ _ => hdeclares _ _, hvalues, hinvariants, fun t ht => thread_of_roots (hthread t ht)⟩

end Origin

theorem Model.from_of_roots {model : Model} {o : Origin} (hdeclares : ∀ init ty, o.declares init ty)
    (h : ∀ node ∈ model.roots, o.node node) : model.From o := by
  obtain ⟨hmodules, hclasses⟩ := List.forall_mem_append.1 h
  rw [List.forall_mem_flatMap] at hmodules hclasses
  simp only [ModuleDef.roots, List.forall_mem_append, List.forall_mem_map, List.forall_mem_flatMap,
    Option.mem_toList] at hmodules
  exact ⟨fun d hd => Origin.class_of_roots hdeclares (hclasses d hd),
    fun d hd op hop => Origin.operation_of_roots ((hmodules d hd).2 op hop),
    fun d hd => (hmodules d hd).1.2, fun d hd => List.forall_mem_flatMap.2 (hmodules d hd).1.1.2,
    fun d hd => (hmodules d hd).1.1.1⟩

theorem Model.from_origin (model : Model) (outside : Origin) :
    model.From (model.origin outside) := by
  refine from_of_roots (fun _ _ => trivial) fun node hnode => model.node_origin.2 (.inl ?_)
  exact List.mem_flatMap.2 ⟨node, hnode, node.mem_nodes_self⟩

/-! ### Coverage -/

namespace CoverageEntry

/-- Two entries of one place. -/
def SamePlace (a b : CoverageEntry) : Prop :=
  a.file = b.file ∧ a.line = b.line ∧ a.column = b.column

theorem samePlace_of_compare {a b : CoverageEntry} (h : a.compare b = .eq) : a.SamePlace b := by
  simp only [compare, Ordering.then_eq_eq, compare_eq_iff_eq] at h
  exact h

/-- The place of a new entry is taken (`insertNew`), by the entry itself or by one that was there.
-/
theorem exists_mem_insertNew (e : CoverageEntry) (entries : List CoverageEntry) :
    ∃ a ∈ insertNew e entries, a.SamePlace e := by
  induction entries with
  | nil => exact ⟨e, List.mem_cons_self, rfl, rfl, rfl⟩
  | cons other rest ih =>
    unfold insertNew
    split
    · exact ⟨e, List.mem_cons_self, rfl, rfl, rfl⟩
    · next h =>
      obtain ⟨hfile, hline, hcolumn⟩ := samePlace_of_compare h
      exact ⟨other, List.mem_cons_self, hfile.symm, hline.symm, hcolumn.symm⟩
    · obtain ⟨a, ha, hplace⟩ := ih
      exact ⟨a, List.mem_cons_of_mem _ ha, hplace⟩

theorem mem_insertNew_of_mem {a e : CoverageEntry} {entries : List CoverageEntry}
    (h : a ∈ entries) : a ∈ insertNew e entries := by
  induction entries with
  | nil => cases h
  | cons other rest ih =>
    unfold insertNew
    split
    · exact List.mem_cons_of_mem _ h
    · exact h
    · rcases List.mem_cons.1 h with rfl | h
      · exact List.mem_cons_self
      · exact List.mem_cons_of_mem _ (ih h)

theorem eq_or_mem_of_mem_insertNew {a e : CoverageEntry} {entries : List CoverageEntry}
    (h : a ∈ insertNew e entries) : a = e ∨ a ∈ entries := by
  induction entries with
  | nil => exact .inl (List.mem_singleton.1 h)
  | cons other rest ih =>
    unfold insertNew at h
    split at h
    · exact List.mem_cons.1 h
    · exact .inr h
    · rcases List.mem_cons.1 h with rfl | h
      · exact .inr List.mem_cons_self
      · exact (ih h).imp_right (List.mem_cons_of_mem _)

end CoverageEntry

namespace Coverage

/-- The entries of places, one after the other. -/
def gather (hits : Hits) (places : List Location) (entries : List CoverageEntry) :
    List CoverageEntry :=
  places.foldl (fun entries l => CoverageEntry.insertNew (.ofLocation hits l) entries) entries

variable {hits : Hits} {places : List Location} {entries : List CoverageEntry}

theorem mem_gather_of_mem {a : CoverageEntry} (h : a ∈ entries) :
    a ∈ gather hits places entries := by
  induction places generalizing entries with
  | nil => exact h
  | cons l rest ih => exact ih (CoverageEntry.mem_insertNew_of_mem h)

theorem exists_of_mem_gather {a : CoverageEntry} (h : a ∈ gather hits places entries) :
    a ∈ entries ∨ ∃ l ∈ places, a = .ofLocation hits l := by
  induction places generalizing entries with
  | nil => exact .inl h
  | cons l rest ih =>
    rcases ih h with h | ⟨l', hl', rfl⟩
    · rcases CoverageEntry.eq_or_mem_of_mem_insertNew h with rfl | h
      · exact .inr ⟨l, List.mem_cons_self, rfl⟩
      · exact .inl h
    · exact .inr ⟨l', List.mem_cons_of_mem _ hl', rfl⟩

theorem exists_mem_gather (hits : Hits) (entries : List CoverageEntry) {l : Location}
    (h : l ∈ places) : ∃ a ∈ gather hits places entries, a.SamePlace (.ofLocation hits l) := by
  induction places generalizing entries with
  | nil => cases h
  | cons first rest ih =>
    rcases List.mem_cons.1 h with rfl | h
    · obtain ⟨a, ha, hplace⟩ := CoverageEntry.exists_mem_insertNew (.ofLocation hits l) entries
      have hgather : a ∈ gather hits rest (CoverageEntry.insertNew (.ofLocation hits l) entries) :=
        mem_gather_of_mem ha
      exact ⟨a, hgather, hplace⟩
    · exact ih _ h

/-- Every `executable` place on the `walk` has an entry, with the count of a node that stands there.
-/
theorem exists_mem_collect {model : Model} {node : Node} (hnode : node ∈ model.walk)
    (hexecutable : node.location.executable = true) (hits : Hits) :
    ∃ found ∈ model.walk,
      CoverageEntry.ofLocation hits found.location ∈ (collect model hits).entries ∧
        found.location.file = node.location.file ∧ found.location.line = node.location.line ∧
        found.location.span.column = node.location.span.column := by
  let places := (model.walk.map (·.location)).filter (·.executable)
  have hplace : node.location ∈ places :=
    List.mem_filter.2 ⟨List.mem_map_of_mem hnode, hexecutable⟩
  obtain ⟨a, ha, hsame⟩ := exists_mem_gather hits [] hplace
  obtain ⟨l, hl, rfl⟩ := (exists_of_mem_gather ha).resolve_left List.not_mem_nil
  obtain ⟨found, hfound, rfl⟩ := List.mem_map.1 (List.mem_filter.1 hl).1
  exact ⟨found, hfound, ha, hsame⟩

end Coverage

/-! ### Looking for lines -/

namespace Model

variable {model : Model}

/-- What is found on the line of a node: the first statement, or the first expression. -/
def lookFor (model : Model) : Node → Option Node
  | .stmt s => (model.statement? s.location.file s.location.line).map .stmt
  | .expr e => (model.expression? e.location.file e.location.line).map .expr

/-- On the line of every node that is visited, one is found. -/
theorem exists_lookFor {node : Node} (hnode : node ∈ model.walk) :
    ∃ found ∈ model.walk, model.lookFor node = some found ∧
      found.location.file = node.location.file ∧ found.location.line = node.location.line := by
  -- Statements are looked for among statements, and expressions among expressions.
  cases node with
  | stmt s =>
    have hsome : (model.statement? s.location.file s.location.line).isSome = true :=
      List.findSome?_isSome_iff.2 ⟨.stmt s, hnode, by simp⟩
    obtain ⟨t, ht⟩ := Option.isSome_iff_exists.1 hsome
    obtain ⟨found, hfound, hpick⟩ := List.exists_of_findSome?_eq_some ht
    cases found with
    | expr => cases hpick
    | stmt t' =>
      obtain ⟨hline, hsame⟩ := Option.ite_none_right_eq_some.1 hpick
      rw [Bool.and_eq_true, beq_iff_eq, beq_iff_eq] at hline
      obtain rfl := Option.some.inj hsame
      exact ⟨.stmt t', hfound, congrArg (Option.map Node.stmt) ht, hline⟩
  | expr e =>
    have hsome : (model.expression? e.location.file e.location.line).isSome = true :=
      List.findSome?_isSome_iff.2 ⟨.expr e, hnode, by simp⟩
    obtain ⟨t, ht⟩ := Option.isSome_iff_exists.1 hsome
    obtain ⟨found, hfound, hpick⟩ := List.exists_of_findSome?_eq_some ht
    cases found with
    | stmt => cases hpick
    | expr t' =>
      obtain ⟨hline, hsame⟩ := Option.ite_none_right_eq_some.1 hpick
      rw [Bool.and_eq_true, beq_iff_eq, beq_iff_eq] at hline
      obtain rfl := Option.some.inj hsame
      exact ⟨.expr t', hfound, congrArg (Option.map Node.expr) ht, hline⟩

end Model

/-! ### Visited nodes -/

/-- The `walk` lists all nodes of a model except for those inside the indices of assignment targets,
each as often as it occurs. Whatever a session visits, unless it was brought from outside, is on the
walk or inside such an index. For each node on the walk, `Coverage` has an entry at its place if the
place is executable, and looking for its line finds a node there. -/
theorem walk_lists_all_but_indices (P : Program) (outside : Origin) :
    (P.model.walk ++ P.model.hidden).Perm P.model.nodes ∧
    (∀ m : Machine, outside.Closed → P.delegates.From (P.model.origin outside) →
      m.Reachable P (P.model.origin outside) → ∀ node, .visit node ∈ m.history →
      outside.node node ∨ node ∈ P.model.walk ∨ node ∈ P.model.hidden) ∧
    ∀ node ∈ P.model.walk,
      (node.location.executable = true → ∀ hits : Hits, ∃ found ∈ P.model.walk,
        CoverageEntry.ofLocation hits found.location ∈ (Coverage.collect P.model hits).entries ∧
          found.location.file = node.location.file ∧ found.location.line = node.location.line ∧
          found.location.span.column = node.location.span.column) ∧
      ∃ found ∈ P.model.walk, P.model.lookFor node = some found ∧
        found.location.file = node.location.file ∧ found.location.line = node.location.line := by
  refine ⟨P.model.walk_perm, fun m hclosed hP hm node hvisit => ?_, fun node hnode => ?_⟩
  · have hvisits := hm.visits (P.model.closed_origin hclosed) (P.model.from_origin outside) hP
    rw [← P.model.mem_nodes_iff, Or.comm]
    exact P.model.node_origin.1 (hvisits node hvisit)
  · exact ⟨fun hexecutable hits => Coverage.exists_mem_collect hnode hexecutable hits,
      Model.exists_lookFor hnode⟩

/-- A name of the example. -/
def shelfName (text : String) : Name :=
  { module := "Shelf", text }

/-- A shelf with two books, of which the first can be replaced. The `index` stands on a line of its
own. -/
def shelfProgram : Program :=
  { model := { modules := [{
      name := "Shelf", location := .onLine 1, values := [], functions := []
      state := some { name := "S", location := .onLine 1, fields := [{
        name := shelfName "books", ty := .unknown
        init := some (.onLine 2 (.seqEnum
          [.onLine 2 (.literal (.int 1)), .onLine 2 (.literal (.int 2))])) }] }
      operations := [OperationDef.plain "Shelf" "replace" (.onLine 3 (.assign {
        target := .index (.name (shelfName "books")) (.onLine 4 (.literal (.int 1)))
        value := .onLine 5 (.literal (.int 7))
        location := .onLine 3 }))] }] } }

/-- The machine after the first book has been replaced. -/
def shelfMachine : Machine :=
  ((Entry.call "Shelf" "replace" []).run (shelfProgram.engine 20)
    ((shelfProgram.engine 20).initialise (Machine.initial shelfProgram {})).2).2

/-- A node with a given number was visited. -/
def Event.visits (id : NodeId) : Event → Bool
  | .visit node => node.id == id
  | _ => false

def Origin.empty : Origin where
  expr _ := False
  stmt _ := False
  cells := True

theorem Origin.closed_empty : Origin.empty.Closed :=
  ⟨fun _ h => h.elim, fun _ h => h.elim⟩

/-- The statement and the value are found on their lines of the `shelfProgram`. The index was
visited as well. -/
theorem walk_lists_all_but_indices_shelf :
    Origin.empty.Closed ∧
      shelfMachine.Reachable shelfProgram (shelfProgram.model.origin .empty) ∧
      (∃ node ∈ shelfProgram.model.hidden, node.id = 4 ∧ .visit node ∈ shelfMachine.history) ∧
      ∃ node ∈ shelfProgram.model.walk, node.id = 5 ∧
        (shelfProgram.model.lookFor node).isSome = true := by
  have hreachable : shelfMachine.Reachable shelfProgram (shelfProgram.model.origin .empty) :=
    .run _ 20 nofun (.create {} [] 20 (Heap.from_empty _))
  obtain ⟨-, hvisits, hwalk⟩ := walk_lists_all_but_indices shelfProgram .empty
  refine ⟨Origin.closed_empty, hreachable, ?_, ?_⟩
  · have hany : shelfMachine.history.any (Event.visits 4) = true := by decide +kernel
    have hall : ∀ node ∈ shelfProgram.model.walk, node.id ≠ 4 := by
      have hall : shelfProgram.model.walk.all (·.id != 4) = true := by decide +kernel
      simpa using hall
    obtain ⟨event, hevent, hid⟩ := List.any_eq_true.1 hany
    cases event with
    | visit node =>
      have hid : node.id = 4 := beq_iff_eq.1 hid
      rcases hvisits shelfMachine Origin.closed_empty nofun hreachable node hevent with h | h | h
      · cases node <;> exact h.elim
      · exact absurd hid (hall node h)
      · exact ⟨node, h, hid, hevent⟩
    | returned | unwound => cases hid
  · have hany : shelfProgram.model.walk.any (·.id == 5) = true := by decide +kernel
    obtain ⟨node, hnode, hid⟩ := List.any_eq_true.1 hany
    obtain ⟨-, found, -, hfound, -⟩ := hwalk node hnode
    exact ⟨node, hnode, beq_iff_eq.1 hid, Option.isSome_iff_exists.2 ⟨found, hfound⟩⟩

/-- The index of the target was visited once and its place was counted. But it is not on the `walk`:
the line is not covered, and no expression is found on it. -/
theorem index_not_on_walk :
    shelfMachine.history.countP (Event.visits 4) = 1 ∧ shelfMachine.hits.count 4 = 1 ∧
      (∀ node ∈ shelfProgram.model.walk, node.id ≠ 4) ∧
      (∀ entry ∈ (Coverage.collect shelfProgram.model shelfMachine.hits).entries, entry.line ≠ 4) ∧
      (shelfProgram.model.expression? "demo" 4).isNone = true := by
  decide +kernel

end Animator
