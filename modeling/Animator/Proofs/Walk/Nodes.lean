import Animator.Proofs.Effect.Session
import Mathlib.Algebra.Order.Group.Multiset
import Mathlib.Tactic.Abel

/-!
# Nodes of trees

The nodes of a tree are its root and, again and again, the direct parts of nodes. The walk lists
them in another order and leaves some of them out: it does not look at the targets of assignments,
so the expressions that index a target are not on it. Everything else is there, as often as it
occurs in the tree (`Model.walk_perm`).
-/

namespace Animator

/-! ### The walk by direct parts -/

section Lists

variable (es : List Expr) (ss : List Stmt)

theorem Expr.walkAll_eq : Expr.walkAll es = es.flatMap Expr.walk := by
  induction es with
  | nil => rfl
  | cons e es ih => simp [Expr.walkAll, ih]

theorem Expr.walkOption_eq (e : Option Expr) : Expr.walkOption e = e.toList.flatMap Expr.walk := by
  cases e <;> simp [Expr.walkOption]

theorem Expr.walkFields_eq (fields : List (String × Expr)) :
    Expr.walkFields fields = (fields.map (·.2)).flatMap Expr.walk := by
  induction fields with
  | nil => rfl
  | cons field fields ih => simp [Expr.walkFields, ih]

theorem Bind.walk_eq (b : Bind) : b.walk = b.exprs.flatMap Expr.walk := by
  cases b <;> simp [Bind.walk, Bind.exprs]

theorem Bind.walkAll_eq (bs : List Bind) :
    Bind.walkAll bs = (bs.flatMap (·.exprs)).flatMap Expr.walk := by
  induction bs with
  | nil => rfl
  | cons b bs ih => simp [Bind.walkAll, Bind.walk_eq, ih]

theorem FunctionDef.walk_eq (d : FunctionDef) : d.walk = d.exprs.flatMap Expr.walk := by
  obtain ⟨name, params, paramTypes, result, body, pre, location⟩ := d
  simp [FunctionDef.walk, FunctionDef.exprs, Expr.walkOption_eq]

theorem Definition.walk_eq (d : Definition) : d.walk = d.exprs.flatMap Expr.walk := by
  obtain ⟨location, kind⟩ := d
  cases kind <;>
    simp [Definition.walk, DefinitionKind.walk, Definition.exprs, FunctionDef.walk_eq]

theorem Definition.walkAll_eq (ds : List Definition) :
    Definition.walkAll ds = (ds.flatMap (·.exprs)).flatMap Expr.walk := by
  induction ds with
  | nil => rfl
  | cons d ds ih => simp [Definition.walkAll, Definition.walk_eq, ih]

theorem PatternBind.walk_eq (b : PatternBind) : b.walk = b.exprs.flatMap Expr.walk := by
  cases b <;> simp [PatternBind.walk, PatternBind.exprs, Bind.walk_eq]

theorem Stmt.walkAll_eq : Stmt.walkAll ss = ss.flatMap Stmt.walk := by
  induction ss with
  | nil => rfl
  | cons s ss ih => simp [Stmt.walkAll, ih]

theorem Stmt.walkOption_eq (s : Option Stmt) : Stmt.walkOption s = s.toList.flatMap Stmt.walk := by
  cases s <;> simp [Stmt.walkOption]

theorem CaseAlternative.walkAll_eq (as : List CaseAlternative) :
    CaseAlternative.walkAll as = (as.map (·.body)).flatMap Stmt.walk := by
  induction as with
  | nil => rfl
  | cons a as ih =>
    obtain ⟨patterns, body⟩ := a
    simp [CaseAlternative.walkAll, ih]

end Lists

theorem ExprKind.walk_eq (kind : ExprKind) : kind.walk = kind.exprs.flatMap Expr.walk := by
  cases kind <;>
    simp [ExprKind.walk, ExprKind.exprs, Expr.walkAll_eq, Expr.walkFields_eq, Bind.walkAll_eq,
      Definition.walkAll_eq]

theorem Expr.walk_eq (e : Expr) : e.walk = .expr e :: e.kind.exprs.flatMap Expr.walk := by
  rw [← ExprKind.walk_eq]
  cases e
  rfl

/-- The expressions that index the targets of a statement. -/
def StmtKind.indices : StmtKind → List Expr
  | .assign a => a.target.indices
  | .atomic as => as.flatMap (·.target.indices)
  | _ => []

/-- The expressions directly inside a statement that index no target. -/
def StmtKind.operands : StmtKind → List Expr
  | .assign a => [a.value]
  | .atomic as => as.map (·.value)
  | kind => kind.exprs

theorem StmtKind.exprs_perm (kind : StmtKind) :
    kind.exprs.Perm (kind.operands ++ kind.indices) := by
  cases kind with
  | assign a => exact .refl _
  | atomic as =>
    induction as with
    | nil => exact .nil
    | cons a rest ih =>
      simp only [StmtKind.exprs, StmtKind.operands, StmtKind.indices, Assignment.exprs,
        List.flatMap_cons, List.map_cons, List.cons_append] at ih ⊢
      refine .cons _ (((List.perm_append_left_iff _).2 ih).trans ?_)
      rw [← List.append_assoc, ← List.append_assoc]
      exact List.perm_append_comm.append_right _
  | _ => simp [StmtKind.operands, StmtKind.indices]

theorem Stmt.walkBranches_eq (branches : List (Expr × Stmt)) :
    (Stmt.walkBranches branches : Multiset Node) =
      ((branches.map (·.1)).flatMap Expr.walk : List Node) +
        ((branches.map (·.2)).flatMap Stmt.walk : List Node) := by
  induction branches with
  | nil => rfl
  | cons branch rest ih =>
    obtain ⟨c, s⟩ := branch
    simp only [Stmt.walkBranches, List.map_cons, List.flatMap_cons, ← Multiset.coe_add, ih]
    abel

theorem TixeAlternative.walkAll_eq (as : List TixeAlternative) :
    (TixeAlternative.walkAll as : Multiset Node) =
      ((as.flatMap (·.bind.exprs)).flatMap Expr.walk : List Node) +
        ((as.map (·.handler)).flatMap Stmt.walk : List Node) := by
  induction as with
  | nil => rfl
  | cons a rest ih =>
    obtain ⟨bind, handler⟩ := a
    simp only [TixeAlternative.walkAll, PatternBind.walk_eq, List.map_cons, List.flatMap_cons,
      List.flatMap_append, ← Multiset.coe_add, ih]
    abel

/-- Inside a statement the `walk` goes through the direct parts, apart from the indices. -/
theorem StmtKind.walk_eq (kind : StmtKind) :
    (kind.walk : Multiset Node) =
      (kind.operands.flatMap Expr.walk : List Node) +
        (kind.stmts.flatMap Stmt.walk : List Node) := by
  cases kind with
  | cond condition thenBranch elseifs elseBranch =>
    simp only [StmtKind.walk, StmtKind.operands, StmtKind.exprs, StmtKind.stmts,
      Stmt.walkBranches_eq, Stmt.walkOption_eq, List.flatMap_cons, List.flatMap_append,
      ← Multiset.coe_add]
    abel
  | always cleanup body =>
    simp only [StmtKind.walk, StmtKind.operands, StmtKind.exprs, StmtKind.stmts,
      List.flatMap_cons, List.flatMap_nil, ← Multiset.coe_add]
    abel
  | trap bind handler body =>
    simp only [StmtKind.walk, StmtKind.operands, StmtKind.exprs, StmtKind.stmts,
      PatternBind.walk_eq, List.flatMap_cons, List.flatMap_nil, ← Multiset.coe_add]
    abel
  | tixe alternatives body =>
    simp only [StmtKind.walk, StmtKind.operands, StmtKind.exprs, StmtKind.stmts,
      TixeAlternative.walkAll_eq, List.flatMap_cons, List.flatMap_append, List.flatMap_nil,
      ← Multiset.coe_add]
    abel
  | _ =>
    -- All other statements list the expressions before the statements, as the walk does.
    refine congrArg Multiset.ofList ?_
    simp [StmtKind.walk, StmtKind.operands, StmtKind.exprs, StmtKind.stmts, Expr.walkAll_eq,
      Expr.walkOption_eq, Bind.walkAll_eq, Definition.walkAll_eq, PatternBind.walk_eq,
      Stmt.walkAll_eq, Stmt.walkOption_eq, CaseAlternative.walkAll_eq, List.flatMap_assoc,
      List.flatMap_map]

theorem Stmt.walk_eq (s : Stmt) : s.walk = .stmt s :: s.kind.walk := by
  cases s
  rfl

/-! ### All nodes -/

theorem length_le_flatMap {α : Type} {f : α → List Node} {parts : List α} {a : α} (h : a ∈ parts) :
    (f a).length ≤ (parts.flatMap f).length :=
  (List.sublist_flatten_of_mem (List.mem_map_of_mem h)).length_le

theorem Expr.length_walk_lt {e p : Expr} (h : p ∈ e.kind.exprs) :
    p.walk.length < e.walk.length := by
  have hpart := length_le_flatMap (f := Expr.walk) h
  rw [e.walk_eq, List.length_cons]
  omega

theorem Stmt.length_walk_lt {s q : Stmt} (h : q ∈ s.kind.stmts) :
    q.walk.length < s.walk.length := by
  have hpart := length_le_flatMap (f := Stmt.walk) h
  have hlength := congrArg Multiset.card s.kind.walk_eq
  simp only [Multiset.card_add, Multiset.coe_card] at hlength
  rw [s.walk_eq, List.length_cons]
  omega

/-- All nodes of an expression: itself, and those of its direct parts. -/
def Expr.nodes (e : Expr) : List Node :=
  .expr e :: e.kind.exprs.attach.flatMap fun p => Expr.nodes p.1
termination_by e.walk.length
decreasing_by exact Expr.length_walk_lt p.2

/-- All nodes of a statement: itself, and those of its direct parts. -/
def Stmt.nodes (s : Stmt) : List Node :=
  .stmt s :: (s.kind.exprs.flatMap Expr.nodes ++ s.kind.stmts.attach.flatMap fun q =>
    Stmt.nodes q.1)
termination_by s.walk.length
decreasing_by exact Stmt.length_walk_lt q.2

/-- The nodes inside the `indices` of assignment targets. -/
def Stmt.hidden (s : Stmt) : List Node :=
  s.kind.indices.flatMap Expr.nodes ++ s.kind.stmts.attach.flatMap fun q => Stmt.hidden q.1
termination_by s.walk.length
decreasing_by exact Stmt.length_walk_lt q.2

theorem flatMap_attach {α : Type} (parts : List α) (f : α → List Node) :
    (parts.attach.flatMap fun p => f p.1) = parts.flatMap f := by
  rw [List.flatMap_subtype (g := f) fun _ _ => rfl, List.unattach_attach]

theorem Expr.nodes_eq (e : Expr) : e.nodes = .expr e :: e.kind.exprs.flatMap Expr.nodes := by
  rw [Expr.nodes, flatMap_attach]

theorem Stmt.nodes_eq (s : Stmt) :
    s.nodes = .stmt s :: (s.kind.exprs.flatMap Expr.nodes ++ s.kind.stmts.flatMap Stmt.nodes) := by
  rw [Stmt.nodes, flatMap_attach]

theorem Stmt.hidden_eq (s : Stmt) :
    s.hidden = s.kind.indices.flatMap Expr.nodes ++ s.kind.stmts.flatMap Stmt.hidden := by
  rw [Stmt.hidden, flatMap_attach]

/-- What holds of an expression whenever it holds of its parts holds of all expressions. -/
theorem Expr.induction_on_parts {motive : Expr → Prop}
    (h : ∀ e, (∀ p ∈ e.kind.exprs, motive p) → motive e) (e : Expr) : motive e :=
  h e fun p _ => induction_on_parts h p
termination_by e.walk.length
decreasing_by exact Expr.length_walk_lt ‹_›

/-- What holds of a statement whenever it holds of its parts holds of all statements. -/
theorem Stmt.induction_on_parts {motive : Stmt → Prop}
    (h : ∀ s, (∀ q ∈ s.kind.stmts, motive q) → motive s) (s : Stmt) : motive s :=
  h s fun q _ => induction_on_parts h q
termination_by s.walk.length
decreasing_by exact Stmt.length_walk_lt ‹_›

theorem Expr.walk_eq_nodes (e : Expr) : e.walk = e.nodes := by
  induction e using Expr.induction_on_parts with
  | h e ih =>
    rw [Expr.walk_eq, Expr.nodes_eq]
    exact congrArg _ (List.flatMap_congr ih)

theorem flatMap_perm {α : Type} {parts : List α} {f g h : α → List Node}
    (hparts : ∀ a ∈ parts, (f a ++ g a).Perm (h a)) :
    (parts.flatMap f ++ parts.flatMap g).Perm (parts.flatMap h) :=
  (List.flatMap_append_perm parts f g).trans (List.Perm.flatMap_left parts hparts)

/-- The `walk` of a statement leaves out the indices of assignment targets. -/
theorem Stmt.walk_perm (s : Stmt) : (s.walk ++ s.hidden).Perm s.nodes := by
  induction s using Stmt.induction_on_parts with
  | h s ih =>
    have hstmts := Multiset.coe_eq_coe.2 (flatMap_perm ih)
    have hexprs := Multiset.coe_eq_coe.2 (s.kind.exprs_perm.flatMap_right Expr.nodes)
    have hoperands : s.kind.operands.flatMap Expr.walk = s.kind.operands.flatMap Expr.nodes :=
      List.flatMap_congr fun e _ => e.walk_eq_nodes
    rw [List.flatMap_append] at hexprs
    rw [Stmt.walk_eq, Stmt.nodes_eq, Stmt.hidden_eq, List.cons_append]
    refine .cons _ (Multiset.coe_eq_coe.1 ?_)
    simp only [← Multiset.coe_add] at hstmts hexprs ⊢
    rw [StmtKind.walk_eq, hoperands, ← hstmts, hexprs]
    abel

/-! ### Nodes of models -/

namespace Node

/-- The nodes of a tree on its `walk`. -/
def walk : Node → List Node
  | .stmt s => s.walk
  | .expr e => e.walk

/-- All nodes of a tree. -/
def nodes : Node → List Node
  | .stmt s => s.nodes
  | .expr e => e.nodes

/-- The nodes inside the indices of assignment targets. -/
def hidden : Node → List Node
  | .stmt s => s.hidden
  | .expr _ => []

theorem walk_perm (n : Node) : (n.walk ++ n.hidden).Perm n.nodes := by
  cases n with
  | stmt s => exact s.walk_perm
  | expr e => simp [walk, hidden, nodes, e.walk_eq_nodes]

theorem mem_nodes_self (n : Node) : n ∈ n.nodes := by
  cases n with
  | stmt s =>
    rw [nodes, Stmt.nodes_eq]
    exact List.mem_cons_self
  | expr e =>
    rw [nodes, Expr.nodes_eq]
    exact List.mem_cons_self

/-- The direct parts of a node. -/
def parts : Node → List Node
  | .stmt s => s.kind.exprs.map .expr ++ s.kind.stmts.map .stmt
  | .expr e => e.kind.exprs.map .expr

theorem nodes_eq (n : Node) : n.nodes = n :: n.parts.flatMap nodes := by
  have hexprs : ∀ es : List Expr, (es.map Node.expr).flatMap nodes = es.flatMap Expr.nodes := by
    intro es
    simp [List.flatMap_map, nodes]
  have hstmts : ∀ ss : List Stmt, (ss.map Node.stmt).flatMap nodes = ss.flatMap Stmt.nodes := by
    intro ss
    simp [List.flatMap_map, nodes]
  cases n with
  | stmt s => rw [parts, List.flatMap_append, hexprs, hstmts, nodes, Stmt.nodes_eq]
  | expr e => rw [parts, hexprs, nodes, Expr.nodes_eq]

theorem mem_nodes_of_mem_parts {n p q : Node} (hp : p ∈ n.nodes) (hq : q ∈ p.parts) :
    q ∈ n.nodes := by
  -- Inside one of the parts, or the tree itself.
  rw [nodes_eq, List.mem_cons] at hp ⊢
  rcases hp with rfl | hp
  · exact .inr (List.mem_flatMap.2 ⟨q, hq, q.mem_nodes_self⟩)
  · obtain ⟨r, hr, hp⟩ := List.mem_flatMap.1 hp
    exact .inr (List.mem_flatMap.2 ⟨r, hr, mem_nodes_of_mem_parts hp hq⟩)
termination_by n.nodes.length
decreasing_by
  have hpart := length_le_flatMap (f := nodes) hr
  rw [nodes_eq n, List.length_cons]
  omega

end Node

/-- The precondition and the body of an operation. -/
def OperationDef.roots (d : OperationDef) : List Node :=
  d.pre.toList.map .expr ++ [.stmt d.body]

/-- The statement or the times of a thread. -/
def ThreadDef.roots : ThreadDef → List Node
  | .plain body => [.stmt body]
  | .periodic period jitter delay offset _ => [period, jitter, delay, offset].map .expr
  | .sporadic minDelay maxDelay offset _ => [minDelay, maxDelay, offset].map .expr

/-- The nodes of a module that are not inside others. -/
def ModuleDef.roots (d : ModuleDef) : List Node :=
  (d.state.toList.flatMap fun s => s.fields.flatMap (·.init.toList)).map .expr ++
    (d.values.flatMap (·.exprs)).map .expr ++ (d.functions.flatMap (·.exprs)).map .expr ++
    d.operations.flatMap OperationDef.roots

/-- The nodes of a class that are not inside others. -/
def ClassDef.roots (d : ClassDef) : List Node :=
  (d.instanceVars.flatMap (·.init.toList)).map .expr ++ (d.values.flatMap (·.exprs)).map .expr ++
    (d.functions.flatMap (·.exprs)).map .expr ++ d.operations.flatMap OperationDef.roots ++
    d.invariants.map .expr ++ d.thread.toList.flatMap ThreadDef.roots

namespace Model

variable (model : Model)

/-- The nodes of a model that are not inside others. -/
def roots : List Node :=
  model.modules.flatMap ModuleDef.roots ++ model.classes.flatMap ClassDef.roots

/-- All nodes of a model. -/
def nodes : List Node :=
  model.roots.flatMap Node.nodes

/-- The nodes inside the indices of assignment targets. -/
def hidden : List Node :=
  model.roots.flatMap Node.hidden

/-- The walk over a model visits its `roots` one after the other. -/
theorem walk_eq : model.walk = model.roots.flatMap Node.walk := by
  have hexprs : ∀ es : List Expr, (es.map Node.expr).flatMap Node.walk = es.flatMap Expr.walk := by
    intro es
    simp [List.flatMap_map, Node.walk]
  have hfunction : FunctionDef.walk = fun d => d.exprs.flatMap Expr.walk :=
    funext FunctionDef.walk_eq
  have hoperation : OperationDef.walk = fun d => d.roots.flatMap Node.walk := by
    funext d
    simp [OperationDef.walk, OperationDef.roots, Expr.walkOption_eq, hexprs, Node.walk]
  have hthread : ThreadDef.walk = fun d => d.roots.flatMap Node.walk := by
    funext d
    cases d <;> simp [ThreadDef.walk, ThreadDef.roots, Expr.walkAll_eq, Node.walk]
  have hmodule : ModuleDef.walk = fun d => d.roots.flatMap Node.walk := by
    funext d
    simp [ModuleDef.walk, ModuleDef.roots, hexprs, hoperation, Definition.walkAll_eq,
      Expr.walkOption_eq, hfunction, List.flatMap_assoc]
  have hclass : ClassDef.walk = fun d => d.roots.flatMap Node.walk := by
    funext d
    simp [ClassDef.walk, ClassDef.roots, hexprs, hoperation, hthread, Definition.walkAll_eq,
      Expr.walkOption_eq, Expr.walkAll_eq, hfunction, List.flatMap_assoc]
  rw [walk, roots, hmodule, hclass, List.flatMap_append, List.flatMap_assoc, List.flatMap_assoc]

/-- The `walk` of a model leaves out the indices of assignment targets, and lists everything else as
often as it occurs. -/
theorem walk_perm : (model.walk ++ model.hidden).Perm model.nodes := by
  rw [walk_eq]
  exact flatMap_perm fun n _ => n.walk_perm

theorem mem_nodes_iff {node : Node} :
    node ∈ model.nodes ↔ node ∈ model.walk ∨ node ∈ model.hidden := by
  rw [← model.walk_perm.mem_iff, List.mem_append]

end Model

end Animator
