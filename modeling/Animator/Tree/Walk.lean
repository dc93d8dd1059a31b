import Animator.Tree.Model

/-!
# Walking trees

`Model.walk` lists the statement and expression nodes of a model in definition order, each node
before the nodes inside it. Breakpoints are placed and coverage is gathered along this list.
-/

namespace Animator

/-- A statement or expression met on a walk. -/
inductive Node where
  | stmt (s : Stmt)
  | expr (e : Expr)

namespace Node

def id : Node → NodeId
  | .stmt s => s.id
  | .expr e => e.id

def location : Node → Location
  | .stmt s => s.location
  | .expr e => e.location

end Node

mutual

/-- The nodes of an expression, itself first. -/
def Expr.walk : Expr → List Node
  | ⟨id, location, kind⟩ => .expr ⟨id, location, kind⟩ :: kind.walk

def ExprKind.walk : ExprKind → List Node
  | .literal _ | .name _ | .selfRef | .time => []
  | .field object _ => object.walk
  | .apply root args => root.walk ++ Expr.walkAll args
  | .unary _ operand => operand.walk
  | .binary left _ right => left.walk ++ right.walk
  | .cond condition thenBranch elseBranch => condition.walk ++ thenBranch.walk ++ elseBranch.walk
  | .letIn defs body => Definition.walkAll defs ++ body.walk
  | .setEnum items => Expr.walkAll items
  | .setRange low high => low.walk ++ high.walk
  | .seqEnum items => Expr.walkAll items
  | .tuple items => Expr.walkAll items
  | .mkRecord _ fields => Expr.walkFields fields
  | .new _ args => Expr.walkAll args
  | .existsIn binds predicate => Bind.walkAll binds ++ predicate.walk
  | .forAll binds predicate => Bind.walkAll binds ++ predicate.walk

def Expr.walkAll : List Expr → List Node
  | [] => []
  | e :: es => e.walk ++ Expr.walkAll es

def Expr.walkOption : Option Expr → List Node
  | some e => e.walk
  | none => []

def Expr.walkFields : List (String × Expr) → List Node
  | [] => []
  | (_, e) :: rest => e.walk ++ Expr.walkFields rest

def Bind.walk : Bind → List Node
  | .set _ set => set.walk
  | .seq _ seq => seq.walk
  | .type _ _ => []

def Bind.walkAll : List Bind → List Node
  | [] => []
  | b :: bs => b.walk ++ Bind.walkAll bs

def Definition.walk : Definition → List Node
  | ⟨_, kind⟩ => kind.walk

def DefinitionKind.walk : DefinitionKind → List Node
  | .value _ _ expr => expr.walk
  | .function func => func.walk

def Definition.walkAll : List Definition → List Node
  | [] => []
  | d :: ds => d.walk ++ Definition.walkAll ds

/-- The nodes of a function, those of the precondition first. -/
def FunctionDef.walk : FunctionDef → List Node
  | ⟨_, _, _, _, body, pre, _⟩ => Expr.walkOption pre ++ body.walk

end

def PatternBind.walk : PatternBind → List Node
  | .pattern _ => []
  | .bind b => b.walk

mutual

/-- The nodes of a statement, itself first. -/
def Stmt.walk : Stmt → List Node
  | ⟨id, location, kind⟩ => .stmt ⟨id, location, kind⟩ :: kind.walk

def StmtKind.walk : StmtKind → List Node
  | .assign a => a.value.walk
  | .atomic as => as.flatMap (·.value.walk)
  | .block dcls body => dcls.flatMap (Expr.walkOption ·.init) ++ Stmt.walkAll body
  | .letIn defs body => Definition.walkAll defs ++ body.walk
  | .defIn defs body => Definition.walkAll defs ++ body.walk
  | .letBeSt binds predicate body => Bind.walkAll binds ++ Expr.walkOption predicate ++ body.walk
  | .cond condition thenBranch elseifs elseBranch =>
    condition.walk ++ thenBranch.walk ++ Stmt.walkBranches elseifs ++ Stmt.walkOption elseBranch
  | .cases selector alternatives others =>
    selector.walk ++ CaseAlternative.walkAll alternatives ++ Stmt.walkOption others
  | .forIndex _ start stop step body =>
    start.walk ++ stop.walk ++ Expr.walkOption step ++ body.walk
  | .forAll _ set body => set.walk ++ body.walk
  | .forPattern bind seq _ body => bind.walk ++ seq.walk ++ body.walk
  | .while condition body => condition.walk ++ body.walk
  | .call _ args => Expr.walkAll args
  | .callObject designator _ args => designator.walk ++ Expr.walkAll args
  | .start e => e.walk
  | .startList e => e.walk
  | .stop e => e.walk
  | .stopList e => e.walk
  | .cycles amount body => amount.walk ++ body.walk
  | .duration amount body => amount.walk ++ body.walk
  | .always cleanup body => body.walk ++ cleanup.walk
  | .trap bind handler body => bind.walk ++ body.walk ++ handler.walk
  | .tixe alternatives body => body.walk ++ TixeAlternative.walkAll alternatives
  | .exit value => Expr.walkOption value
  | .return value => Expr.walkOption value
  | .classInvariant clauses => Expr.walkAll clauses
  | .notYetSpecified => []
  | .skip => []

def Stmt.walkAll : List Stmt → List Node
  | [] => []
  | s :: ss => s.walk ++ Stmt.walkAll ss

def Stmt.walkOption : Option Stmt → List Node
  | some s => s.walk
  | none => []

def Stmt.walkBranches : List (Expr × Stmt) → List Node
  | [] => []
  | (c, s) :: rest => c.walk ++ s.walk ++ Stmt.walkBranches rest

def CaseAlternative.walkAll : List CaseAlternative → List Node
  | [] => []
  | ⟨_, body⟩ :: rest => body.walk ++ CaseAlternative.walkAll rest

def TixeAlternative.walkAll : List TixeAlternative → List Node
  | [] => []
  | ⟨bind, handler⟩ :: rest => bind.walk ++ handler.walk ++ TixeAlternative.walkAll rest

end

/-- The nodes of an operation, those of the precondition first. -/
def OperationDef.walk (d : OperationDef) : List Node :=
  Expr.walkOption d.pre ++ d.body.walk

def ThreadDef.walk : ThreadDef → List Node
  | .plain body => body.walk
  | .periodic period jitter delay offset _ => Expr.walkAll [period, jitter, delay, offset]
  | .sporadic minDelay maxDelay offset _ => Expr.walkAll [minDelay, maxDelay, offset]

def ModuleDef.walk (m : ModuleDef) : List Node :=
  (m.state.toList.flatMap fun s => s.fields.flatMap (Expr.walkOption ·.init)) ++
    Definition.walkAll m.values ++ m.functions.flatMap FunctionDef.walk ++
    m.operations.flatMap OperationDef.walk

def ClassDef.walk (c : ClassDef) : List Node :=
  c.instanceVars.flatMap (Expr.walkOption ·.init) ++ Definition.walkAll c.values ++
    c.functions.flatMap FunctionDef.walk ++ c.operations.flatMap OperationDef.walk ++
    Expr.walkAll c.invariants ++ c.thread.toList.flatMap ThreadDef.walk

namespace Model

/-- All nodes of a model. -/
def walk (m : Model) : List Node :=
  m.modules.flatMap ModuleDef.walk ++ m.classes.flatMap ClassDef.walk

/-- The first statement that starts on a line of a `file`. -/
def statement? (m : Model) (file : String) (line : Nat) : Option Stmt :=
  m.walk.findSome? fun
    | .stmt s => if s.location.file == file && s.location.line == line then some s else none
    | .expr _ => none

/-- The first expression that starts on a line of a `file`. -/
def expression? (m : Model) (file : String) (line : Nat) : Option Expr :=
  m.walk.findSome? fun
    | .expr e => if e.location.file == file && e.location.line == line then some e else none
    | .stmt _ => none

end Model

end Animator
