import Animator.Tree.Model
import Animator.Word

/-!
# Traversals of trees

The places, node numbers and constants of a tree are its leaves: all else is fixed once they are
given. `Tree.traverse` goes through the leaves in the order in which they stand in a document. What
it computes depends on what is done at the leaves and on how results are put together:
-/

namespace Animator

/-- What is done at the leaves of a tree. -/
structure Visitor (M : Type → Type) where
  location : Location → M Location
  node : NodeId → M NodeId
  literal : Literal → M Literal

section Traverse

variable {M : Type → Type} [Applicative M] (v : Visitor M)

def traverseList {α : Type} (f : α → M α) : List α → M (List α)
  | [] => pure []
  | a :: as => List.cons <$> f a <*> traverseList f as

def traverseOption {α : Type} (f : α → M α) : Option α → M (Option α)
  | none => pure none
  | some a => some <$> f a

mutual

def Pattern.traverse : Pattern → M Pattern
  | ⟨location, kind⟩ => Pattern.mk <$> v.location location <*> kind.traverse

def PatternKind.traverse : PatternKind → M PatternKind
  | .ident name => .ident <$> pure name
  | .ignore => pure .ignore
  | .literal value => .literal <$> v.literal value
  | .tuple items => .tuple <$> Pattern.traverseAll items
  | .record tag fields => .record <$> pure tag <*> Pattern.traverseAll fields
  | .seq items => .seq <$> Pattern.traverseAll items

def Pattern.traverseAll : List Pattern → M (List Pattern)
  | [] => pure []
  | p :: ps => List.cons <$> p.traverse <*> Pattern.traverseAll ps

end

mutual

def Expr.traverse : Expr → M Expr
  | ⟨id, location, kind⟩ => Expr.mk <$> v.node id <*> v.location location <*> kind.traverse

def ExprKind.traverse : ExprKind → M ExprKind
  | .literal value => .literal <$> v.literal value
  | .name name => .name <$> pure name
  | .selfRef => pure .selfRef
  | .time => pure .time
  | .field object field => .field <$> object.traverse <*> pure field
  | .apply root args => .apply <$> root.traverse <*> Expr.traverseAll args
  | .unary op operand => .unary <$> pure op <*> operand.traverse
  | .binary left op right => .binary <$> left.traverse <*> pure op <*> right.traverse
  | .cond condition thenBranch elseBranch =>
    .cond <$> condition.traverse <*> thenBranch.traverse <*> elseBranch.traverse
  | .letIn defs body => .letIn <$> Definition.traverseAll defs <*> body.traverse
  | .setEnum items => .setEnum <$> Expr.traverseAll items
  | .setRange low high => .setRange <$> low.traverse <*> high.traverse
  | .seqEnum items => .seqEnum <$> Expr.traverseAll items
  | .tuple items => .tuple <$> Expr.traverseAll items
  | .mkRecord tag fields => .mkRecord <$> pure tag <*> Expr.traverseFields fields
  | .new className args => .new <$> pure className <*> Expr.traverseAll args
  | .existsIn binds predicate => .existsIn <$> Bind.traverseAll binds <*> predicate.traverse
  | .forAll binds predicate => .forAll <$> Bind.traverseAll binds <*> predicate.traverse

def Expr.traverseAll : List Expr → M (List Expr)
  | [] => pure []
  | e :: es => List.cons <$> e.traverse <*> Expr.traverseAll es

def Expr.traverseFields : List (String × Expr) → M (List (String × Expr))
  | [] => pure []
  | (name, e) :: rest =>
    List.cons <$> (Prod.mk <$> pure name <*> e.traverse) <*> Expr.traverseFields rest

def Expr.traverseOption : Option Expr → M (Option Expr)
  | none => pure none
  | some e => some <$> e.traverse

def Bind.traverse : Bind → M Bind
  | .set pattern set => .set <$> pattern.traverse v <*> set.traverse
  | .seq pattern seq => .seq <$> pattern.traverse v <*> seq.traverse
  | .type pattern ty => .type <$> pattern.traverse v <*> pure ty

def Bind.traverseAll : List Bind → M (List Bind)
  | [] => pure []
  | b :: bs => List.cons <$> b.traverse <*> Bind.traverseAll bs

def Definition.traverse : Definition → M Definition
  | ⟨location, kind⟩ => Definition.mk <$> v.location location <*> kind.traverse

def DefinitionKind.traverse : DefinitionKind → M DefinitionKind
  | .value pattern ty expr =>
    .value <$> pattern.traverse v <*> traverseOption pure ty <*> expr.traverse
  | .function func => .function <$> func.traverse

def Definition.traverseAll : List Definition → M (List Definition)
  | [] => pure []
  | d :: ds => List.cons <$> d.traverse <*> Definition.traverseAll ds

def FunctionDef.traverse : FunctionDef → M FunctionDef
  | ⟨name, params, paramTypes, result, body, pre, location⟩ =>
    FunctionDef.mk <$> pure name <*> Pattern.traverseAll v params <*>
      traverseList pure paramTypes <*>
      pure result <*> body.traverse <*> Expr.traverseOption pre <*> v.location location

end

def PatternBind.traverse : PatternBind → M PatternBind
  | .pattern p => .pattern <$> p.traverse v
  | .bind b => .bind <$> b.traverse v

def Designator.traverse : Designator → M Designator
  | .name n => .name <$> pure n
  | .field d member => .field <$> d.traverse <*> pure member
  | .index d e => .index <$> d.traverse <*> e.traverse v

def Assignment.traverse : Assignment → M Assignment
  | ⟨target, value, location⟩ =>
    Assignment.mk <$> target.traverse v <*> value.traverse v <*> v.location location

def Declaration.traverse : Declaration → M Declaration
  | ⟨name, ty, init, location⟩ =>
    Declaration.mk <$> pure name <*> pure ty <*> traverseOption (Expr.traverse v) init <*>
      v.location location

mutual

def Stmt.traverse : Stmt → M Stmt
  | ⟨id, location, kind⟩ => Stmt.mk <$> v.node id <*> v.location location <*> kind.traverse

def StmtKind.traverse : StmtKind → M StmtKind
  | .assign assignment => .assign <$> assignment.traverse v
  | .atomic assignments => .atomic <$> traverseList (Assignment.traverse v) assignments
  | .block dcls body =>
    .block <$> traverseList (Declaration.traverse v) dcls <*> Stmt.traverseAll body
  | .letIn defs body => .letIn <$> Definition.traverseAll v defs <*> body.traverse
  | .defIn defs body => .defIn <$> Definition.traverseAll v defs <*> body.traverse
  | .letBeSt binds predicate body =>
    .letBeSt <$> Bind.traverseAll v binds <*> traverseOption (Expr.traverse v) predicate <*>
      body.traverse
  | .cond condition thenBranch elseifs elseBranch =>
    .cond <$> condition.traverse v <*> thenBranch.traverse <*> Stmt.traverseBranches elseifs <*>
      Stmt.traverseOption elseBranch
  | .cases selector alternatives others =>
    .cases <$> selector.traverse v <*> CaseAlternative.traverseAll alternatives <*>
      Stmt.traverseOption others
  | .forIndex var start stop step body =>
    .forIndex <$> pure var <*> start.traverse v <*> stop.traverse v <*>
      traverseOption (Expr.traverse v) step <*> body.traverse
  | .forAll pattern set body =>
    .forAll <$> pattern.traverse v <*> set.traverse v <*> body.traverse
  | .forPattern bind seq reverse body =>
    .forPattern <$> bind.traverse v <*> seq.traverse v <*> pure reverse <*> body.traverse
  | .while condition body => .while <$> condition.traverse v <*> body.traverse
  | .call name args => .call <$> pure name <*> Expr.traverseAll v args
  | .callObject designator field args =>
    .callObject <$> designator.traverse v <*> pure field <*> Expr.traverseAll v args
  | .start object => .start <$> object.traverse v
  | .startList objects => .startList <$> objects.traverse v
  | .stop object => .stop <$> object.traverse v
  | .stopList objects => .stopList <$> objects.traverse v
  | .cycles amount body => .cycles <$> amount.traverse v <*> body.traverse
  | .duration amount body => .duration <$> amount.traverse v <*> body.traverse
  | .always cleanup body => .always <$> cleanup.traverse <*> body.traverse
  | .trap bind handler body => .trap <$> bind.traverse v <*> handler.traverse <*> body.traverse
  | .tixe alternatives body =>
    .tixe <$> TixeAlternative.traverseAll alternatives <*> body.traverse
  | .exit value => .exit <$> traverseOption (Expr.traverse v) value
  | .return value => .return <$> traverseOption (Expr.traverse v) value
  | .classInvariant clauses => .classInvariant <$> Expr.traverseAll v clauses
  | .notYetSpecified => pure .notYetSpecified
  | .skip => pure .skip

def Stmt.traverseAll : List Stmt → M (List Stmt)
  | [] => pure []
  | s :: ss => List.cons <$> s.traverse <*> Stmt.traverseAll ss

def Stmt.traverseOption : Option Stmt → M (Option Stmt)
  | none => pure none
  | some s => some <$> s.traverse

def Stmt.traverseBranches : List (Expr × Stmt) → M (List (Expr × Stmt))
  | [] => pure []
  | (c, s) :: rest =>
    List.cons <$> (Prod.mk <$> c.traverse v <*> s.traverse) <*> Stmt.traverseBranches rest

def CaseAlternative.traverseAll : List CaseAlternative → M (List CaseAlternative)
  | [] => pure []
  | ⟨patterns, body⟩ :: rest =>
    List.cons <$> (CaseAlternative.mk <$> Pattern.traverseAll v patterns <*> body.traverse) <*>
      CaseAlternative.traverseAll rest

def TixeAlternative.traverseAll : List TixeAlternative → M (List TixeAlternative)
  | [] => pure []
  | ⟨bind, handler⟩ :: rest =>
    List.cons <$> (TixeAlternative.mk <$> bind.traverse v <*> handler.traverse) <*>
      TixeAlternative.traverseAll rest

end

def CaseAlternative.traverse : CaseAlternative → M CaseAlternative
  | ⟨patterns, body⟩ =>
    CaseAlternative.mk <$> Pattern.traverseAll v patterns <*> body.traverse v

def TixeAlternative.traverse : TixeAlternative → M TixeAlternative
  | ⟨bind, handler⟩ => TixeAlternative.mk <$> bind.traverse v <*> handler.traverse v

def OperationDef.traverse : OperationDef → M OperationDef
  | ⟨name, params, paramTypes, result, body, pre, isStatic, isPure, location⟩ =>
    OperationDef.mk <$> pure name <*> Pattern.traverseAll v params <*>
      traverseList pure paramTypes <*>
      pure result <*> body.traverse v <*> traverseOption (Expr.traverse v) pre <*>
      pure isStatic <*> pure isPure <*> v.location location

def StateField.traverse : StateField → M StateField
  | ⟨name, ty, init⟩ =>
    StateField.mk <$> pure name <*> pure ty <*> traverseOption (Expr.traverse v) init

def StateDef.traverse : StateDef → M StateDef
  | ⟨name, fields, location⟩ =>
    StateDef.mk <$> pure name <*> traverseList (StateField.traverse v) fields <*>
      v.location location

def ModuleDef.traverse : ModuleDef → M ModuleDef
  | ⟨name, location, state, values, functions, operations⟩ =>
    ModuleDef.mk <$> pure name <*> v.location location <*>
      traverseOption (StateDef.traverse v) state <*>
      Definition.traverseAll v values <*> traverseList (FunctionDef.traverse v) functions <*>
      traverseList (OperationDef.traverse v) operations

def InstanceVarDef.traverse : InstanceVarDef → M InstanceVarDef
  | ⟨name, ty, init, isStatic, location⟩ =>
    InstanceVarDef.mk <$> pure name <*> pure ty <*> traverseOption (Expr.traverse v) init <*>
      pure isStatic <*> v.location location

def ThreadDef.traverse : ThreadDef → M ThreadDef
  | .plain body => .plain <$> body.traverse v
  | .periodic period jitter delay offset operation =>
    .periodic <$> period.traverse v <*> jitter.traverse v <*> delay.traverse v <*>
      offset.traverse v <*> pure operation
  | .sporadic minDelay maxDelay offset operation =>
    .sporadic <$> minDelay.traverse v <*> maxDelay.traverse v <*> offset.traverse v <*>
      pure operation

def ClassDef.traverse : ClassDef → M ClassDef
  | ⟨name, location, instanceVars, values, functions, operations, invariants, thread⟩ =>
    ClassDef.mk <$> pure name <*> v.location location <*>
      traverseList (InstanceVarDef.traverse v) instanceVars <*> Definition.traverseAll v values <*>
      traverseList (FunctionDef.traverse v) functions <*>
      traverseList (OperationDef.traverse v) operations <*> Expr.traverseAll v invariants <*>
      traverseOption (ThreadDef.traverse v) thread

def Model.traverse : Model → M Model
  | ⟨modules, classes⟩ =>
    Model.mk <$> traverseList (ModuleDef.traverse v) modules <*>
      traverseList (ClassDef.traverse v) classes

end Traverse

/-! ### Trees of all sorts -/

/-- A sort of trees. Lists of trees are gone through one by one. -/
class Tree (α : Type) where
  traverse {M : Type → Type} [Applicative M] (v : Visitor M) : α → M α
  traverseAll {M : Type → Type} [Applicative M] (v : Visitor M) : List α → M (List α) :=
    traverseList (traverse v)
  traverseAll_nil {M : Type → Type} [Applicative M] (v : Visitor M) :
    traverseAll v [] = pure [] := by intros; rfl
  traverseAll_cons {M : Type → Type} [Applicative M] (v : Visitor M) (a : α) (as : List α) :
    traverseAll v (a :: as) = List.cons <$> traverse v a <*> traverseAll v as := by intros; rfl

namespace Tree

variable {α β : Type} [Tree α] [Tree β]

instance : Tree (List α) where
  traverse := traverseAll

instance : Tree (Option α) where
  traverse v := traverseOption (traverse v)

instance : Tree (α × β) where
  traverse v p := Prod.mk <$> traverse v p.1 <*> traverse v p.2

-- Some trees have no leaves.
instance : Tree Bool where traverse _ := pure
instance : Tree String where traverse _ := pure
instance : Tree Ty where traverse _ := pure
instance : Tree Name where traverse _ := pure
instance : Tree UnaryOp where traverse _ := pure
instance : Tree BinaryOp where traverse _ := pure

instance : Tree NodeId where traverse v := v.node
instance : Tree Literal where traverse v := v.literal
instance : Tree Location where traverse v := v.location

instance : Tree Pattern where
  traverse := Pattern.traverse
  traverseAll := Pattern.traverseAll

instance : Tree PatternKind where traverse := PatternKind.traverse

instance : Tree Expr where
  traverse := Expr.traverse
  traverseAll := Expr.traverseAll

instance : Tree (String × Expr) where
  traverse v p := Prod.mk <$> pure p.1 <*> p.2.traverse v
  traverseAll := Expr.traverseFields

instance : Tree ExprKind where traverse := ExprKind.traverse

instance : Tree Bind where
  traverse := Bind.traverse
  traverseAll := Bind.traverseAll

instance : Tree Definition where
  traverse := Definition.traverse
  traverseAll := Definition.traverseAll

instance : Tree DefinitionKind where traverse := DefinitionKind.traverse
instance : Tree FunctionDef where traverse := FunctionDef.traverse
instance : Tree PatternBind where traverse := PatternBind.traverse
instance : Tree Designator where traverse := Designator.traverse
instance : Tree Assignment where traverse := Assignment.traverse
instance : Tree Declaration where traverse := Declaration.traverse

instance : Tree Stmt where
  traverse := Stmt.traverse
  traverseAll := Stmt.traverseAll

instance : Tree (Expr × Stmt) where
  traverse v p := Prod.mk <$> p.1.traverse v <*> p.2.traverse v
  traverseAll := Stmt.traverseBranches

instance : Tree StmtKind where traverse := StmtKind.traverse

instance : Tree CaseAlternative where
  traverse := CaseAlternative.traverse
  traverseAll := CaseAlternative.traverseAll
  traverseAll_cons _ a _ := by cases a; rfl

instance : Tree TixeAlternative where
  traverse := TixeAlternative.traverse
  traverseAll := TixeAlternative.traverseAll
  traverseAll_cons _ a _ := by cases a; rfl

instance : Tree OperationDef where traverse := OperationDef.traverse
instance : Tree StateField where traverse := StateField.traverse
instance : Tree StateDef where traverse := StateDef.traverse
instance : Tree ModuleDef where traverse := ModuleDef.traverse
instance : Tree InstanceVarDef where traverse := InstanceVarDef.traverse
instance : Tree ThreadDef where traverse := ThreadDef.traverse
instance : Tree ClassDef where traverse := ClassDef.traverse
instance : Tree Model where traverse := Model.traverse

end Tree

/-- A list of items that are found on the way. -/
def Collect (β : Type) (_ : Type) : Type :=
  List β

instance {β : Type} : Applicative (Collect β) where
  pure _ := ([] : List β)
  seq found more := List.append found (more ())
  map _ found := found

/-- A condition that has to hold everywhere. -/
def Everywhere (_ : Type) : Type :=
  Prop

instance : Applicative Everywhere where
  pure _ := True
  seq here there := And here (there ())
  map _ here := here

/-- The numbers of a place are machine words. -/
structure Location.Fits (l : Location) : Prop where
  line : l.span.line < Word.size32
  column : l.span.column < Word.size32
  endLine : l.span.endLine < Word.size32
  endColumn : l.span.endColumn < Word.size32

/-- An integer constant is a machine word, and a `real` one is finite. -/
def Literal.Fits : Literal → Prop
  | .int n => Word.minInt ≤ n ∧ n ≤ Word.maxInt
  | .real x => x.isFinite = true
  | _ => True

namespace Tree

variable {α β : Type} [Tree α] [Tree β]

/-- The tree with all counters set to zero. -/
def forget (a : α) : α :=
  traverse (M := Id) ⟨fun l => { l with counter := 0 }, fun id => id, fun value => value⟩ a

/-- The `counters` of a tree, in the order of its document. -/
def counters (a : α) : List CounterId :=
  traverse (M := Collect CounterId) ⟨fun l => [l.counter], fun _ => ([] : List _), fun _ =>
    ([] : List _)⟩ a

/-- The numbers of a tree are machine words, and its reals are finite. -/
def Fits (a : α) : Prop :=
  traverse (M := Everywhere) ⟨Location.Fits, fun id => (id < Word.size32 : Prop), Literal.Fits⟩ a

end Tree

end Animator
