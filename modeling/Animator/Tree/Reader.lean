import Animator.Json.Basic
import Animator.Tree.Model
import Animator.Word

/-!
# Reading trees from documents

Structures are objects or arrays that list their parts in order, alternatives are tagged. Keys that
a structure does not know are ignored, a missing optional part is absent, and every other missing or
ill-formed part is refused. Whether the parts of an alternative may be listed as well depends on the
`Listing`. Reading gives every location a hit counter of its own, and every node without a number a
new one.

Each reader takes a bound on the nesting of the document; `Json.size` is always enough.
-/

namespace Animator

open Json (Mismatch Fields)

/-- The next unused numbers. -/
structure Supply where
  /-- The next node number. Numbers below a million are left to documents. -/
  nextNode : NodeId := 1000000
  /-- The next counter. Counter zero belongs to places outside any tree. -/
  nextCounter : CounterId := 1
  deriving Inhabited

/-- What may be written as an array of its parts. -/
inductive Listing where
  | structures
  /-- Structures, and the alternatives that have several parts. -/
  | alternatives
  deriving DecidableEq, Repr

/-- Reading may fail, and takes numbers from a `Supply`. -/
abbrev Read := ReaderT Listing (StateT Supply (Except Mismatch))

namespace Read

/-- A node number from the supply. The numbers are machine words, and after the last one comes zero.
-/
def freshNode : Read NodeId :=
  modifyGet fun s => (s.nextNode, { s with nextNode := (s.nextNode + 1) % Word.size32 })

/-- A counter that no other location has got. -/
def freshCounter : Read CounterId :=
  modifyGet fun s => (s.nextCounter, { s with nextCounter := s.nextCounter + 1 })

def refuse {α : Type} (what : String) : Read α :=
  throw (.expected what)

/-- The parts of an alternative that has several. -/
def parts (content : Json) (names : List String) : Read Fields := do
  match content, ← read with
  | .arr _, .structures => refuse "an object"
  | content, _ => content.fields names

def list {α : Type} (item : Json → Read α) (j : Json) : Read (List α) := do
  (← j.items).mapM item

def required {α : Type} (f : Fields) (name : String) (read : Json → Read α) : Read α := do
  read (← f.required name)

def optional {α : Type} (f : Fields) (name : String) (read : Json → Read α) : Read (Option α) :=
  match f.get? name with
  | none | some .null => return none
  | some value => some <$> read value

/-- A part that is replaced by a default when absent. -/
def withDefault {α : Type} (f : Fields) (name : String) (default : α) (read : Json → Read α) :
    Read α :=
  match f.get? name with
  | none => return default
  | some value => read value

/-- A list that is empty when absent. -/
def listOrEmpty {α : Type} (f : Fields) (name : String) (item : Json → Read α) : Read (List α) :=
  withDefault f name [] (list item)

def flag (f : Fields) (name : String) : Read Bool :=
  withDefault f name false fun j => j.boolean

def string (f : Fields) (name : String) : Read String :=
  required f name fun j => j.string

def word (f : Fields) (name : String) : Read Nat :=
  required f name fun j => j.natural Word.size32

end Read

open Read (refuse parts list required optional withDefault listOrEmpty flag)

/-- A location, with a `counter` of its own. It is written as an object, and also what it does not
know has to be readable. -/
def Location.read (j : Json) : Read Location := do
  match j, j.isReadable with
  | .obj _, true =>
    let f ← j.fields ["file", "line", "column", "end_line", "end_column", "executable"]
    let file ← Read.string f "file"
    let line ← Read.word f "line"
    let column ← Read.word f "column"
    let endLine ← Read.word f "end_line"
    let endColumn ← Read.word f "end_column"
    let executable ← withDefault f "executable" true fun j => j.boolean
    let counter ← Read.freshCounter
    return { file, span := { line, column, endLine, endColumn }, executable, counter }
  | _, _ => refuse "a location"

/-- The number of a node: the given one, or a new one. -/
def Read.nodeId (f : Fields) : Read NodeId :=
  match f.get? "id" with
  | some j => j.natural Word.size32
  | none => Read.freshNode

def Ty.read : Nat → Json → Except Mismatch Ty
  | 0, _ => .error (.expected "a type")
  | n + 1, j => do
    let (tag, content) ← j.variant
    let plain (ty : Ty) : Except Mismatch Ty := do
      Json.noContent content
      return ty
    let inner (make : Ty → Ty) : Except Mismatch Ty := do
      return make (← Ty.read n (← Json.content content))
    let named (make : String → Ty) : Except Mismatch Ty := do
      return make (← (← Json.content content).string)
    let several (make : List Ty → Ty) : Except Mismatch Ty := do
      return make (← (← (← Json.content content).items).mapM (Ty.read n))
    match tag with
    | "bool" => plain .bool
    | "nat" => plain .nat
    | "nat1" => plain .nat1
    | "int" => plain .int
    | "real" => plain .real
    | "char" => plain .char
    | "token" => plain .token
    | "quote" => named .quote
    | "seq" => inner .seq
    | "seq1" => inner .seq1
    | "set" => inner .set
    | "product" => several .product
    | "record" => named .record
    | "class" => named .class
    | "optional" => inner .optional
    | "union" => several .union
    | "void" => plain .void
    | "unknown" => plain .unknown
    | _ => throw (.expected "a type")

def Ty.ofJson (j : Json) : Except Mismatch Ty :=
  Ty.read j.size j

def Name.ofJson (j : Json) : Except Mismatch Name := do
  let f ← j.fields ["module", "text", "signature"]
  let module ← (← f.required "module").string
  let text ← (← f.required "text").string
  match f.get? "signature" with
  | none | some .null => return { module, text }
  | some types => return { module, text, signature := some (← (← types.items).mapM Ty.ofJson) }

def Literal.ofJson (j : Json) : Except Mismatch Literal := do
  let (tag, content) ← j.variant
  match tag with
  | "nil" =>
    Json.noContent content
    return .nil
  | "bool" => return .bool (← (← Json.content content).boolean)
  | "int" => return .int (← (← Json.content content).integer Word.minInt Word.maxInt)
  | "real" => return .real (← (← Json.content content).double)
  | "char" => return .char (← (← Json.content content).character)
  | "text" => return .text (← (← Json.content content).string)
  | "quote" => return .quote (← (← Json.content content).string)
  | _ => throw (.expected "a literal")

def Pattern.read : Nat → Json → Read Pattern
  | 0, _ => refuse "a pattern"
  | n + 1, j => do
    let f ← j.fields ["location", "kind"]
    let location ← required f "location" Location.read
    let kind ← required f "kind" fun j => do
      let (tag, content) ← j.variant
      match tag with
      | "ident" => return PatternKind.ident (← Name.ofJson (← Json.content content))
      | "ignore" =>
        Json.noContent content
        return .ignore
      | "literal" => return .literal (← Literal.ofJson (← Json.content content))
      | "tuple" => return .tuple (← list (Pattern.read n) (← Json.content content))
      | "record" =>
        let f ← parts (← Json.content content) ["tag", "fields"]
        return .record (← Read.string f "tag") (← required f "fields" (list (Pattern.read n)))
      | "seq" => return .seq (← list (Pattern.read n) (← Json.content content))
      | _ => refuse "a pattern"
    return { location, kind }

def Pattern.ofJson (j : Json) : Read Pattern :=
  Pattern.read j.size j

def UnaryOp.ofJson (j : Json) : Except Mismatch UnaryOp := do
  let (tag, content) ← j.variant
  Json.noContent content
  match tag with
  | "neg" => return .neg
  | "not" => return .not
  | "abs" => return .abs
  | "floor" => return .floor
  | "card" => return .card
  | "len" => return .len
  | "elems" => return .elems
  | "inds" => return .inds
  | "hd" => return .hd
  | "tl" => return .tl
  | _ => throw (.expected "a unary operator")

def BinaryOp.ofJson (j : Json) : Except Mismatch BinaryOp := do
  let (tag, content) ← j.variant
  Json.noContent content
  match tag with
  | "add" => return .add
  | "sub" => return .sub
  | "mul" => return .mul
  | "div" => return .div
  | "int_div" => return .intDiv
  | "rem" => return .rem
  | "mod" => return .mod
  | "lt" => return .lt
  | "le" => return .le
  | "gt" => return .gt
  | "ge" => return .ge
  | "eq" => return .eq
  | "ne" => return .ne
  | "and" => return .and
  | "or" => return .or
  | "implies" => return .implies
  | "in_set" => return .inSet
  | "not_in_set" => return .notInSet
  | "union" => return .union
  | "inter" => return .inter
  | "difference" => return .difference
  | "subset" => return .subset
  | "concat" => return .concat
  | _ => throw (.expected "a binary operator")

mutual

def Expr.read : Nat → Json → Read Expr
  | 0, _ => refuse "an expression"
  | n + 1, j => do
    let f ← j.fields ["id", "location", "kind"]
    let id ← Read.nodeId f
    let location ← required f "location" Location.read
    let kind ← required f "kind" (ExprKind.read n)
    return { id, location, kind }

def ExprKind.read : Nat → Json → Read ExprKind
  | 0, _ => refuse "an expression"
  | n + 1, j => do
    let (tag, content) ← j.variant
    let several := do list (Expr.read n) (← Json.content content)
    match tag with
    | "literal" => return .literal (← Literal.ofJson (← Json.content content))
    | "name" => return .name (← Name.ofJson (← Json.content content))
    | "self_ref" =>
      Json.noContent content
      return .selfRef
    | "time" =>
      Json.noContent content
      return .time
    | "field" =>
      let f ← parts (← Json.content content) ["object", "field"]
      let object ← required f "object" (Expr.read n)
      return .field object (← Name.ofJson (← f.required "field"))
    | "apply" =>
      let f ← parts (← Json.content content) ["root", "args"]
      let root ← required f "root" (Expr.read n)
      return .apply root (← required f "args" (list (Expr.read n)))
    | "unary" =>
      let f ← parts (← Json.content content) ["op", "operand"]
      let op ← UnaryOp.ofJson (← f.required "op")
      return .unary op (← required f "operand" (Expr.read n))
    | "binary" =>
      let f ← parts (← Json.content content) ["left", "op", "right"]
      let left ← required f "left" (Expr.read n)
      let op ← BinaryOp.ofJson (← f.required "op")
      return .binary left op (← required f "right" (Expr.read n))
    | "if" =>
      let f ← parts (← Json.content content) ["condition", "then_branch", "else_branch"]
      let condition ← required f "condition" (Expr.read n)
      let thenBranch ← required f "then_branch" (Expr.read n)
      return .cond condition thenBranch (← required f "else_branch" (Expr.read n))
    | "let" =>
      let f ← parts (← Json.content content) ["defs", "body"]
      let defs ← required f "defs" (list (Definition.read n))
      return .letIn defs (← required f "body" (Expr.read n))
    | "set_enum" => return .setEnum (← several)
    | "set_range" =>
      let f ← parts (← Json.content content) ["low", "high"]
      let low ← required f "low" (Expr.read n)
      return .setRange low (← required f "high" (Expr.read n))
    | "seq_enum" => return .seqEnum (← several)
    | "tuple" => return .tuple (← several)
    | "mk_record" =>
      let f ← parts (← Json.content content) ["tag", "fields"]
      let tag ← Read.string f "tag"
      let fields ← required f "fields" <| list fun j => do
        let (name, value) ← j.pair
        return (← name.string, ← Expr.read n value)
      return .mkRecord tag fields
    | "new" =>
      let f ← parts (← Json.content content) ["class", "args"]
      let className ← Read.string f "class"
      return .new className (← required f "args" (list (Expr.read n)))
    | "exists" =>
      let f ← parts (← Json.content content) ["binds", "predicate"]
      let binds ← required f "binds" (list (Bind.read n))
      return .existsIn binds (← required f "predicate" (Expr.read n))
    | "for_all" =>
      let f ← parts (← Json.content content) ["binds", "predicate"]
      let binds ← required f "binds" (list (Bind.read n))
      return .forAll binds (← required f "predicate" (Expr.read n))
    | _ => refuse "an expression"

def Bind.read : Nat → Json → Read Bind
  | 0, _ => refuse "a bind"
  | n + 1, j => do
    let (tag, content) ← j.variant
    let content ← Json.content content
    match tag with
    | "set" =>
      let f ← parts content ["pattern", "set"]
      let pattern ← required f "pattern" Pattern.ofJson
      return .set pattern (← required f "set" (Expr.read n))
    | "seq" =>
      let f ← parts content ["pattern", "seq"]
      let pattern ← required f "pattern" Pattern.ofJson
      return .seq pattern (← required f "seq" (Expr.read n))
    | "type" =>
      let f ← parts content ["pattern", "ty"]
      let pattern ← required f "pattern" Pattern.ofJson
      return .type pattern (← Ty.ofJson (← f.required "ty"))
    | _ => refuse "a bind"

def Definition.read : Nat → Json → Read Definition
  | 0, _ => refuse "a definition"
  | n + 1, j => do
    let f ← j.fields ["location", "kind"]
    let location ← required f "location" Location.read
    let kind ← required f "kind" fun j => do
      let (tag, content) ← j.variant
      let content ← Json.content content
      match tag with
      | "value" =>
        let f ← parts content ["pattern", "ty", "expr"]
        let pattern ← required f "pattern" Pattern.ofJson
        let ty ← optional f "ty" fun j => Ty.ofJson j
        return DefinitionKind.value pattern ty (← required f "expr" (Expr.read n))
      | "function" => return .function (← FunctionDef.read n content)
      | _ => refuse "a definition"
    return { location, kind }

def FunctionDef.read : Nat → Json → Read FunctionDef
  | 0, _ => refuse "a function"
  | n + 1, j => do
    let f ← j.fields ["name", "params", "param_types", "result", "body", "pre", "location"]
    let name ← Name.ofJson (← f.required "name")
    let params ← required f "params" (list Pattern.ofJson)
    let paramTypes ← required f "param_types" (list fun j => Ty.ofJson j)
    let result ← Ty.ofJson (← f.required "result")
    let body ← required f "body" (Expr.read n)
    let pre ← optional f "pre" (Expr.read n)
    let location ← required f "location" Location.read
    return { name, params, paramTypes, result, body, pre, location }

end

def Expr.ofJson (j : Json) : Read Expr :=
  Expr.read j.size j

def Definition.ofJson (j : Json) : Read Definition :=
  Definition.read j.size j

def FunctionDef.ofJson (j : Json) : Read FunctionDef :=
  FunctionDef.read j.size j

def Bind.ofJson (j : Json) : Read Bind :=
  Bind.read j.size j

def PatternBind.ofJson (j : Json) : Read PatternBind := do
  let (tag, content) ← j.variant
  match tag with
  | "pattern" => return .pattern (← Pattern.ofJson (← Json.content content))
  | "bind" => return .bind (← Bind.ofJson (← Json.content content))
  | _ => refuse "a pattern or a bind"

def Designator.read : Nat → Json → Read Designator
  | 0, _ => refuse "a designator"
  | n + 1, j => do
    let (tag, content) ← j.variant
    let content ← Json.content content
    match tag with
    | "name" => return .name (← Name.ofJson content)
    | "field" =>
      let f ← parts content ["object", "field"]
      let object ← required f "object" (Designator.read n)
      return .field object (← Name.ofJson (← f.required "field"))
    | "index" =>
      let f ← parts content ["seq", "index"]
      let seq ← required f "seq" (Designator.read n)
      return .index seq (← required f "index" Expr.ofJson)
    | _ => refuse "a designator"

def Assignment.ofJson (j : Json) : Read Assignment := do
  let f ← j.fields ["target", "value", "location"]
  let target ← required f "target" fun j => Designator.read j.size j
  let value ← required f "value" Expr.ofJson
  let location ← required f "location" Location.read
  return { target, value, location }

def Declaration.ofJson (j : Json) : Read Declaration := do
  let f ← j.fields ["name", "ty", "init", "location"]
  let name ← Name.ofJson (← f.required "name")
  let ty ← Ty.ofJson (← f.required "ty")
  let init ← optional f "init" Expr.ofJson
  let location ← required f "location" Location.read
  return { name, ty, init, location }

mutual

def Stmt.read : Nat → Json → Read Stmt
  | 0, _ => refuse "a statement"
  | n + 1, j => do
    let f ← j.fields ["id", "location", "kind"]
    let id ← Read.nodeId f
    let location ← required f "location" Location.read
    let kind ← required f "kind" (StmtKind.read n)
    return { id, location, kind }

def StmtKind.read : Nat → Json → Read StmtKind
  | 0, _ => refuse "a statement"
  | n + 1, j => do
    let (tag, content) ← j.variant
    let ofExpr (make : Expr → StmtKind) : Read StmtKind := do
      return make (← Expr.ofJson (← Json.content content))
    let ofOption (make : Option Expr → StmtKind) : Read StmtKind := do
      match (← Json.content content).option with
      | some j => return make (some (← Expr.ofJson j))
      | none => return make none
    match tag with
    | "assign" => return .assign (← Assignment.ofJson (← Json.content content))
    | "atomic" => return .atomic (← list Assignment.ofJson (← Json.content content))
    | "block" =>
      let f ← parts (← Json.content content) ["dcls", "body"]
      let dcls ← listOrEmpty f "dcls" Declaration.ofJson
      return .block dcls (← required f "body" (list (Stmt.read n)))
    | "let" =>
      let f ← parts (← Json.content content) ["defs", "body"]
      let defs ← required f "defs" (list Definition.ofJson)
      return .letIn defs (← required f "body" (Stmt.read n))
    | "def" =>
      let f ← parts (← Json.content content) ["defs", "body"]
      let defs ← required f "defs" (list Definition.ofJson)
      return .defIn defs (← required f "body" (Stmt.read n))
    | "let_be_st" =>
      let f ← parts (← Json.content content) ["binds", "predicate", "body"]
      let binds ← required f "binds" (list Bind.ofJson)
      let predicate ← optional f "predicate" Expr.ofJson
      return .letBeSt binds predicate (← required f "body" (Stmt.read n))
    | "if" =>
      let f ← parts (← Json.content content)
        ["condition", "then_branch", "elseifs", "else_branch"]
      let condition ← required f "condition" Expr.ofJson
      let thenBranch ← required f "then_branch" (Stmt.read n)
      let elseifs ← listOrEmpty f "elseifs" fun j => do
        let (c, s) ← j.pair
        return (← Expr.ofJson c, ← Stmt.read n s)
      let elseBranch ← optional f "else_branch" (Stmt.read n)
      return .cond condition thenBranch elseifs elseBranch
    | "cases" =>
      let f ← parts (← Json.content content) ["selector", "alternatives", "others"]
      let selector ← required f "selector" Expr.ofJson
      let alternatives ← required f "alternatives" (list (CaseAlternative.read n))
      let others ← optional f "others" (Stmt.read n)
      return .cases selector alternatives others
    | "for_index" =>
      let f ← parts (← Json.content content) ["var", "from", "to", "by", "body"]
      let var ← Name.ofJson (← f.required "var")
      let start ← required f "from" Expr.ofJson
      let stop ← required f "to" Expr.ofJson
      let step ← optional f "by" Expr.ofJson
      return .forIndex var start stop step (← required f "body" (Stmt.read n))
    | "for_all" =>
      let f ← parts (← Json.content content) ["pattern", "set", "body"]
      let pattern ← required f "pattern" Pattern.ofJson
      let set ← required f "set" Expr.ofJson
      return .forAll pattern set (← required f "body" (Stmt.read n))
    | "for_pattern" =>
      let f ← parts (← Json.content content) ["bind", "seq", "reverse", "body"]
      let bind ← required f "bind" PatternBind.ofJson
      let seq ← required f "seq" Expr.ofJson
      let reverse ← flag f "reverse"
      return .forPattern bind seq reverse (← required f "body" (Stmt.read n))
    | "while" =>
      let f ← parts (← Json.content content) ["condition", "body"]
      let condition ← required f "condition" Expr.ofJson
      return .while condition (← required f "body" (Stmt.read n))
    | "call" =>
      let f ← parts (← Json.content content) ["name", "args"]
      let name ← Name.ofJson (← f.required "name")
      return .call name (← required f "args" (list Expr.ofJson))
    | "call_object" =>
      let f ← parts (← Json.content content) ["designator", "field", "args"]
      let designator ← required f "designator" Expr.ofJson
      let field ← Name.ofJson (← f.required "field")
      return .callObject designator field (← required f "args" (list Expr.ofJson))
    | "start" => ofExpr .start
    | "start_list" => ofExpr .startList
    | "stop" => ofExpr .stop
    | "stop_list" => ofExpr .stopList
    | "cycles" =>
      let f ← parts (← Json.content content) ["cycles", "body"]
      let amount ← required f "cycles" Expr.ofJson
      return .cycles amount (← required f "body" (Stmt.read n))
    | "duration" =>
      let f ← parts (← Json.content content) ["duration", "body"]
      let amount ← required f "duration" Expr.ofJson
      return .duration amount (← required f "body" (Stmt.read n))
    | "always" =>
      let f ← parts (← Json.content content) ["cleanup", "body"]
      let cleanup ← required f "cleanup" (Stmt.read n)
      return .always cleanup (← required f "body" (Stmt.read n))
    | "trap" =>
      let f ← parts (← Json.content content) ["bind", "handler", "body"]
      let bind ← required f "bind" PatternBind.ofJson
      let handler ← required f "handler" (Stmt.read n)
      return .trap bind handler (← required f "body" (Stmt.read n))
    | "tixe" =>
      let f ← parts (← Json.content content) ["alternatives", "body"]
      let alternatives ← required f "alternatives" (list (TixeAlternative.read n))
      return .tixe alternatives (← required f "body" (Stmt.read n))
    | "exit" => ofOption .exit
    | "return" => ofOption .return
    | "class_invariant" => return .classInvariant (← list Expr.ofJson (← Json.content content))
    | "not_yet_specified" =>
      Json.noContent content
      return .notYetSpecified
    | "skip" =>
      Json.noContent content
      return .skip
    | _ => refuse "a statement"

def CaseAlternative.read : Nat → Json → Read CaseAlternative
  | 0, _ => refuse "an alternative"
  | n + 1, j => do
    let f ← j.fields ["patterns", "body"]
    let patterns ← required f "patterns" (list Pattern.ofJson)
    return { patterns, body := ← required f "body" (Stmt.read n) }

def TixeAlternative.read : Nat → Json → Read TixeAlternative
  | 0, _ => refuse "an alternative"
  | n + 1, j => do
    let f ← j.fields ["bind", "handler"]
    let bind ← required f "bind" PatternBind.ofJson
    return { bind, handler := ← required f "handler" (Stmt.read n) }

end

def Stmt.ofJson (j : Json) : Read Stmt :=
  Stmt.read j.size j

def OperationDef.ofJson (j : Json) : Read OperationDef := do
  let f ← j.fields ["name", "params", "param_types", "result", "body", "pre", "is_static",
    "is_pure", "location"]
  let name ← Name.ofJson (← f.required "name")
  let params ← required f "params" (list Pattern.ofJson)
  let paramTypes ← required f "param_types" (list fun j => Ty.ofJson j)
  let result ← Ty.ofJson (← f.required "result")
  let body ← required f "body" Stmt.ofJson
  let pre ← optional f "pre" Expr.ofJson
  let isStatic ← flag f "is_static"
  let isPure ← flag f "is_pure"
  let location ← required f "location" Location.read
  return { name, params, paramTypes, result, body, pre, isStatic, isPure, location }

def StateField.ofJson (j : Json) : Read StateField := do
  let f ← j.fields ["name", "ty", "init"]
  let name ← Name.ofJson (← f.required "name")
  let ty ← Ty.ofJson (← f.required "ty")
  return { name, ty, init := ← optional f "init" Expr.ofJson }

def StateDef.ofJson (j : Json) : Read StateDef := do
  let f ← j.fields ["name", "fields", "location"]
  let name ← Read.string f "name"
  let fields ← required f "fields" (list StateField.ofJson)
  return { name, fields, location := ← required f "location" Location.read }

def ModuleDef.ofJson (j : Json) : Read ModuleDef := do
  let f ← j.fields ["name", "location", "state", "values", "functions", "operations"]
  let name ← Read.string f "name"
  let location ← required f "location" Location.read
  let state ← optional f "state" StateDef.ofJson
  let values ← listOrEmpty f "values" Definition.ofJson
  let functions ← listOrEmpty f "functions" FunctionDef.ofJson
  let operations ← listOrEmpty f "operations" OperationDef.ofJson
  return { name, location, state, values, functions, operations }

def InstanceVarDef.ofJson (j : Json) : Read InstanceVarDef := do
  let f ← j.fields ["name", "ty", "init", "is_static", "location"]
  let name ← Name.ofJson (← f.required "name")
  let ty ← Ty.ofJson (← f.required "ty")
  let init ← optional f "init" Expr.ofJson
  let isStatic ← flag f "is_static"
  return { name, ty, init, isStatic, location := ← required f "location" Location.read }

def ThreadDef.ofJson (j : Json) : Read ThreadDef := do
  let (tag, content) ← j.variant
  let content ← Json.content content
  match tag with
  | "plain" => return .plain (← Stmt.ofJson content)
  | "periodic" =>
    let f ← parts content ["period", "jitter", "delay", "offset", "operation"]
    let period ← required f "period" Expr.ofJson
    let jitter ← required f "jitter" Expr.ofJson
    let delay ← required f "delay" Expr.ofJson
    let offset ← required f "offset" Expr.ofJson
    return .periodic period jitter delay offset (← Name.ofJson (← f.required "operation"))
  | "sporadic" =>
    let f ← parts content ["min_delay", "max_delay", "offset", "operation"]
    let minDelay ← required f "min_delay" Expr.ofJson
    let maxDelay ← required f "max_delay" Expr.ofJson
    let offset ← required f "offset" Expr.ofJson
    return .sporadic minDelay maxDelay offset (← Name.ofJson (← f.required "operation"))
  | _ => refuse "a thread"

def ClassDef.ofJson (j : Json) : Read ClassDef := do
  let f ← j.fields ["name", "location", "instance_vars", "values", "functions", "operations",
    "invariants", "thread"]
  let name ← Read.string f "name"
  let location ← required f "location" Location.read
  let instanceVars ← listOrEmpty f "instance_vars" InstanceVarDef.ofJson
  let values ← listOrEmpty f "values" Definition.ofJson
  let functions ← listOrEmpty f "functions" FunctionDef.ofJson
  let operations ← listOrEmpty f "operations" OperationDef.ofJson
  let invariants ← listOrEmpty f "invariants" Expr.ofJson
  let thread ← optional f "thread" ThreadDef.ofJson
  return { name, location, instanceVars, values, functions, operations, invariants, thread }

def Model.ofJson (j : Json) : Read Model := do
  let f ← j.fields ["modules", "classes"]
  let modules ← listOrEmpty f "modules" ModuleDef.ofJson
  return { modules, classes := ← listOrEmpty f "classes" ClassDef.ofJson }

end Animator
