import Animator.Json.Basic
import Animator.Tree.Model

/-!
# Writing trees as documents

The inverse of reading: every part is written, an absent optional part as null, except that an
absent signature is left out.
-/

namespace Animator

namespace Json

/-- An alternative with `content`. -/
def tagged (tag : String) (content : Json) : Json :=
  .obj [(tag, content)]

/-- An alternative whose content has named parts. -/
def taggedObj (tag : String) (parts : List (String × Json)) : Json :=
  .obj [(tag, .obj parts)]

def ofOption : Option Json → Json
  | some j => j
  | none => .null

def ofNat (n : Nat) : Json :=
  .int n

end Json

open Json (tagged taggedObj ofOption)

/-- Write a location; its counter is not part of the document. -/
def Location.toJson (l : Location) : Json :=
  .obj [("file", .str l.file), ("line", .ofNat l.span.line), ("column", .ofNat l.span.column),
    ("end_line", .ofNat l.span.endLine), ("end_column", .ofNat l.span.endColumn),
    ("executable", .bool l.executable)]

mutual

def Ty.toJson : Ty → Json
  | .bool => .str "bool"
  | .nat => .str "nat"
  | .nat1 => .str "nat1"
  | .int => .str "int"
  | .real => .str "real"
  | .char => .str "char"
  | .token => .str "token"
  | .quote tag => tagged "quote" (.str tag)
  | .seq t => tagged "seq" t.toJson
  | .seq1 t => tagged "seq1" t.toJson
  | .set t => tagged "set" t.toJson
  | .product ts => tagged "product" (.arr (Ty.toJsons ts))
  | .record tag => tagged "record" (.str tag)
  | .class name => tagged "class" (.str name)
  | .optional t => tagged "optional" t.toJson
  | .union ts => tagged "union" (.arr (Ty.toJsons ts))
  | .void => .str "void"
  | .unknown => .str "unknown"

def Ty.toJsons : List Ty → List Json
  | [] => []
  | t :: ts => t.toJson :: Ty.toJsons ts

end

def Name.toJson (n : Name) : Json :=
  .obj <| [("module", .str n.module), ("text", .str n.text)] ++
    match n.signature with
    | some types => [("signature", .arr (Ty.toJsons types))]
    | none => []

def Literal.toJson : Literal → Json
  | .nil => .str "nil"
  | .bool b => tagged "bool" (.bool b)
  | .int n => tagged "int" (.int n)
  | .real x => tagged "real" (.real x)
  | .char c => tagged "char" (.str (String.singleton c))
  | .text s => tagged "text" (.str s)
  | .quote tag => tagged "quote" (.str tag)

mutual

def Pattern.toJson : Pattern → Json
  | ⟨location, kind⟩ => .obj [("location", location.toJson), ("kind", kind.toJson)]

def PatternKind.toJson : PatternKind → Json
  | .ident name => tagged "ident" name.toJson
  | .ignore => .str "ignore"
  | .literal value => tagged "literal" value.toJson
  | .tuple items => tagged "tuple" (.arr (Pattern.toJsons items))
  | .record tag fields =>
    taggedObj "record" [("tag", .str tag), ("fields", .arr (Pattern.toJsons fields))]
  | .seq items => tagged "seq" (.arr (Pattern.toJsons items))

def Pattern.toJsons : List Pattern → List Json
  | [] => []
  | p :: ps => p.toJson :: Pattern.toJsons ps

end

def UnaryOp.toJson : UnaryOp → Json
  | .neg => .str "neg"
  | .not => .str "not"
  | .abs => .str "abs"
  | .floor => .str "floor"
  | .card => .str "card"
  | .len => .str "len"
  | .elems => .str "elems"
  | .inds => .str "inds"
  | .hd => .str "hd"
  | .tl => .str "tl"

def BinaryOp.toJson : BinaryOp → Json
  | .add => .str "add"
  | .sub => .str "sub"
  | .mul => .str "mul"
  | .div => .str "div"
  | .intDiv => .str "int_div"
  | .rem => .str "rem"
  | .mod => .str "mod"
  | .lt => .str "lt"
  | .le => .str "le"
  | .gt => .str "gt"
  | .ge => .str "ge"
  | .eq => .str "eq"
  | .ne => .str "ne"
  | .and => .str "and"
  | .or => .str "or"
  | .implies => .str "implies"
  | .inSet => .str "in_set"
  | .notInSet => .str "not_in_set"
  | .union => .str "union"
  | .inter => .str "inter"
  | .difference => .str "difference"
  | .subset => .str "subset"
  | .concat => .str "concat"

mutual

def Expr.toJson : Expr → Json
  | ⟨id, location, kind⟩ =>
    .obj [("id", .ofNat id), ("location", location.toJson), ("kind", kind.toJson)]

def ExprKind.toJson : ExprKind → Json
  | .literal value => tagged "literal" value.toJson
  | .name name => tagged "name" name.toJson
  | .selfRef => .str "self_ref"
  | .time => .str "time"
  | .field object field =>
    taggedObj "field" [("object", object.toJson), ("field", field.toJson)]
  | .apply root args =>
    taggedObj "apply" [("root", root.toJson), ("args", .arr (Expr.toJsons args))]
  | .unary op operand => taggedObj "unary" [("op", op.toJson), ("operand", operand.toJson)]
  | .binary left op right =>
    taggedObj "binary" [("left", left.toJson), ("op", op.toJson), ("right", right.toJson)]
  | .cond condition thenBranch elseBranch =>
    taggedObj "if" [("condition", condition.toJson), ("then_branch", thenBranch.toJson),
      ("else_branch", elseBranch.toJson)]
  | .letIn defs body =>
    taggedObj "let" [("defs", .arr (Definition.toJsons defs)), ("body", body.toJson)]
  | .setEnum items => tagged "set_enum" (.arr (Expr.toJsons items))
  | .setRange low high => taggedObj "set_range" [("low", low.toJson), ("high", high.toJson)]
  | .seqEnum items => tagged "seq_enum" (.arr (Expr.toJsons items))
  | .tuple items => tagged "tuple" (.arr (Expr.toJsons items))
  | .mkRecord tag fields =>
    taggedObj "mk_record" [("tag", .str tag), ("fields", .arr (Expr.fieldJsons fields))]
  | .new className args =>
    taggedObj "new" [("class", .str className), ("args", .arr (Expr.toJsons args))]
  | .existsIn binds predicate =>
    taggedObj "exists" [("binds", .arr (Bind.toJsons binds)), ("predicate", predicate.toJson)]
  | .forAll binds predicate =>
    taggedObj "for_all" [("binds", .arr (Bind.toJsons binds)), ("predicate", predicate.toJson)]

def Expr.toJsons : List Expr → List Json
  | [] => []
  | e :: es => e.toJson :: Expr.toJsons es

def Expr.fieldJsons : List (String × Expr) → List Json
  | [] => []
  | (name, e) :: rest => .arr [.str name, e.toJson] :: Expr.fieldJsons rest

def Expr.optionJson : Option Expr → Json
  | some e => e.toJson
  | none => .null

def Bind.toJson : Bind → Json
  | .set pattern set => taggedObj "set" [("pattern", pattern.toJson), ("set", set.toJson)]
  | .seq pattern seq => taggedObj "seq" [("pattern", pattern.toJson), ("seq", seq.toJson)]
  | .type pattern ty => taggedObj "type" [("pattern", pattern.toJson), ("ty", ty.toJson)]

def Bind.toJsons : List Bind → List Json
  | [] => []
  | b :: bs => b.toJson :: Bind.toJsons bs

def Definition.toJson : Definition → Json
  | ⟨location, kind⟩ => .obj [("location", location.toJson), ("kind", kind.toJson)]

def DefinitionKind.toJson : DefinitionKind → Json
  | .value pattern ty expr =>
    taggedObj "value" [("pattern", pattern.toJson), ("ty", ofOption (ty.map Ty.toJson)),
      ("expr", expr.toJson)]
  | .function func => tagged "function" func.toJson

def Definition.toJsons : List Definition → List Json
  | [] => []
  | d :: ds => d.toJson :: Definition.toJsons ds

def FunctionDef.toJson : FunctionDef → Json
  | ⟨name, params, paramTypes, result, body, pre, location⟩ =>
    .obj [("name", name.toJson), ("params", .arr (Pattern.toJsons params)),
      ("param_types", .arr (Ty.toJsons paramTypes)), ("result", result.toJson),
      ("body", body.toJson), ("pre", Expr.optionJson pre), ("location", location.toJson)]

end

def PatternBind.toJson : PatternBind → Json
  | .pattern p => tagged "pattern" p.toJson
  | .bind b => tagged "bind" b.toJson

def Designator.toJson : Designator → Json
  | .name n => tagged "name" n.toJson
  | .field d member => taggedObj "field" [("object", d.toJson), ("field", member.toJson)]
  | .index d e => taggedObj "index" [("seq", d.toJson), ("index", e.toJson)]

def Assignment.toJson (a : Assignment) : Json :=
  .obj [("target", a.target.toJson), ("value", a.value.toJson), ("location", a.location.toJson)]

def Declaration.toJson (d : Declaration) : Json :=
  .obj [("name", d.name.toJson), ("ty", d.ty.toJson), ("init", Expr.optionJson d.init),
    ("location", d.location.toJson)]

mutual

def Stmt.toJson : Stmt → Json
  | ⟨id, location, kind⟩ =>
    .obj [("id", .ofNat id), ("location", location.toJson), ("kind", kind.toJson)]

def StmtKind.toJson : StmtKind → Json
  | .assign assignment => tagged "assign" assignment.toJson
  | .atomic assignments => tagged "atomic" (.arr (assignments.map Assignment.toJson))
  | .block dcls body =>
    taggedObj "block" [("dcls", .arr (dcls.map Declaration.toJson)),
      ("body", .arr (Stmt.toJsons body))]
  | .letIn defs body =>
    taggedObj "let" [("defs", .arr (Definition.toJsons defs)), ("body", body.toJson)]
  | .defIn defs body =>
    taggedObj "def" [("defs", .arr (Definition.toJsons defs)), ("body", body.toJson)]
  | .letBeSt binds predicate body =>
    taggedObj "let_be_st" [("binds", .arr (Bind.toJsons binds)),
      ("predicate", Expr.optionJson predicate), ("body", body.toJson)]
  | .cond condition thenBranch elseifs elseBranch =>
    taggedObj "if" [("condition", condition.toJson), ("then_branch", thenBranch.toJson),
      ("elseifs", .arr (Stmt.branchJsons elseifs)), ("else_branch", Stmt.optionJson elseBranch)]
  | .cases selector alternatives others =>
    taggedObj "cases" [("selector", selector.toJson),
      ("alternatives", .arr (CaseAlternative.toJsons alternatives)),
      ("others", Stmt.optionJson others)]
  | .forIndex var start stop step body =>
    taggedObj "for_index" [("var", var.toJson), ("from", start.toJson), ("to", stop.toJson),
      ("by", Expr.optionJson step), ("body", body.toJson)]
  | .forAll pattern set body =>
    taggedObj "for_all" [("pattern", pattern.toJson), ("set", set.toJson), ("body", body.toJson)]
  | .forPattern bind seq reverse body =>
    taggedObj "for_pattern" [("bind", bind.toJson), ("seq", seq.toJson),
      ("reverse", .bool reverse), ("body", body.toJson)]
  | .while condition body =>
    taggedObj "while" [("condition", condition.toJson), ("body", body.toJson)]
  | .call name args =>
    taggedObj "call" [("name", name.toJson), ("args", .arr (Expr.toJsons args))]
  | .callObject designator field args =>
    taggedObj "call_object" [("designator", designator.toJson), ("field", field.toJson),
      ("args", .arr (Expr.toJsons args))]
  | .start e => tagged "start" e.toJson
  | .startList e => tagged "start_list" e.toJson
  | .stop e => tagged "stop" e.toJson
  | .stopList e => tagged "stop_list" e.toJson
  | .cycles amount body =>
    taggedObj "cycles" [("cycles", amount.toJson), ("body", body.toJson)]
  | .duration amount body =>
    taggedObj "duration" [("duration", amount.toJson), ("body", body.toJson)]
  | .always cleanup body =>
    taggedObj "always" [("cleanup", cleanup.toJson), ("body", body.toJson)]
  | .trap bind handler body =>
    taggedObj "trap" [("bind", bind.toJson), ("handler", handler.toJson), ("body", body.toJson)]
  | .tixe alternatives body =>
    taggedObj "tixe" [("alternatives", .arr (TixeAlternative.toJsons alternatives)),
      ("body", body.toJson)]
  | .exit value => tagged "exit" (Expr.optionJson value)
  | .return value => tagged "return" (Expr.optionJson value)
  | .classInvariant clauses => tagged "class_invariant" (.arr (Expr.toJsons clauses))
  | .notYetSpecified => .str "not_yet_specified"
  | .skip => .str "skip"

def Stmt.toJsons : List Stmt → List Json
  | [] => []
  | s :: ss => s.toJson :: Stmt.toJsons ss

def Stmt.optionJson : Option Stmt → Json
  | some s => s.toJson
  | none => .null

def Stmt.branchJsons : List (Expr × Stmt) → List Json
  | [] => []
  | (c, s) :: rest => .arr [c.toJson, s.toJson] :: Stmt.branchJsons rest

def CaseAlternative.toJson : CaseAlternative → Json
  | ⟨patterns, body⟩ =>
    .obj [("patterns", .arr (Pattern.toJsons patterns)), ("body", body.toJson)]

def CaseAlternative.toJsons : List CaseAlternative → List Json
  | [] => []
  | a :: as => a.toJson :: CaseAlternative.toJsons as

def TixeAlternative.toJson : TixeAlternative → Json
  | ⟨bind, handler⟩ => .obj [("bind", bind.toJson), ("handler", handler.toJson)]

def TixeAlternative.toJsons : List TixeAlternative → List Json
  | [] => []
  | a :: as => a.toJson :: TixeAlternative.toJsons as

end

def OperationDef.toJson (d : OperationDef) : Json :=
  .obj [("name", d.name.toJson), ("params", .arr (Pattern.toJsons d.params)),
    ("param_types", .arr (Ty.toJsons d.paramTypes)), ("result", d.result.toJson),
    ("body", d.body.toJson), ("pre", Expr.optionJson d.pre), ("is_static", .bool d.isStatic),
    ("is_pure", .bool d.isPure), ("location", d.location.toJson)]

def StateField.toJson (d : StateField) : Json :=
  .obj [("name", d.name.toJson), ("ty", d.ty.toJson), ("init", Expr.optionJson d.init)]

def StateDef.toJson (d : StateDef) : Json :=
  .obj [("name", .str d.name), ("fields", .arr (d.fields.map StateField.toJson)),
    ("location", d.location.toJson)]

def ModuleDef.toJson (d : ModuleDef) : Json :=
  .obj [("name", .str d.name), ("location", d.location.toJson),
    ("state", ofOption (d.state.map StateDef.toJson)),
      ("values", .arr (Definition.toJsons d.values)),
    ("functions", .arr (d.functions.map FunctionDef.toJson)),
    ("operations", .arr (d.operations.map OperationDef.toJson))]

def InstanceVarDef.toJson (d : InstanceVarDef) : Json :=
  .obj [("name", d.name.toJson), ("ty", d.ty.toJson), ("init", Expr.optionJson d.init),
    ("is_static", .bool d.isStatic), ("location", d.location.toJson)]

def ThreadDef.toJson : ThreadDef → Json
  | .plain body => tagged "plain" body.toJson
  | .periodic period jitter delay offset operation =>
    taggedObj "periodic" [("period", period.toJson), ("jitter", jitter.toJson),
      ("delay", delay.toJson), ("offset", offset.toJson), ("operation", operation.toJson)]
  | .sporadic minDelay maxDelay offset operation =>
    taggedObj "sporadic" [("min_delay", minDelay.toJson), ("max_delay", maxDelay.toJson),
      ("offset", offset.toJson), ("operation", operation.toJson)]

def ClassDef.toJson (d : ClassDef) : Json :=
  .obj [("name", .str d.name), ("location", d.location.toJson),
    ("instance_vars", .arr (d.instanceVars.map InstanceVarDef.toJson)),
    ("values", .arr (Definition.toJsons d.values)),
    ("functions", .arr (d.functions.map FunctionDef.toJson)),
    ("operations", .arr (d.operations.map OperationDef.toJson)),
    ("invariants", .arr (Expr.toJsons d.invariants)),
    ("thread", ofOption (d.thread.map ThreadDef.toJson))]

def Model.toJson (m : Model) : Json :=
  .obj [("modules", .arr (m.modules.map ModuleDef.toJson)),
    ("classes", .arr (m.classes.map ClassDef.toJson))]

end Animator
