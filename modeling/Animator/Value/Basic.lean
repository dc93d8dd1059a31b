import Animator.Tree.Model
import Animator.Word

/-!
# Values

Values are plain data, except that an object is known by its number, a cell by its address, and a
routine of an object refers to that object without keeping it alive. Sets hold their members in
increasing order.
-/

namespace Animator

abbrev CellId := Nat

/-- The number of an object; the first one made is number one. -/
abbrev ObjectId := Nat

structure ObjectRef where
  id : ObjectId
  className : String
  deriving DecidableEq, Repr, Inhabited

/-- The class of the object and its number. -/
def ObjectRef.text (o : ObjectRef) : String :=
  o.className ++ "\x7b#" ++ toString o.id ++ "\x7d"

structure OperationValue where
  definition : OperationDef
  className : Option String
  /-- The object it runs on, which this reference does not keep alive. -/
  self : Option ObjectRef
  deriving Inhabited

mutual

structure FunctionValue where
  definition : FunctionDef
  /-- The bindings that were visible where a local function was defined. -/
  captured : Option (List (Name × Value))
  className : Option String
  /-- The object it runs on, which this reference does not keep alive. -/
  self : Option ObjectRef

inductive Value where
  /-- The result of a statement that produced nothing. -/
  | void
  /-- The result of a return without a value, at which blocks and loops stop. -/
  | voidReturn
  | nil
  | bool (value : Bool)
  | int (value : Int)
  | real (value : Binary64)
  | char (value : Char)
  | quote (tag : String)
  | token (inner : Value)
  | seq (items : List Value)
  | set (items : List Value)
  | tuple (items : List Value)
  | record (tag : String) (fields : List (String × Value))
  | object (ref : ObjectRef)
  | function (func : FunctionValue)
  | operation (op : OperationValue)
  /-- A cell, standing for its content. -/
  | updatable (cell : CellId)

end

instance : Inhabited Value := ⟨.void⟩

/-- Names with their values, in the order of the names. -/
abbrev Bindings := List (Name × Value)

namespace Bindings

def get? (b : Bindings) (name : Name) : Option Value :=
  (b.find? (·.1 == name)).map (·.2)

/-- Bind a name, replacing what it was bound to. -/
def insert (name : Name) (value : Value) : Bindings → Bindings
  | [] => [(name, value)]
  | (n, v) :: rest =>
    match name.compare n with
    | .lt => (name, value) :: (n, v) :: rest
    | .eq => (name, value) :: rest
    | .gt => (n, v) :: insert name value rest

/-- Bind several names, one after the other. -/
def insertAll (matched : List (Name × Value)) (b : Bindings) : Bindings :=
  matched.foldl (fun b (name, value) => insert name value b) b

end Bindings

namespace Value

def ofLiteral : Literal → Value
  | .nil => .nil
  | .bool b => .bool b
  | .int n => .int n
  | .real x => .real x
  | .char c => .char c
  | .text s => .seq (s.toList.map .char)
  | .quote tag => .quote tag

def ofText (s : String) : Value :=
  .seq (s.toList.map .char)

/-- Whether a statement with this result lets its block go on. -/
def isVoid : Value → Bool
  | .void => true
  | _ => false

/-- The kind of a value, in words. -/
def kindName : Value → String
  | .void | .voidReturn => "void"
  | .nil => "nil"
  | .bool _ => "bool"
  | .int _ => "int"
  | .real _ => "real"
  | .char _ => "char"
  | .quote _ => "quote"
  | .token _ => "token"
  | .seq _ => "seq"
  | .set _ => "set"
  | .tuple _ => "tuple"
  | .record _ _ => "record"
  | .object _ => "object"
  | .function _ => "function"
  | .operation _ => "operation"
  | .updatable _ => "updatable"

/-- The characters of a sequence that has nothing else in it. -/
def chars? : List Value → Option (List Char)
  | [] => some []
  | .char c :: rest => (chars? rest).map (c :: ·)
  | _ :: _ => none

/-- The integers that fit in 64 bits. -/
def inIntRange (n : Int) : Bool :=
  decide (Word.minInt ≤ n ∧ n ≤ Word.maxInt)

end Value

end Animator
