import Animator.Binary64.Basic

/-!
# JSON documents

A document as it is written: the fields of an object stand in their written order and a key may
occur more than once. Numbers written as integers that fit in 64 bits are exact integers, all
others are doubles. A part may be well formed without having a value; such a part does no harm where
nobody reads it.
-/

namespace Animator

inductive Json where
  | null
  | bool (value : Bool)
  | int (value : Int)
  | real (value : Binary64)
  | str (value : String)
  | arr (items : List Json)
  | obj (fields : List (String × Json))
  /-- A well-formed part that has no value: a number too large for a double, a string with a lone
  surrogate, an object with such a string for a key, or a container nested too deep. -/
  | unreadable
  deriving Inhabited

namespace Json

/-- Why a document does not describe the thing that was wanted. -/
inductive Mismatch where
  /-- The text is not a JSON document. -/
  | malformed (rest : Nat)
  /-- Something else stands where `expected` should. -/
  | expected (what : String)
  /-- A part of a structure is missing. -/
  | missing (key : String)
  /-- A part of a structure is given twice. -/
  | repeated (key : String)
  deriving DecidableEq, Repr

def Mismatch.message : Mismatch → String
  | .malformed rest => s!"malformed document, {rest} characters before its end"
  | .expected what => s!"expected {what}"
  | .missing key => s!"missing field {key}"
  | .repeated key => s!"duplicate field {key}"

/-- The value of a key: the last one written. -/
def get? : Json → String → Option Json
  | .obj fields, key => (fields.reverse.find? (·.1 == key)).map (·.2)
  | _, _ => none

mutual

/-- One more than the number of documents inside, which bounds every descent into it. -/
def size : Json → Nat
  | .arr items => sizeItems items + 1
  | .obj fields => sizeFields fields + 1
  | _ => 1

def sizeItems : List Json → Nat
  | [] => 0
  | item :: rest => item.size + sizeItems rest

def sizeFields : List (String × Json) → Nat
  | [] => 0
  | (_, value) :: rest => value.size + sizeFields rest

end

mutual

/-- Whether every part of a document has a value. -/
def isReadable : Json → Bool
  | .unreadable => false
  | .arr items => areReadable items
  | .obj fields => haveReadable fields
  | _ => true

def areReadable : List Json → Bool
  | [] => true
  | item :: rest => item.isReadable && areReadable rest

def haveReadable : List (String × Json) → Bool
  | [] => true
  | (_, value) :: rest => value.isReadable && haveReadable rest

end

/-- Insert a key into sorted fields; a key that is there already stays. -/
def insertField (key : String) (value : Json) : List (String × Json) → List (String × Json)
  | [] => [(key, value)]
  | (k, v) :: rest =>
    if key < k then (key, value) :: (k, v) :: rest
    else if key = k then (k, v) :: rest
    else (k, v) :: insertField key value rest

mutual

/-- Sort the keys of every object and keep the last value of a repeated one. -/
def normalize : Json → Json
  | .arr items => .arr (normalizeItems items)
  | .obj fields => .obj (normalizeFields fields)
  | other => other

def normalizeItems : List Json → List Json
  | [] => []
  | item :: rest => item.normalize :: normalizeItems rest

/-- Normalise an object: insert each key in order unless a later field has it too. -/
def normalizeFields : List (String × Json) → List (String × Json)
  | [] => []
  | (key, value) :: rest => insertField key value.normalize (normalizeFields rest)

end

/-- The named parts of a structure. -/
structure Fields where
  /-- The part with a given name, if it is there. -/
  get? : String → Option Json

/-- The parts of a structure with the given field names. An object may have other keys too, but
none of the names twice; an array lists the parts in order and may stop early. -/
def fields (names : List String) : Json → Except Mismatch Fields
  | .obj given =>
    match names.find? (fun name => 1 < (given.filter (·.1 == name)).length) with
    | some name => .error (.repeated name)
    | none => .ok ⟨fun name => (given.find? (·.1 == name)).map (·.2)⟩
  | .arr given =>
    if given.length ≤ names.length then
      .ok ⟨fun name => ((names.zip given).find? (·.1 == name)).map (·.2)⟩
    else .error (.expected s!"at most {names.length} fields")
  | _ => .error (.expected "a structure")

/-- A part that must be there. -/
def Fields.required (f : Fields) (name : String) : Except Mismatch Json :=
  match f.get? name with
  | some value => .ok value
  | none => .error (.missing name)

/-- The tag and `content` of an alternative: a bare tag, or an object with the tag as its only key.
-/
def variant : Json → Except Mismatch (String × Option Json)
  | .str tag => .ok (tag, none)
  | .obj [(tag, content)] => .ok (tag, some content)
  | _ => .error (.expected "a variant")

/-- The `content` of an alternative that has one. -/
def content : Option Json → Except Mismatch Json
  | some value => .ok value
  | none => .error (.expected "a variant with content")

/-- An alternative without content may be spelt with a null content. -/
def noContent : Option Json → Except Mismatch Unit
  | none | some .null => .ok ()
  | some _ => .error (.expected "a variant without content")

def string : Json → Except Mismatch String
  | .str s => .ok s
  | _ => .error (.expected "a string")

def boolean : Json → Except Mismatch Bool
  | .bool b => .ok b
  | _ => .error (.expected "a boolean")

def integer (low high : Int) : Json → Except Mismatch Int
  | .int n =>
    if low ≤ n ∧ n ≤ high then .ok n else .error (.expected s!"an integer in {low}..{high}")
  | _ => .error (.expected "an integer")

/-- A natural below a `bound`. -/
def natural (bound : Nat) : Json → Except Mismatch Nat
  | .int n =>
    if 0 ≤ n ∧ n < bound then .ok n.toNat else .error (.expected s!"a natural below {bound}")
  | _ => .error (.expected "a natural")

def character : Json → Except Mismatch Char
  | .str s =>
    match s.toList with
    | [c] => .ok c
    | _ => .error (.expected "one character")
  | _ => .error (.expected "one character")

/-- A double, which may be written as an integer. -/
def double : Json → Except Mismatch Binary64
  | .int n => .ok (.ofInt n)
  | .real x => .ok x
  | _ => .error (.expected "a number")

def items : Json → Except Mismatch (List Json)
  | .arr values => .ok values
  | _ => .error (.expected "an array")

def pair : Json → Except Mismatch (Json × Json)
  | .arr [a, b] => .ok (a, b)
  | _ => .error (.expected "a pair")

/-- Null is no value. -/
def option : Json → Option Json
  | .null => none
  | value => some value

end Json

end Animator
