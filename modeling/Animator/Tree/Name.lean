/-!
# Types and names

The static types that values are converted to, and the resolved names of a model: defining module
or class, text, and for overloaded routines the types of the parameters. Names are ordered by
module, then text, then signature, and members of scopes are listed in that order.
-/

namespace Animator

inductive Ty where
  | bool
  | nat
  | nat1
  | int
  | real
  | char
  | token
  | quote (tag : String)
  | seq (item : Ty)
  | seq1 (item : Ty)
  | set (item : Ty)
  | product (items : List Ty)
  | record (tag : String)
  | class (name : String)
  | optional (item : Ty)
  | union (alternatives : List Ty)
  | void
  | unknown
  deriving Inhabited

namespace Ty

mutual

/-- The type as it is written in messages. -/
def text : Ty → String
  | .bool => "bool"
  | .nat => "nat"
  | .nat1 => "nat1"
  | .int => "int"
  | .real => "real"
  | .char => "char"
  | .token => "token"
  | .quote tag => "<" ++ tag ++ ">"
  | .seq t => "seq of " ++ t.text
  | .seq1 t => "seq1 of " ++ t.text
  | .set t => "set of " ++ t.text
  | .product ts => "(" ++ " * ".intercalate (texts ts) ++ ")"
  | .record tag => tag
  | .class name => name
  | .optional t => "[" ++ t.text ++ "]"
  | .union ts => "(" ++ " | ".intercalate (texts ts) ++ ")"
  | .void => "()"
  | .unknown => "?"

def texts : List Ty → List String
  | [] => []
  | t :: ts => t.text :: texts ts

end

/-- The place of the kind of type in the order of types. -/
def rank : Ty → Nat
  | .bool => 0
  | .nat => 1
  | .nat1 => 2
  | .int => 3
  | .real => 4
  | .char => 5
  | .token => 6
  | .quote _ => 7
  | .seq _ => 8
  | .seq1 _ => 9
  | .set _ => 10
  | .product _ => 11
  | .record _ => 12
  | .class _ => 13
  | .optional _ => 14
  | .union _ => 15
  | .void => 16
  | .unknown => 17

mutual

/-- Types are ordered by kind, then by their parts. -/
def compare : Ty → Ty → Ordering
  | .quote a, .quote b => Ord.compare a b
  | .seq a, .seq b => a.compare b
  | .seq1 a, .seq1 b => a.compare b
  | .set a, .set b => a.compare b
  | .product a, .product b => compareLists a b
  | .record a, .record b => Ord.compare a b
  | .class a, .class b => Ord.compare a b
  | .optional a, .optional b => a.compare b
  | .union a, .union b => compareLists a b
  | a, b => Ord.compare a.rank b.rank

/-- Lists of types are ordered lexicographically. -/
def compareLists : List Ty → List Ty → Ordering
  | [], [] => .eq
  | [], _ :: _ => .lt
  | _ :: _, [] => .gt
  | a :: as, b :: bs => (a.compare b).then (compareLists as bs)

end

mutual

/-- The order `compare` tells different types apart. -/
theorem compare_eq_iff : ∀ a b : Ty, a.compare b = .eq ↔ a = b
  | .quote a, b => by cases b <;> simp [compare, rank]
  | .seq a, b => by cases b <;> simp [compare, rank, compare_eq_iff a]
  | .seq1 a, b => by cases b <;> simp [compare, rank, compare_eq_iff a]
  | .set a, b => by cases b <;> simp [compare, rank, compare_eq_iff a]
  | .product a, b => by cases b <;> simp [compare, rank, compareLists_eq_iff a]
  | .record a, b => by cases b <;> simp [compare, rank]
  | .class a, b => by cases b <;> simp [compare, rank]
  | .optional a, b => by cases b <;> simp [compare, rank, compare_eq_iff a]
  | .union a, b => by cases b <;> simp [compare, rank, compareLists_eq_iff a]
  | .bool, b => by cases b <;> simp [compare, rank]
  | .nat, b => by cases b <;> simp [compare, rank]
  | .nat1, b => by cases b <;> simp [compare, rank]
  | .int, b => by cases b <;> simp [compare, rank]
  | .real, b => by cases b <;> simp [compare, rank]
  | .char, b => by cases b <;> simp [compare, rank]
  | .token, b => by cases b <;> simp [compare, rank]
  | .void, b => by cases b <;> simp [compare, rank]
  | .unknown, b => by cases b <;> simp [compare, rank]

/-- The order `compareLists` tells different lists of types apart. -/
theorem compareLists_eq_iff : ∀ as bs : List Ty, compareLists as bs = .eq ↔ as = bs
  | [], [] => by simp [compareLists]
  | [], _ :: _ => by simp [compareLists]
  | _ :: _, [] => by simp [compareLists]
  | a :: as, b :: bs => by
    simp [compareLists, Ordering.then_eq_eq, compare_eq_iff a, compareLists_eq_iff as]

end

instance : DecidableEq Ty := fun a b => decidable_of_iff _ (compare_eq_iff a b)

end Ty

/-- A resolved name. Names with the same text and different signatures are different. -/
structure Name where
  module : String
  text : String
  signature : Option (List Ty) := none
  deriving DecidableEq, Inhabited

namespace Name

/-- Absent signatures come before present ones. -/
def compareSignatures : Option (List Ty) → Option (List Ty) → Ordering
  | none, none => .eq
  | none, some _ => .lt
  | some _, none => .gt
  | some a, some b => Ty.compareLists a b

/-- Names are ordered by module, text and `signature`. -/
def compare (a b : Name) : Ordering :=
  (Ord.compare a.module b.module).then
    ((Ord.compare a.text b.text).then (compareSignatures a.signature b.signature))

/-- The same name without its `signature`. -/
def unqualified (n : Name) : Name :=
  { n with signature := none }

/-- Module and text, followed by the `signature` if there is one. -/
def display (n : Name) : String :=
  let base := n.module ++ "`" ++ n.text
  match n.signature with
  | some types => base ++ "(" ++ ", ".intercalate (Ty.texts types) ++ ")"
  | none => base

end Name

end Animator
