import Animator.Value.Basic

/-!
# The order of values

The order that sets are kept in and that equality is read off: values that compare equal are equal.
Values of different kinds are ordered by kind. Integers and reals are one kind and compare as
numbers, two integers exactly and an integer with a real as doubles. Objects compare by identity,
routines by name.
-/

namespace Animator

namespace Value

/-- The place of the kind of a value in the order of values. -/
def rank : Value → Nat
  | .nil => 0
  | .bool _ => 1
  | .int _ => 2
  | .real _ => 2
  | .char _ => 3
  | .quote _ => 4
  | .token _ => 5
  | .seq _ => 6
  | .set _ => 7
  | .tuple _ => 8
  | .record _ _ => 9
  | .object _ => 10
  | .function _ => 11
  | .operation _ => 12
  | .void => 13
  | .voidReturn => 14
  | .updatable _ => 15

mutual

/-- Compare two values without cells. -/
def compare : Value → Value → Ordering
  | .bool a, .bool b => Ord.compare a b
  | .int a, .int b => Ord.compare a b
  | .int a, .real b => (Binary64.ofInt a).totalCompare b
  | .real a, .int b => a.totalCompare (Binary64.ofInt b)
  | .real a, .real b => a.totalCompare b
  | .char a, .char b => Ord.compare a b
  | .quote a, .quote b => Ord.compare a b
  | .token a, .token b => a.compare b
  | .seq a, .seq b => compareLists a b
  | .set a, .set b => compareLists a b
  | .tuple a, .tuple b => compareLists a b
  | .record s a, .record t b => (Ord.compare s t).then (compareFields a b)
  | .object a, .object b => Ord.compare a.id b.id
  | .function f, .function g => f.definition.name.compare g.definition.name
  | .operation f, .operation g => f.definition.name.compare g.definition.name
  | a, b => Ord.compare a.rank b.rank

def compareLists : List Value → List Value → Ordering
  | [], [] => .eq
  | [], _ :: _ => .lt
  | _ :: _, [] => .gt
  | a :: as, b :: bs => (a.compare b).then (compareLists as bs)

/-- Compare the values of record fields lexicographically; the names of the fields do not count. -/
def compareFields : List (String × Value) → List (String × Value) → Ordering
  | [], [] => .eq
  | [], _ :: _ => .lt
  | _ :: _, [] => .gt
  | (_, a) :: as, (_, b) :: bs => (a.compare b).then (compareFields as bs)

end

mutual

/-- Replace every cell in a value, except those inside functions. -/
def mapCells (cell : CellId → Value) : Value → Value
  | .token v => .token (v.mapCells cell)
  | .seq items => .seq (mapCellsList cell items)
  | .set items => .set (mapCellsList cell items)
  | .tuple items => .tuple (mapCellsList cell items)
  | .record tag fields => .record tag (mapCellsFields cell fields)
  | .updatable c => cell c
  | v => v

def mapCellsList (cell : CellId → Value) : List Value → List Value
  | [] => []
  | v :: vs => v.mapCells cell :: mapCellsList cell vs

def mapCellsFields (cell : CellId → Value) : List (String × Value) → List (String × Value)
  | [] => []
  | (name, v) :: rest => (name, v.mapCells cell) :: mapCellsFields cell rest

end

end Value

/-! ### Sorted lists -/

namespace Value

/-- Insert into a decreasing list, behind the elements that come later. -/
def insertDown (cmp : Value → Value → Ordering) (x : Value) : List Value → List Value
  | [] => [x]
  | y :: ys => if cmp x y = .lt then y :: insertDown cmp x ys else x :: y :: ys

/-- Put values into increasing order; values that compare equal keep their order. -/
def sort (cmp : Value → Value → Ordering) (items : List Value) : List Value :=
  (items.foldl (fun sorted x => insertDown cmp x sorted) []).reverse

/-- Drop the values that equal the last one kept. -/
def dropRepeated (cmp : Value → Value → Ordering) (last : Value) : List Value → List Value
  | [] => []
  | x :: xs => if cmp x last = .eq then dropRepeated cmp last xs else x :: dropRepeated cmp x xs

/-- The `members` of a set: increasing, each once. -/
def members (cmp : Value → Value → Ordering) (items : List Value) : List Value :=
  match sort cmp items with
  | [] => []
  | x :: xs => x :: dropRepeated cmp x xs

/-- Halve the range of candidates until one is left, and look at that one. -/
def searchFrom (place : Value → Ordering) (items : Array Value) : Nat → Nat → Nat → Bool
  | 0, _, _ => false
  | fuel + 1, base, size =>
    if size ≤ 1 then
      match items[base]? with
      | some x => place x == .eq
      | none => false
    else
      let half := size / 2
      let mid := base + half
      let above : Bool := match items[mid]? with
        | some x => place x == .gt
        | none => true
      searchFrom place items fuel (if above then base else mid) (size - half)

/-- Whether an increasing list has an element in the sought place. -/
def search (place : Value → Ordering) (items : List Value) : Bool :=
  let candidates := items.toArray
  searchFrom place candidates (candidates.size + 1) 0 candidates.size

end Value

end Animator
