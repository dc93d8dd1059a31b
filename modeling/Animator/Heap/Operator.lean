import Animator.Heap.Extract

/-!
# Operators

The operators of the language on values. Integer arithmetic is exact as long as the result fits in
64 bits and continues in reals beyond; comparison of an integer with a real is between doubles.
-/

namespace Animator

namespace Heap

/-- An integer if it fits, else a `real` in its place. -/
def intOr (n : Int) (x : Binary64) : Value :=
  if Value.inIntRange n then .int n else .real x

def unary (h : Heap) (op : UnaryOp) (v : Value) : Except ValueFault Value :=
  match op with
  | .neg =>
    match v with
    | .int n => .ok (intOr (-n) (-(.ofInt n)))
    | _ => return .real (-(← h.number v))
  | .not => return .bool (!(← h.boolean v))
  | .abs =>
    match v with
    | .int n => .ok (intOr n.natAbs (Binary64.ofInt n).abs)
    | _ => return .real (← h.number v).abs
  | .floor => do
    let x ← h.number v
    return .int (x.clampInto Word.minInt Word.maxInt x.floor?)
  | .card => return .int (← h.setItems v).length
  | .len => return .int (← h.seqItems v).length
  | .elems => return h.mkSet (← h.seqItems v)
  | .inds => do
    let length := (← h.seqItems v).length
    return h.mkSet ((List.range length).map fun (i : Nat) => .int (i + 1))
  | .hd => do
    match ← h.seqItems v with
    | item :: _ => return item
    | [] => throw (.emptySequence "hd")
  | .tl => do
    match ← h.seqItems v with
    | _ :: rest => return .seq rest
    | [] => throw (.emptySequence "tl")

/-- Two integers with an exact result that may not fit, or any two numbers. -/
def arithmetic (h : Heap) (exact : Int → Int → Int)
    (rounded : Binary64 → Binary64 → Binary64) (l r : Value) : Except ValueFault Value := do
  let approximate := do
    let a ← h.number l
    let b ← h.number r
    return Value.real (rounded a b)
  match l, r with
  | .int a, .int b => if Value.inIntRange (exact a b) then return .int (exact a b) else approximate
  | _, _ => approximate

def numericCompare (h : Heap) (l r : Value) : Except ValueFault Ordering :=
  match l, r with
  | .int a, .int b => .ok (Ord.compare a b)
  | _, _ => do
    let a ← h.number l
    let b ← h.number r
    return a.totalCompare b

/-- Two integers to divide, the second not zero. -/
def divisionOperands (h : Heap) (l r : Value) : Except ValueFault (Int × Int) := do
  let a ← h.integer l
  let b ← h.integer r
  if b = 0 then throw .divisionByZero
  return (a, b)

/-- The remainder with the sign of the divisor. -/
def modulo (a b : Int) : Int :=
  let m := a.tmod b
  if m ≠ 0 ∧ (m < 0) ≠ (b < 0) then m + b else m

/-- Division: an integer if the division is exact and the quotient fits, else a `real`. -/
def divide (h : Heap) (l r : Value) : Except ValueFault Value := do
  let d ← h.number r
  if d.isZero then throw .divisionByZero
  let approximate := do
    let n ← h.number l
    return Value.real (n / d)
  match l, r with
  | .int a, .int b =>
    if a.tmod b = 0 ∧ Value.inIntRange (a.tdiv b) then return .int (a.tdiv b) else approximate
  | _, _ => approximate

/-- The members of a set that a second set has, or those that it does not have. -/
def partition (h : Heap) (keep : Bool) (l r : Value) : Except ValueFault (List Value) := do
  let right := h.mkSet (← h.setItems r)
  (← h.setItems l).filterM fun item => return (← h.contains right item) == keep

/-- Operators on two values. The logical ones are those on operands that are both evaluated. -/
def binary (h : Heap) (op : BinaryOp) (l r : Value) : Except ValueFault Value :=
  match op with
  | .add => h.arithmetic (· + ·) (· + ·) l r
  | .sub => h.arithmetic (· - ·) (· - ·) l r
  | .mul => h.arithmetic (· * ·) (· * ·) l r
  | .div => h.divide l r
  | .intDiv => do
    let (a, b) ← h.divisionOperands l r
    return intOr (a.tdiv b) (.ofInt (a.tdiv b))
  | .rem => do
    let (a, b) ← h.divisionOperands l r
    return .int (a.tmod b)
  | .mod => do
    let (a, b) ← h.divisionOperands l r
    return .int (modulo a b)
  | .lt => return .bool ((← h.numericCompare l r) == .lt)
  | .le => return .bool ((← h.numericCompare l r) != .gt)
  | .gt => return .bool ((← h.numericCompare l r) == .gt)
  | .ge => return .bool ((← h.numericCompare l r) != .lt)
  | .eq => .ok (.bool (h.equal l r))
  | .ne => .ok (.bool (!h.equal l r))
  | .and => do
    if ← h.boolean l then return .bool (← h.boolean r) else return .bool false
  | .or => do
    if ← h.boolean l then return .bool true else return .bool (← h.boolean r)
  | .implies => do
    if ← h.boolean l then return .bool (← h.boolean r) else return .bool true
  | .inSet => return .bool (← h.contains r l)
  | .notInSet => return .bool (!(← h.contains r l))
  | .union => do
    let left ← h.setItems l
    return h.mkSet (left ++ (← h.setItems r))
  | .inter => return h.mkSet (← h.partition true l r)
  | .difference => return h.mkSet (← h.partition false l r)
  | .subset => do
    let missing ← h.partition false l r
    return .bool missing.isEmpty
  | .concat => do
    let left ← h.seqItems l
    return .seq (left ++ (← h.seqItems r))

end Heap

end Animator
