import Animator.Heap.Extract

/-!
# Conversion to types

A value is converted to a static type when it is a member of it. Integral reals become integers
where an integer type asks for one, the elements of containers are converted one by one, and a
union takes the first alternative that accepts the value.
-/

namespace Animator

namespace Heap

/-- The value is no member of the type. -/
def noMember {α : Type} (h : Heap) (v : Value) (ty : Ty) : Except ValueFault α :=
  .error (.conversion (h.text v) ty.text)

/-- The integer that a value stands for, if it is not below a bound. -/
def convertInteger (h : Heap) (low : Option Int) (ty : Ty) (v : Value) : Except ValueFault Value :=
  let bounded (n : Int) : Except ValueFault Value :=
    match low with
    | some b => if n < b then h.noMember v ty else .ok (.int n)
    | none => .ok (.int n)
  match v with
  | .int n => bounded n
  | .real x =>
    match integerOfReal? x with
    | some n => bounded n
    | none => h.noMember v ty
  | _ => h.noMember v ty

mutual

def convert (h : Heap) : Ty → Value → Except ValueFault Value
  | .unknown, v => .ok (h.deref v)
  | .void, v =>
    match h.deref v with
    | .void | .voidReturn => .ok .void
    | other => h.noMember other .void
  | .bool, v =>
    match h.deref v with
    | .bool b => .ok (.bool b)
    | other => h.noMember other .bool
  | .nat, v => h.convertInteger (some 0) .nat (h.deref v)
  | .nat1, v => h.convertInteger (some 1) .nat1 (h.deref v)
  | .int, v => h.convertInteger none .int (h.deref v)
  | .real, v =>
    match h.deref v with
    | .int n => .ok (.int n)
    | .real x => .ok (.real x)
    | other => h.noMember other .real
  | .char, v =>
    match h.deref v with
    | .char c => .ok (.char c)
    | other => h.noMember other .char
  | .token, v =>
    match h.deref v with
    | .token inner => .ok (.token inner)
    | other => h.noMember other .token
  | .quote tag, v =>
    match h.deref v with
    | .quote t => if tag = t then .ok (.quote t) else h.noMember (.quote t) (.quote tag)
    | other => h.noMember other (.quote tag)
  | .seq t, v =>
    match h.deref v with
    | .seq items => return .seq (← items.mapM fun v => h.convert t v)
    | other => h.noMember other (.seq t)
  | .seq1 t, v =>
    match h.deref v with
    | .seq (item :: rest) => return .seq (← (item :: rest).mapM fun v => h.convert t v)
    | other => h.noMember other (.seq1 t)
  | .set t, v =>
    match h.deref v with
    | .set items => return h.mkSet (← items.mapM fun v => h.convert t v)
    | other => h.noMember other (.set t)
  | .product ts, v =>
    match h.deref v with
    | .tuple items =>
      if ts.length = items.length then return .tuple (← h.convertEach ts items)
      else h.noMember (.tuple items) (.product ts)
    | other => h.noMember other (.product ts)
  | .record tag, v =>
    match h.deref v with
    | .record t fields =>
      if tag = t then .ok (.record t fields) else h.noMember (.record t fields) (.record tag)
    | other => h.noMember other (.record tag)
  | .class name, v =>
    match h.deref v with
    | .object ref =>
      if ref.className = name then .ok (.object ref) else h.noMember (.object ref) (.class name)
    | other => h.noMember other (.class name)
  | .optional t, v =>
    match h.deref v with
    | .nil => .ok .nil
    | other => h.convert t other
  | .union ts, v =>
    match h.convertFirst ts (h.deref v) with
    | some w => .ok w
    | none => h.noMember (h.deref v) (.union ts)

/-- Convert each value to the type in the same place. -/
def convertEach (h : Heap) : List Ty → List Value → Except ValueFault (List Value)
  | t :: ts, v :: vs => do
    let w ← h.convert t v
    return w :: (← h.convertEach ts vs)
  | _, _ => return []

/-- Convert to the first type that accepts the value. -/
def convertFirst (h : Heap) : List Ty → Value → Option Value
  | [], _ => none
  | t :: ts, v =>
    match h.convert t v with
    | .ok w => some w
    | .error _ => h.convertFirst ts v

end

/-- Convert a value to the type of a cell and `store` it there. -/
def assign (h : Heap) (c : CellId) (v : Value) : Except ValueFault Heap :=
  match h.cells[c]? with
  | some cell => do
    let w ← h.convert cell.ty v
    return h.store c w
  | none => .error .notUpdatable

end Heap

end Animator
