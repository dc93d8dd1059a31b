import Animator.Heap.Basic

/-!
# Pattern matching and the values of binds

A pattern either does not match a value or binds its names, in the order in which they occur. A name
that occurs twice must stand for equal values.
-/

namespace Animator

/-- The names bound by a match, in pattern order. -/
abbrev Matched := List (Name × Value)

namespace Heap

/-- Bind a name, unless it is bound to a different value already. -/
def bindName? (h : Heap) (found : Matched) (name : Name) (v : Value) : Option Matched :=
  match found.find? (·.1 == name) with
  | some (_, existing) => if h.equal existing v then some found else none
  | none => some (found ++ [(name, v)])

mutual

/-- Match a value, adding to the names already bound. -/
def collect? (h : Heap) : Pattern → Value → Matched → Option Matched
  | ⟨_, kind⟩, v, found => h.collectKind? kind v found

def collectKind? (h : Heap) : PatternKind → Value → Matched → Option Matched
  | .ignore, _, found => some found
  | .ident name, v, found => h.bindName? found name v
  | .literal value, v, found => if h.equal (.ofLiteral value) v then some found else none
  | .tuple ps, v, found =>
    match v with
    | .tuple vs => h.collectEach? ps vs found
    | _ => none
  | .seq ps, v, found =>
    match v with
    | .seq vs => h.collectEach? ps vs found
    | _ => none
  | .record tag ps, v, found =>
    match v with
    | .record t fields => if tag = t then h.collectEach? ps (fields.map (·.2)) found else none
    | _ => none

/-- Match as many values as there are patterns, one by one. -/
def collectEach? (h : Heap) : List Pattern → List Value → Matched → Option Matched
  | [], [], found => some found
  | p :: ps, v :: vs, found =>
    match h.collect? p v found with
    | some found => h.collectEach? ps vs found
    | none => none
  | _, _, _ => none

end

def match? (h : Heap) (p : Pattern) (v : Value) : Option Matched :=
  h.collect? p (h.deref v) []

/-- Put two matches together, unless they disagree on a name. -/
def merge? (h : Heap) (left right : Matched) : Option Matched :=
  right.foldlM (fun found (name, v) => h.bindName? found name v) left

/-- Extend each partial match by each candidate that fits. -/
def extend (h : Heap) (partials : List Matched) (p : Pattern) (values : List Value) :
    List Matched :=
  partials.flatMap fun found =>
    values.filterMap fun v => (h.match? p v).bind (h.merge? found)

/-- Extend partial matches by one candidate for each `Pattern`, as long as there are any. -/
def extendAll (h : Heap) (partials : List Matched) : List (Pattern × List Value) → List Matched
  | [] => partials
  | (p, values) :: rest =>
    let next := h.extend partials p values
    if next.isEmpty then next else h.extendAll next rest

/-- All consistent matches of one candidate for each `Pattern`. -/
def combinations (h : Heap) (candidates : List (Pattern × List Value)) : List Matched :=
  h.extendAll [[]] candidates

end Heap

namespace Ty

mutual

/-- All values of a type with finitely many of them. -/
def values? : Ty → Option (List Value)
  | .bool => some [.bool false, .bool true]
  | .quote tag => some [.quote tag]
  | .optional t => (t.values?).map (.nil :: ·)
  | .union ts => valuesOfAny? ts
  | .product ts => (tuples? ts).map (·.map .tuple)
  | _ => none

/-- The values of several types, one type after the other. -/
def valuesOfAny? : List Ty → Option (List Value)
  | [] => some []
  | t :: ts =>
    match t.values?, valuesOfAny? ts with
    | some vs, some rest => some (vs ++ rest)
    | _, _ => none

/-- All lists with one value of each type; the last one varies fastest. -/
def tuples? : List Ty → Option (List (List Value))
  | [] => some [[]]
  | t :: ts =>
    match t.values?, tuples? ts with
    | some vs, some rest => some (vs.flatMap fun v => rest.map (v :: ·))
    | _, _ => none

end

end Ty

end Animator
