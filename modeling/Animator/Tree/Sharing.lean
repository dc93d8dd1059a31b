import Animator.Tree.Model

/-!
# Shared hit counters

A call of an object's operation often has the same place as the expression for the object. The two
may then count into one total, so that a call counts once.
-/

namespace Animator

/-- Let an object call count together with its `designator`, if that has the same place. -/
def Stmt.shareHits (s : Stmt) : Stmt :=
  match s.kind with
  | .callObject designator field args =>
    if designator.location.same s.location then
      { s with kind := .callObject { designator with location := s.location } field args }
    else s
  | _ => s

/-- Share counters in the object calls that stand directly in the `block` of an operation. -/
def OperationDef.shareHits (d : OperationDef) : OperationDef :=
  match d.body.kind with
  | .block dcls body =>
    { d with body := { d.body with kind := .block dcls (body.map Stmt.shareHits) } }
  | _ => d

/-- Share counters in the operations of all modules. -/
def Model.shareHits (m : Model) : Model :=
  { m with
    modules := m.modules.map fun d =>
      { d with operations := d.operations.map OperationDef.shareHits } }

end Animator
