import Animator.Binary64.Decimal
import Animator.Value.Basic

/-!
# The text of values

How values are shown in messages and results. A non-empty sequence of characters is shown as a
quoted text, an integral real with one decimal place, every other real with the fewest digits that
read back.
-/

namespace Animator

def Binary64.text (x : Binary64) : String :=
  if x.isIntegral then x.fixed 1 else x.positional

namespace Value

mutual

/-- The text of a value, given the texts of the cells in it. -/
def textWith (cell : CellId → String) : Value → String
  | .void | .voidReturn => "()"
  | .nil => "nil"
  | .bool true => "true"
  | .bool false => "false"
  | .int n => toString n
  | .real x => x.text
  | .char c => "'" ++ String.singleton c ++ "'"
  | .quote tag => "<" ++ tag ++ ">"
  | .token v => "mk_token(" ++ v.textWith cell ++ ")"
  | .seq items =>
    match chars? items with
    | some (c :: cs) => "\"" ++ String.ofList (c :: cs) ++ "\""
    | _ => "[" ++ ", ".intercalate (textsWith cell items) ++ "]"
  | .set items => "\x7b" ++ ", ".intercalate (textsWith cell items) ++ "\x7d"
  | .tuple items => "mk_(" ++ ", ".intercalate (textsWith cell items) ++ ")"
  | .record tag fields =>
    "mk_" ++ tag ++ "(" ++ ", ".intercalate (fieldTextsWith cell fields) ++ ")"
  | .object ref => ref.text
  | .function func => func.definition.name.text
  | .operation op => op.definition.name.text
  | .updatable c => cell c

def textsWith (cell : CellId → String) : List Value → List String
  | [] => []
  | v :: vs => v.textWith cell :: textsWith cell vs

def fieldTextsWith (cell : CellId → String) : List (String × Value) → List String
  | [] => []
  | (_, v) :: rest => v.textWith cell :: fieldTextsWith cell rest

end

end Value

end Animator
