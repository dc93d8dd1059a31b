import Animator.Eval.Expr
import Animator.Eval.Stmt

/-!
# Running

Evaluation with a bound on the nesting of evaluations and on the rounds of loops. An evaluation that
reaches the bound ends as exhausted; any larger bound gives every other outcome again.
-/

namespace Animator

mutual

def evalExpr (P : Program) : Nat → Expr → Context → Eval Value
  | 0, _, _ => throw .exhausted
  | n + 1, e, ctx => Engine.evalExpr ⟨P, n, evalExpr P n, evalStmt P n⟩ e ctx

def evalStmt (P : Program) : Nat → Stmt → Context → Eval Value
  | 0, _, _ => throw .exhausted
  | n + 1, s, ctx => Engine.evalStmt ⟨P, n, evalExpr P n, evalStmt P n⟩ s ctx

end

/-- The `engine` of a program with a `bound`. -/
def Program.engine (P : Program) (bound : Nat) : Engine :=
  ⟨P, bound, evalExpr P bound, evalStmt P bound⟩

end Animator
