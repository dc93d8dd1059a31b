import Animator.Proofs.Coupling.Mask
import Animator.Proofs.Logic.Entry

/-!
# Evaluations that are related part by part

If a relation between evaluations is respected by every part that constructs consist of (`Part`)
then it is respected by the larger pieces that are made of them: variables, assignments, operations
given from outside, and statements with a fixed cost. So it is a logic (`Parts.logic`).
-/

namespace Animator

/-- Go on with the answer of an operation given from outside. -/
def Engine.answered (E : Engine) (args : List Value) (self : Option ObjectRef) (location : Location)
    (c : Context) : Option (Except String Value) → Eval (Option Value)
  | none => return none
  | some (.error message) =>
    E.fail .notYetSpecified message location (c.holdAll (self.toList.map .object ++ args))
  | some (.ok v) => return some v

theorem Engine.delegate_eq_invoke (E : Engine) (owner : String) (operation : Name)
    (args : List Value) (self : Option ObjectRef) (location : Location) (c : Context) :
    E.delegate owner operation args self location c =
      Eval.invoke E.program.delegates { owner, operation, args, self, thread := c.thread } >>=
        E.answered args self location c := by
  funext m
  let call : DelegateCall := { owner, operation, args, self, thread := c.thread }
  rw [E.delegate_apply]
  rcases hfound : E.program.delegates.invoke m.heap m.scheduler call with
    _ | message | ⟨v, heap, scheduler⟩
  · have hrun : Eval.invoke E.program.delegates call m = (.ok none, m) := by
      rw [Eval.invoke, hfound]
    rw [bind_of_ok hrun]
    rfl
  · have hrun : Eval.invoke E.program.delegates call m = (.ok (some (.error message)), m) := by
      rw [Eval.invoke, hfound]
    rw [bind_of_ok hrun]
    rfl
  · have hrun : Eval.invoke E.program.delegates call m =
        (.ok (some (.ok v)), { m with heap, scheduler }) := by rw [Eval.invoke, hfound]
    rw [bind_of_ok hrun]
    rfl

theorem Thread.isPure_of_eq {t t' : Thread} (h : t = t') : t'.isPure = t.isPure := by
  rw [h]

/-- A relation between evaluations that every part respects. -/
structure Parts (E E' : Engine) extends Flow .all E E' where
  -- The engines.
  expr {e : Expr} {c c' : Context} : Ctx c c' → Holds Eq (E.expr e c) (E'.expr e c')
  stmt {s : Stmt} {c c' : Context} : Ctx c c' → Holds Eq (E.stmt s c) (E'.stmt s c')
  logs : E'.settings.logInstanceChanges = E.settings.logInstanceChanges
  delegates : E'.program.delegates = E.program.delegates
  -- Contexts.
  onThread {c c' : Context} : Ctx c c' → c'.thread = c.thread
  resolves {c c' : Context} : Ctx c c' → ∀ g heap name, c.lookup g heap name = c'.lookup g heap name
  scope {c c' : Context} (title : String) (location : Location) (root : Option Root) : Ctx c c' →
    Holds Ctx
      (do return { c with
        inner := ⟨← Eval.freshContext, title, location, [], root⟩, outer := c.scopes })
      (do return { c' with
        inner := ⟨← Eval.freshContext, title, location, [], root⟩, outer := c'.scopes })
  -- Parts.
  isPure {t t' : Thread} : Threads t t' → t'.isPure = t.isPure
  part {α : Type} {x : Eval α} : Part x → Holds Eq x x
  timed {α : Type} {Q : α → α → Prop} {x y : Eval α} (id : ThreadId) : Holds Q x y →
    Holds Q (Eval.bracket (Guard.timed.enter id) (Guard.timed.leave id) x)
      (Eval.bracket (Guard.timed.enter id) (Guard.timed.leave id) y)

namespace Parts

variable {E E' : Engine} (B : Parts E E') {c c' i i' : Context} {location : Location}

theorem heap : B.Holds Eq Eval.heap Eval.heap :=
  B.part (.reads fun _ => rfl)

theorem lift {α : Type} (result : Except ValueFault α) (hc : B.Ctx c c') :
    B.Holds Eq (E.lift result location c) (E'.lift result location c') := by
  cases result with
  | ok a => exact B.pure rfl
  | error fault => exact B.fail hc

theorem newVariable {init : Option Expr} {ty : Ty} {owner : Option CellOwner} (hc : B.Ctx c c') :
    B.Holds Eq (E.newVariable init ty owner location c)
      (E'.newVariable init ty owner location c') := by
  refine B.bindEq ?_ fun value => B.part (.newCell _)
  cases init with
  | none => exact B.pure rfl
  | some e =>
    exact B.bindEq (B.expr hc) fun v => B.bindEq B.heap fun h => B.lift _ (B.holdAll [v] hc)

theorem logChange {cell : CellId} (hc : B.Ctx c c') :
    B.Holds Eq (E.logChange cell c) (E'.logChange cell c') := by
  refine B.bind (B.thread hc) fun t t' ht => ?_
  rw [B.logs, B.isPure ht, B.onThread hc]
  split
  · refine B.bindEq B.heap fun h => ?_
    split
    · exact B.part (.log _ _)
    · exact B.pure rfl
  · exact B.pure rfl

theorem write {cell : CellId} {path : List Segment} {v : Value} (hi : B.Ctx i i')
    (hc : B.Ctx c c') :
    B.Holds Eq (E.write cell path v location i c) (E'.write cell path v location i' c') := by
  unfold Engine.write
  rw [B.onThread hc]
  refine B.bindEq (B.part (.noteChanges _ _ _ _)) fun _ => ?_
  exact B.bindEq (B.bindEq (B.part (.store _ _ _)) fun result => B.lift result hi) fun _ =>
    B.logChange hc

theorem delegate {owner : String} {operation : Name} {args : List Value} {self : Option ObjectRef}
    (hc : B.Ctx c c') :
    B.Holds Eq (E.delegate owner operation args self location c)
      (E'.delegate owner operation args self location c') := by
  rw [E.delegate_eq_invoke, E'.delegate_eq_invoke, B.delegates, B.onThread hc]
  refine B.bindEq (B.part (.invoke _ _)) fun answer => ?_
  rcases answer with _ | message | v
  · exact B.pure rfl
  · exact B.fail (B.holdAll _ hc)
  · exact B.pure rfl

theorem charge (id : ThreadId) (duration : Nat) :
    B.Holds Eq (Eval.charge id duration) (Eval.charge id duration) := by
  refine B.bindEq (B.part (.fits id duration)) fun fits => ?_
  refine B.bindEq (B.part (.charge id duration)) fun _ => ?_
  cases fits with
  | true => exact B.pure rfl
  | false => exact B.exhausted

theorem spend {cost : Engine.Cost} {amount : Nat} {body : Stmt} (hc : B.Ctx c c') :
    B.Holds Eq (E.spend cost amount body c) (E'.spend cost amount body c') := by
  have hpass : ∀ duration, B.Holds Eq (E.spending duration body c)
      (E'.spending duration body c') := by
    intro duration
    unfold Engine.spending
    rw [B.onThread hc]
    refine B.bindEq (B.timed c.thread (B.stmt hc)) fun v => ?_
    exact B.bindEq (B.charge _ _) fun _ => B.pure rfl
  refine B.bindEq (B.onThread hc ▸ B.part (.isTimed _)) fun timed => ?_
  cases timed with
  | true => exact B.stmt hc
  | false =>
    cases cost with
    | cycles => exact B.bindEq (B.onThread hc ▸ B.part (.duration _ amount)) hpass
    | duration => exact hpass amount

/-- A relation that every part respects is a `logic`. -/
def logic : Logic .all E E' where
  toFlow := B.toFlow
  expr _ hc := B.same (B.expr hc) Value.from_all
  stmt _ hc := B.same (B.stmt hc) Value.from_all
  derive hc := B.scope _ _ none hc
  frame hc _ := B.scope _ _ (some _) hc
  heap := B.same B.heap Heap.from_all
  lookup hc := by
    unfold Eval.lookup
    simp only [B.resolves hc]
    exact B.same (B.part (.reads fun _ => rfl)) fun _ _ _ => (Value.from_all _).bound
  classScope := B.same (B.part (.reads fun _ => rfl)) fun _ _ _ => Origin.class_all _
  timeLimit := B.part .timeLimit
  time hc := B.onThread hc ▸ B.part (.time _)
  routineKind := B.part (.reads fun _ => rfl)
  newVariable _ _ hc := B.same (B.newVariable hc) fun v => (Value.from_all v).bound
  write hi hc _ := B.write hi hc
  delegate hc _ := B.same (B.delegate hc) fun _ _ _ => Value.from_all _
  spawn hc _ := B.onThread hc ▸ B.part (.spawn _ _ _)
  stop := B.part (.stop _)

theorem spends : B.logic.Spends :=
  fun _ hc => B.same (B.spend hc) Value.from_all

theorem evalExpr (e : Expr) (hc : B.Ctx c c') : B.Holds Eq (E.evalExpr e c) (E'.evalExpr e c') :=
  B.eq_of_same (B.logic.evalExpr hc trivial (Origin.closed_all.expr e trivial))

theorem evalStmt (s : Stmt) (hfaithful : s.kind.handles = true → B.logic.Faithful)
    (hc : B.Ctx c c') : B.Holds Eq (E.evalStmt s c) (E'.evalStmt s c') :=
  B.eq_of_same (B.logic.evalStmt hc (fun _ => B.spends) hfaithful trivial
    (Origin.closed_all.stmt s trivial))

end Parts

end Animator
