import Animator.Proofs.Arithmetic.Rounding
import Animator.Proofs.Threads.Clock

/-!
# Exact results of integers

Sums, differences, products, negations and absolute values of integers are exact as long as they fit
into 64 bits. The floor of an integer and the cost of a statement go through a double: they are
exact for integers with at most 53 significant bits (`Binary64.Representable`), and they are rounded
beyond that. The greatest integer is its own floor, since the double next to it is out of range and
is cut back.
-/

namespace Animator

open Binary64

namespace Heap

variable (h : Heap) {n : Int}

theorem arithmetic_int {exact : Int → Int → Int} {rounded : Binary64 → Binary64 → Binary64}
    {a b : Int}
    (hfits : Value.inIntRange (exact a b) = true) :
    h.arithmetic exact rounded (.int a) (.int b) = .ok (.int (exact a b)) :=
  if_pos hfits

theorem floor_int (hn : Value.inIntRange n = true) :
    h.unary .floor (.int n) = .ok (.int (max Word.minInt (min Word.maxInt (nearestInt n)))) := by
  have hfloor : h.unary .floor (.int n) =
      .ok (.int ((ofInt n).clampInto Word.minInt Word.maxInt (ofInt n).floor?)) := rfl
  rw [Value.inIntRange_iff] at hn
  rw [hfloor, floor?_ofInt (by omega)]
  rfl

end Heap

/-- Only the greatest integer is rounded by `nearestInt` to a double out of range and cut back to
itself. -/
theorem Binary64.clamped_nearestInt_iff {n : Int} (hn : Value.inIntRange n = true) :
    max Word.minInt (min Word.maxInt (nearestInt n)) = n ↔
      Representable n.natAbs ∨ n = Word.maxInt := by
  rw [Value.inIntRange_iff] at hn
  have hmin : Word.minInt = -2 ^ 63 := rfl
  have hmax : Word.maxInt = 2 ^ 63 - 1 := rfl
  have hle := nearestNat_le (m := n.natAbs) (by omega)
  by_cases htop : n = Word.maxInt
  · subst htop
    exact iff_of_true (by decide +kernel) (.inr rfl)
  · rw [← nearestInt_eq_self_iff, or_iff_left htop]
    unfold nearestInt
    split <;> omega

/-- A cost that is an integer is, as an `amount`, the natural that its nearest double stands for. -/
theorem Engine.amount_of_int {E : Engine} {e : Expr} {c : Context} {location : Location}
    {m m' : Machine} {n : Nat} (hn : n < 2 ^ 63)
    (hcost : Eval.within .atomic c.thread (E.expr e c) m = (.ok (.int n), m')) :
    E.amount e location c m = (.ok (nearestNat n), m') := by
  have hfinite : (ofInt n).isFinite = true := isFinite_ofInt (by omega)
  have hfloor : (ofInt n).floor? = some (nearestInt n) := floor?_ofInt (by omega)
  have hsign : (ofInt n).isBelowZero = false := by
    rw [isBelowZero, negative_ofInt (by omega)]
    simp
  have hprice : E.price e location c m = (.ok (ofInt n), m') := by
    let entered := m.modifyThread c.thread (·.enter .atomic)
    have hfirst : (E.expr e c entered).1 = .ok (.int n) := congrArg Prod.fst hcost
    have hvalue : E.expr e c entered = (.ok (.int n), (E.expr e c entered).2) := Prod.ext hfirst rfl
    have hnumber : (E.expr e c >>= fun v =>
        E.consultHeap (·.number v) location (c.hold v)) entered =
        (.ok (ofInt n), (E.expr e c entered).2) := bind_of_ok hvalue
    rw [price, Eval.within, Eval.bracket, hnumber]
    exact congrArg (Prod.mk _) (congrArg Prod.snd hcost)
  have hnearest : nearestInt n = nearestNat n := if_neg (by omega)
  have hle := nearestNat_le (m := n) (by omega)
  have hamount : (ofInt n).clampInto 0 (Word.size64 - 1) (ofInt n).floor? = nearestNat n := by
    have hsize : Word.size64 = 2 ^ 64 := rfl
    rw [hfloor, hnearest, clampInto, hsize]
    omega
  refine (bind_of_ok hprice).trans ?_
  rw [hsign, hfinite, hamount]
  rfl

/-- Sums, differences, products, negations and absolute values of integers are exact if they fit.
The floor of an integer is exact only if the integer has at most 53 significant bits or is the
greatest one. A statement with a `duration` that comes to its end outside of any other such
statement lets the clock go on, since its duration was evaluated, by the nearest double of the
duration. This is exact only if the duration has at most 53 significant bits. -/
theorem integer_results_exact (h : Heap) (P : Program) (bound : Nat) :
    (∀ a b : Int,
      (Value.inIntRange (a + b) → h.binary .add (.int a) (.int b) = .ok (.int (a + b))) ∧
      (Value.inIntRange (a - b) → h.binary .sub (.int a) (.int b) = .ok (.int (a - b))) ∧
      (Value.inIntRange (a * b) → h.binary .mul (.int a) (.int b) = .ok (.int (a * b))) ∧
      (Value.inIntRange (-a) → h.unary .neg (.int a) = .ok (.int (-a))) ∧
      (Value.inIntRange |a| → h.unary .abs (.int a) = .ok (.int |a|))) ∧
    (∀ n : Int, Value.inIntRange n → ∃ k : Int, h.unary .floor (.int n) = .ok (.int k) ∧
      (k = n ↔ Representable n.natAbs ∨ n = Word.maxInt)) ∧
    ∀ (e : Expr) (body s : Stmt) (c : Context) (m m₁ m₂ : Machine) (n : Nat),
      n < 2 ^ 63 → s.kind = .duration e body → m.Has c.thread →
      m.scheduler.isTimed c.thread = false →
      (P.engine bound).arrive (.stmt s) c m = (.ok (), m₁) →
      Eval.within .atomic c.thread ((P.engine bound).expr e c) m₁ = (.ok (.int n), m₂) →
      let out := (P.engine (bound + 1)).stmt s c m
      out.1.isOk →
      out.2.scheduler.time c.thread = m₂.scheduler.time c.thread + nearestNat n ∧
      (nearestNat n = n ↔ Representable n) := by
  refine ⟨fun a b => ⟨h.arithmetic_int, h.arithmetic_int, h.arithmetic_int, fun hfits => ?_,
    fun hfits => ?_⟩, fun n hn => ⟨_, h.floor_int hn, clamped_nearestInt_iff hn⟩, ?_⟩
  · exact congrArg Except.ok (if_pos hfits)
  · rw [Int.abs_eq_natAbs] at hfits ⊢
    exact congrArg Except.ok (if_pos hfits)
  · intro e body s c m m₁ m₂ n hn (hkind : s.kind = Engine.Cost.duration.kind e body) hm htimed
      harrive hcost out hok
    have hamount : (P.engine bound).amount e s.location c m₁ = (.ok (nearestNat n), m₂) :=
      Engine.amount_of_int hn hcost
    obtain ⟨hm₂, htimed₂⟩ := guardEffect.isTimed_of_amount hm harrive hamount
    have hout : out = _ := Engine.stmt_of_amount hkind harrive hamount (htimed₂.trans htimed)
    refine ⟨?_, nearestNat_eq_self_iff⟩
    rw [hout] at hok ⊢
    exact (guardEffect.spending hm₂ _).time_of_isOk hok

/-- A statement with a `duration` and nothing to do. -/
def idleFor (n : Int) : Stmt :=
  .onLine 1 (.duration (nanoseconds n) (.onLine 2 .skip))

/-- The longest duration with 53 bits is charged as it is. -/
theorem integer_results_exact_idle :
    let P : Program := { model := {} }
    let c : Context := .binding []
    let n : Nat := 9007199254740991
    let s := idleFor n
    ((P.engine (9 + 1)).stmt s c readyMachine).2.scheduler.time c.thread = n := by
  intro P c n s
  obtain ⟨-, -, hduration⟩ := integer_results_exact readyMachine.heap P 9
  have hready : readyMachine.Has c.thread ∧ readyMachine.scheduler.isTimed c.thread = false := by
    decide +kernel
  let arrived := (P.engine 9).arrive (.stmt s) c readyMachine
  have harrive : arrived.1.toOption = some () := by decide +kernel
  let priced := Eval.within .atomic c.thread ((P.engine 9).expr (nanoseconds n) c) arrived.2
  have hcost : priced = (.ok (.int n), priced.2) := Prod.ext rfl rfl
  have hended : ((P.engine (9 + 1)).stmt s c readyMachine).1.isOk = true := by decide +kernel
  obtain ⟨htime, -⟩ :=
    hduration (nanoseconds n) (.onLine 2 .skip) s c readyMachine arrived.2 priced.2
    n (by decide +kernel) rfl hready.1 hready.2 (eq_ok_of_toOption harrive) hcost hended
  have hcharged : priced.2.scheduler.time c.thread + nearestNat n = n := by decide +kernel
  exact htime.trans hcharged

/-- The first integer that is rounded, as a floor and as a duration. -/
theorem integer_results_rounded :
    readyMachine.heap.unary .floor (.int 9007199254740993) = .ok (.int 9007199254740992) ∧
      ((Program.engine { model := {} } 10).stmt (idleFor 9007199254740993) (.binding [])
        readyMachine).2.scheduler.time mainThread = 9007199254740992 :=
  ⟨rfl, by decide +kernel⟩

end Animator
