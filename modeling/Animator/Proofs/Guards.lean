import Animator.Proofs.Effect.Session

/-!
# Guards

A thread is under a guard while it is in a section or in a statement with a fixed cost. However an
evaluation ends, every guard that it switched on is off again; so between the steps of a session the
main thread is under no guard at all.

Under the guard of a statement with a fixed cost the clock of the thread stands still: what is
nested in such a statement costs nothing, and the statement itself is charged once, after its body.
In an atomic section no other thread gets a turn. Statements with a fixed cost are charged there as
everywhere else, and nothing but these makes time pass.
-/

namespace Animator

/-! ### What guards protect -/

def Scheduler.yields (s : Scheduler) (id : ThreadId) : Nat :=
  match s.record? id with
  | some r => r.yields
  | none => 0

/-- A thread before and after a part of an evaluation: it is under the same guards, and what these
protect is the same. -/
structure ThreadRecord.Guarded (r r' : ThreadRecord) : Prop where
  nesting : r'.nesting = r.nesting
  /-- The `clock` of a thread in a statement with a fixed cost. -/
  clock : r.timed = true → r'.clock = r.clock
  /-- The turns of a thread in an atomic section. -/
  yields : 0 < r.thread.atomicDepth → r'.yields = r.yields

namespace ThreadRecord.Guarded

variable {r r₁ r₂ : ThreadRecord}

theorem refl : r.Guarded r :=
  ⟨rfl, fun _ => rfl, fun _ => rfl⟩

theorem trans (h : r.Guarded r₁) (h' : r₁.Guarded r₂) : r.Guarded r₂ where
  nesting := h'.nesting.trans h.nesting
  clock htimed := by
    have htimed₁ : r₁.timed = true := (congrArg Nesting.timed h.nesting).trans htimed
    exact (h'.clock htimed₁).trans (h.clock htimed)
  yields hatomic := by
    have hatomic₁ : r₁.thread.atomicDepth = r.thread.atomicDepth :=
      congrArg Nesting.atomic h.nesting
    exact (h'.yields (hatomic₁ ▸ hatomic)).trans (h.yields hatomic)

theorem guard (g : Guard) (hopens : g = .timed → r.timed = false)
    (h : (g.switchOn r).Guarded r₁) : r.Guarded (g.switchOff r₁) := by
  refine ⟨?_, fun htimed => ?_, fun hatomic => ?_⟩
  · rw [(g.keeps_switchOff r₁).2.2, h.nesting, (g.keeps_switchOn r).2.2]
    exact Nesting.leave_enter hopens
  -- A guard leaves clock and turns alone, and it does not end another one.
  · cases g with
    | within s => exact h.clock htimed
    | timed => exact h.clock rfl
  · cases g with
    | within s =>
      refine h.yields ?_
      cases s with
      | atomic => exact Nat.succ_pos _
      | pure | debugging => exact hatomic
    | timed => exact h.yields hatomic

end ThreadRecord.Guarded

/-- All threads before and after a part of an evaluation. -/
def Machine.Guarded (m m' : Machine) : Prop :=
  ∀ id r, m.scheduler.record? id = some r →
    ∃ r', m'.scheduler.record? id = some r' ∧ r.Guarded r'

variable {P : Program} {o : Origin} {T : ThreadId → Prop} {Made : ObjectRef → Prop}
  {m m₁ m₂ m' : Machine} {id : ThreadId}

/-- A thread that the scheduler does not know is in no section. -/
theorem Machine.Has.of_atomicDepth (hatomic : 0 < (m.thread id).atomicDepth) : m.Has id := by
  unfold Machine.thread at hatomic
  cases hr : m.scheduler.record? id with
  | some r => exact Option.isSome_iff_exists.2 ⟨r, hr⟩
  | none =>
    rw [hr] at hatomic
    exact absurd hatomic (Nat.lt_irrefl 0)

namespace Machine.Guarded

theorem ofRecords (h : m'.scheduler.records = m.scheduler.records) : m.Guarded m' := by
  intro id r hr
  refine ⟨r, ?_, .refl⟩
  rw [← hr, Scheduler.record?, Scheduler.record?, h]

theorem trans (h : m.Guarded m₁) (h' : m₁.Guarded m₂) : m.Guarded m₂ := by
  intro id r hr
  obtain ⟨r₁, hr₁, hguarded⟩ := h id r hr
  obtain ⟨r₂, hr₂, hguarded'⟩ := h' id r₁ hr₁
  exact ⟨r₂, hr₂, hguarded.trans hguarded'⟩

theorem ofModify {f : ThreadRecord → ThreadRecord} (hid : ∀ r, (f r).thread.id = r.thread.id)
    (hf : ∀ r, m.scheduler.record? id = some r → r.Guarded (f r)) :
    m.Guarded (m.modifyRecord id f) := by
  intro id' r hr
  refine ⟨_, Machine.record?_modifyRecord _ hid hr, ?_⟩
  split
  · next hsame =>
    subst hsame
    exact hf r hr
  · exact .refl

theorem guard (g : Guard) (hopens : g.Opens id m) (h : (g.enter id m).Guarded m') :
    m.Guarded (g.leave id m') := by
  intro id' r hr
  rw [g.enter_eq] at h
  obtain ⟨r₁, hr₁, hguarded⟩ := h id' _
    (Machine.record?_modifyRecord _ (fun r => (g.keeps_switchOn r).1) hr)
  refine ⟨if id' = id then g.switchOff r₁ else r₁, ?_, ?_⟩
  · rw [g.leave_eq]
    exact Machine.record?_modifyRecord _ (fun r => (g.keeps_switchOff r).1) hr₁
  · by_cases hsame : id' = id
    · subst hsame
      rw [if_pos rfl] at hguarded ⊢
      refine .guard g (fun hg => ?_) hguarded
      -- That no such statement is on is known of the scheduler, and needed of the record.
      have htimed := hopens hg
      unfold Scheduler.isTimed at htimed
      rwa [hr] at htimed
    · rw [if_neg hsame] at hguarded ⊢
      exact hguarded

theorem isTimed (h : m.Guarded m') (hm : m.Has id) :
    m'.Has id ∧ m'.scheduler.isTimed id = m.scheduler.isTimed id := by
  obtain ⟨r, hr⟩ := Option.isSome_iff_exists.1 hm
  obtain ⟨r', hr', hguarded⟩ := h id r hr
  refine ⟨Option.isSome_iff_exists.2 ⟨r', hr'⟩, ?_⟩
  simp only [Scheduler.isTimed, hr, hr']
  exact congrArg Nesting.timed hguarded.nesting

theorem time (h : m.Guarded m') (htimed : m.scheduler.isTimed id = true) :
    m'.scheduler.time id = m.scheduler.time id := by
  unfold Scheduler.isTimed at htimed
  cases hr : m.scheduler.record? id with
  | none =>
    rw [hr] at htimed
    cases htimed
  | some r =>
    rw [hr] at htimed
    obtain ⟨r', hr', hguarded⟩ := h id r hr
    simp only [Scheduler.time, hr, hr']
    exact hguarded.clock htimed

theorem yields (h : m.Guarded m') (hatomic : 0 < (m.thread id).atomicDepth) :
    m'.scheduler.yields id = m.scheduler.yields id := by
  obtain ⟨r, hr⟩ := Option.isSome_iff_exists.1 (Machine.Has.of_atomicDepth hatomic)
  obtain ⟨r', hr', hguarded⟩ := h id r hr
  have hthread : m.thread id = r.thread := by rw [Machine.thread, hr]
  simp only [Scheduler.yields, hr, hr']
  exact hguarded.yields (hthread ▸ hatomic)

end Machine.Guarded

theorem Machine.Step.guarded (hs : m.Step P o T Made m') : m.Guarded m' := by
  intro id r hr
  obtain ⟨stopRequested, hr'⟩ := hs.record? hr
  exact ⟨_, hr', rfl, fun _ => rfl, fun _ => rfl⟩

theorem Machine.ObeyStep.guarded (hs : m.ObeyStep T m') : m.Guarded m' := by
  cases hs with
  | yieldPoint id ht hturn =>
    refine .ofModify (fun _ => rfl) fun r hr => ⟨rfl, fun _ => rfl, fun hatomic => ?_⟩
    have hthread : m.thread id = r.thread := by rw [Machine.thread, hr]
    rw [hthread] at hturn
    exact absurd hatomic (of_decide_eq_false hturn)
  | _ => exact .ofRecords rfl

/-! ### The effect -/

/-- No statement with a fixed cost is reached. -/
def Unpriced (events : List Event) : Prop :=
  ∀ s : Stmt, s.kind.isTimed = true → .visit (.stmt s) ∉ events

/-- What evaluations do to clocks and turns. In addition to what guards protect it may say that time
passes only where a statement with a fixed cost is reached. -/
def guardEffect (P : Program) (strict : Prop) : Effect P .all fun _ => True where
  Inv _ := True
  Rel m _ m' := m.Guarded m' ∧ ∃ events, m'.history = events ++ m.history ∧
    (strict → Unpriced events → ∀ id, m.Has id → m'.scheduler.time id = m.scheduler.time id)
  delegates := P.delegates_from_all
  refl _ := ⟨.ofRecords rfl, [], rfl, fun _ _ _ _ => rfl⟩
  ends _ _ := ⟨.ofRecords rfl, [], rfl, fun _ _ _ _ => rfl⟩
  trans := by
    rintro m m₁ m₂ r - ⟨hguarded, events, hhistory, htime⟩ ⟨hguarded', later, hhistory', htime'⟩
    refine ⟨hguarded.trans hguarded', later ++ events, ?_, fun hstrict hunpriced id hm => ?_⟩
    · rw [hhistory', hhistory, List.append_assoc]
    · obtain ⟨r, hr⟩ := Option.isSome_iff_exists.1 hm
      -- A thread that was known before the first part is known before the second one.
      obtain ⟨r₁, hr₁, -⟩ := hguarded id r hr
      have hlater := htime' hstrict (fun s hs h => hunpriced s hs (List.mem_append_left _ h)) id
        (Option.isSome_iff_exists.2 ⟨r₁, hr₁⟩)
      exact hlater.trans
        (htime hstrict (fun s hs h => hunpriced s hs (List.mem_append_right _ h)) id hm)
  recover h _ := h
  step := by
    rintro m m' - hs
    refine ⟨trivial, hs.guarded, [], hs.unseen.history, fun _ _ id hm => ?_⟩
    obtain ⟨r, hr⟩ := Option.isSome_iff_exists.1 hm
    obtain ⟨stopRequested, hr'⟩ := hs.record? hr
    simp only [Scheduler.time, hr, hr']
  enter _ _ _ _ _ := trivial
  leave := by
    rintro m m' r g id - - hopens - ⟨hguarded, events, hhistory, htime⟩ -
    refine ⟨trivial, hguarded.guard g hopens, events, ?_, fun hstrict hunpriced id' hm => ?_⟩
    · rw [g.unseen_leave.history, hhistory, g.unseen_enter.history]
    · rw [g.time_leave, htime hstrict hunpriced id' (g.frame_enter hm).has, g.time_enter]

namespace guardEffect

variable {strict : Prop} {E : Engine}

/-- Time that passes is charged to threads in no other statement with a fixed cost. -/
instance : (guardEffect P False).Charges where
  charge := by
    rintro m id duration - - htimed
    refine ⟨trivial, .ofModify (fun _ => rfl) fun r hr => ⟨rfl, fun hon => ?_, fun _ => rfl⟩, [],
      rfl, False.elim⟩
    unfold Scheduler.isTimed at htimed
    rw [hr] at htimed
    -- A charge is made with the flag off, and the clock is only protected while it is on.
    exact absurd (hon.symm.trans htimed) (by decide)

def inspects (P : Program) (strict : Prop) : (guardEffect P strict).Inspects where
  Watch _ := True
  swallow _ _ hi h hi' _ :=
    ((guardEffect P strict).leave (r := none) (.within .debugging) trivial trivial
      (Guard.opens_within _ _ _) hi h hi').2

theorem reports : (guardEffect P strict).Reports (inspects P strict) where
  watched _ _ _ _ := trivial
  report _ _ _ := ⟨trivial, .ofRecords rfl, [], rfl, fun _ _ _ _ => rfl⟩
  stepTo step _ _ := by
    refine ⟨trivial, .ofModify (fun _ => rfl) fun _ _ => ⟨rfl, fun _ => rfl, fun _ => rfl⟩, [], rfl,
      fun _ _ _ _ => ?_⟩
    exact Scheduler.time_modify (fun _ => rfl) fun _ => rfl
  terminate _ _ := ⟨trivial, .ofRecords rfl, [_], rfl, fun _ _ _ _ => rfl⟩

theorem checks : (guardEffect P strict).Checks (inspects P strict) where
  watched _ _ _ _ _ := trivial
  counted _ _ := ⟨trivial, .ofRecords rfl, [_], rfl, fun _ _ _ _ => rfl⟩
  step := by
    rintro m m' - hs
    refine ⟨trivial, hs.guarded, ?_⟩
    cases hs with
    | returned => exact ⟨[_], rfl, fun _ _ _ _ => rfl⟩
    | request | breakpoint => exact ⟨[], rfl, fun _ _ _ _ => rfl⟩
    | yieldPoint =>
      exact ⟨[], rfl, fun _ _ _ _ => Scheduler.time_modify (fun _ => rfl) fun _ => rfl⟩
  unwind _ _ _ _ := ⟨trivial, .ofRecords rfl, [_], rfl, fun _ _ _ _ => rfl⟩

theorem reacts (S : (guardEffect P strict).Sound E) : (guardEffect P strict).Reacts E :=
  checks.reacts S (reports.stops S)

theorem leaves (S : (guardEffect P strict).Sound E) : (guardEffect P strict).Leaves E :=
  checks.leaves_of_reacts (reacts S) S

theorem sound (P : Program) (bound : Nat) : (guardEffect P False).Sound (P.engine bound) :=
  (guardEffect P False).run Origin.closed_all (fun _ => leaves) bound

/-- A statement with a fixed cost is reached (`arrive`) before it is charged, so nothing has to be
known of its own clock. -/
theorem holds_timed (S : (guardEffect P False).Sound E) {s : Stmt} (hs : s.kind.isTimed = true)
    (c : Context) :
    (guardEffect P True).Does (Same (·.From .all)) (E.evalStmt s c) := by
  -- The visit comes first. What follows may charge, so only the weaker effect is known of it; but
  -- with the visit among the events the stronger one has nothing more to say.
  intro m hm hi
  rw [E.evalStmt_eq_arrive]
  have harrive := checks.post_arrive (reacts S) c.from_all trivial (.stmt s) hm trivial
  have hpost := harrive.bind trivial fun _ _ _ =>
    (Effect.logic (leaves S)).stmtKind ⟨rfl, c.from_all, trivial⟩ (fun _ => Effect.spends _)
      (fun _ => Effect.faithful _) (Origin.place_of_stmt (s := s) trivial)
      (Origin.closed_all.stmt s trivial) _ harrive.origin trivial
  obtain ⟨hguarded, events, hhistory, -⟩ := hpost.rel
  refine { hpost with rel := ⟨hguarded, events ++ [.visit (.stmt s)], ?_, fun _ hunpriced => ?_⟩ }
  · exact hhistory.trans (List.append_assoc events [_] m.history).symm
  · exact absurd (List.mem_append_right events List.mem_cons_self) (hunpriced s hs)

/-- Time passes only where a statement with a fixed cost is reached. -/
theorem sound_strict (P : Program) (bound : Nat) : (guardEffect P True).Sound (P.engine bound) := by
  -- This effect does not allow charges, so it is no instance of the general theorem: the induction
  -- treats the statements that charge apart.
  induction bound with
  | zero =>
    refine ⟨rfl, ?_, ?_⟩
    all_goals exact fun _ _ _ m hm hi => Effect.Post.throw (.inr rfl) trivial hm hi
  | succ n ih =>
    refine ⟨rfl, fun {e c} he hc ht => ?_, fun {s c} hs hc ht => ?_⟩
    · exact (Effect.logic (leaves ih)).evalExpr ⟨rfl, hc, ht⟩ he (Origin.closed_all.expr e he)
    · cases htimed : s.kind.isTimed with
      | true => exact holds_timed (sound P n) htimed c
      | false =>
        refine (Effect.logic (leaves ih)).evalStmt ⟨rfl, hc, ht⟩ (fun h => ?_)
          (fun _ => Effect.faithful _) hs (Origin.closed_all.stmt s hs)
        exact absurd (h.symm.trans htimed) (by decide)

theorem rel_piece (S : (guardEffect P strict).Sound E) (piece : Piece) (c : Context) (m : Machine) :
    (guardEffect P strict).Rel m none (piece.run E c m).2 :=
  ((Effect.logic (leaves S)).piece piece ⟨rfl, c.from_all, trivial⟩ m m.from_all trivial).rel

end guardEffect

/-! ### Guards are switched off again -/

/-- However a statement, an expression, a call or the construction of an object ends, every thread
is in as many sections (`nesting`) as before, and in a statement with a fixed cost just if it was
before. So between the steps of a session the main thread is in no section and in no such statement.
-/
theorem guards_restored (P : Program) :
    (∀ (bound : Nat) (piece : Piece) (c : Context) (m : Machine) (id : ThreadId), m.Has id →
      let m' := (piece.run (P.engine bound) c m).2
      m'.Has id ∧ m'.nesting id = m.nesting id) ∧
    ∀ m : Machine, m.Reachable P .all →
      m.nesting mainThread = { atomic := 0, pure := 0, debugging := 0, timed := false } := by
  have hsound := (keepDrift P .all P.delegates_from_all).sound Origin.closed_all
  refine ⟨fun bound piece c m id hm => ?_, fun m hm => ?_⟩
  · have hpost := (Effect.logic (Drift.leaves_of_sound (hsound bound))).piece piece
      ⟨rfl, c.from_all, trivial⟩ m m.from_all trivial
    exact hpost.rel id hm
  · exact (hm.origin (Model.from_all P.model) hsound).2.2

def costlyExit : Stmt :=
  .onLine 1 (.duration (.onLine 1 (.literal (.int 3))) (.onLine 2 (.exit none)))

/-- An exit passes through the `Guard` that is on. -/
theorem guards_restored_exit :
    let P : Program := { model := {} }
    let m := (Guard.within .atomic).enter mainThread
      ((P.engine 9).initialise (Machine.initial P {})).2
    let out := (Piece.node (.stmt costlyExit)).run (P.engine 9) (.binding []) m
    out.1.isOk = false ∧ out.2.nesting mainThread = m.nesting mainThread ∧
      m.nesting mainThread = ⟨1, 0, 0, false⟩ := by
  intro P m out
  have hm : (m.scheduler.record? mainThread).isSome = true := by decide +kernel
  have hrun := (guards_restored P).1 9 (.node (.stmt costlyExit)) (.binding []) m mainThread hm
  exact ⟨by decide +kernel, hrun.2, by decide +kernel⟩

/-! ### Statements with a fixed cost -/

/-- The number that the cost of a statement evaluates to. -/
def Engine.price (E : Engine) (e : Expr) (location : Location) (c : Context) : Eval Binary64 :=
  Eval.within .atomic c.thread do
    let v ← E.expr e c
    E.consultHeap (·.number v) location (c.hold v)

def Engine.Cost.kind (cost : Engine.Cost) (e : Expr) (body : Stmt) : StmtKind :=
  match cost with
  | .cycles => .cycles e body
  | .duration => .duration e body

/-- A finite number that is not below zero has a natural number as its `floor?`. -/
theorem Binary64.floor?_of_not_isBelowZero {x : Binary64} (hfinite : x.isFinite = true)
    (hsign : x.isBelowZero = false) : ∃ k : Nat, x.floor? = some (k : Int) := by
  unfold floor?
  rw [if_pos hfinite]
  by_cases hnegative : x.negative = true
  · -- The only such number with a sign is the negative zero.
    have hzero : x.magnitude = 0 := by
      simp only [isBelowZero, hnegative, isNaN, isZero, isFinite] at hsign hfinite
      simp_all
    have hexponent : x.exponent = 0 := by
      unfold magnitude at hzero
      unfold exponent
      omega
    have hfraction : x.fraction = 0 := by
      unfold magnitude at hzero
      unfold fraction
      omega
    have htruncated : x.truncated = (0, true) := by
      have hscale : x.scale = 0 := by rw [scale, hexponent]
      have hsignificand : x.significand = 0 := by rw [significand, if_pos hexponent, hfraction]
      rw [truncated, hscale, hsignificand, if_neg (by decide)]
      simp only [Nat.zero_div, Nat.zero_mod, decide_true]
    exact ⟨0, by simp [hnegative, htruncated]⟩
  · exact ⟨x.truncated.1, by simp [hnegative]⟩

namespace Engine

variable {E : Engine} {e : Expr} {body : Stmt} {c : Context} {location : Location} {n : Nat}

theorem price_of_amount (h : E.amount e location c m = (.ok n, m')) :
    ∃ (x : Binary64) (k : Nat), E.price e location c m = (.ok x, m') ∧ x.floor? = some (k : Int) ∧
      n = min k (Word.size64 - 1) := by
  have hamount : E.amount e location c = E.price e location c >>= fun x =>
      if x.isBelowZero || !x.isFinite then
        E.fail .negativeDuration
          ("time cost must be a non-negative number, got " ++ x.positional) location c
      else return (x.clampInto 0 (Word.size64 - 1) x.floor?).toNat := rfl
  rw [hamount] at h
  obtain ⟨x, m₁, hprice, h⟩ := exists_of_bind_eq_ok h
  split at h
  · exact absurd h fail_ne_ok
  · next hx =>
    simp only [Bool.or_eq_true, Bool.not_eq_true', not_or, Bool.not_eq_true,
      Bool.not_eq_false] at hx
    obtain ⟨k, hk⟩ := Binary64.floor?_of_not_isBelowZero hx.2 hx.1
    cases h
    refine ⟨x, k, hprice, hk, ?_⟩
    rw [hk, Binary64.clampInto]
    omega

/-- A statement with a fixed cost runs its body under the `Guard`. Only if the body comes to a value
is the cost charged, and with a cost that does not fit the thread dies. -/
theorem spending_apply (E : Engine) (duration : Nat) (body : Stmt) (c : Context) (m : Machine) :
    let ran := E.stmt body c (Guard.timed.enter c.thread m)
    let left := Guard.timed.leave c.thread ran.2
    E.spending duration body c m =
      if ran.1.isOk then
        (if left.scheduler.fits c.thread duration then ran.1 else .error .exhausted,
          { left with scheduler := left.scheduler.charge c.thread duration })
      else (ran.1, left) := by
  intro ran left
  have hbracket : Eval.bracket (Guard.timed.enter c.thread) (Guard.timed.leave c.thread)
      (E.stmt body c) m = (ran.1, left) := rfl
  cases hran : ran.1 with
  | ok v =>
    rw [hran] at hbracket
    refine (bind_of_ok hbracket).trans ?_
    have hcharge := Eval.charge_apply c.thread duration left
    rw [if_pos (show (Except.ok v : Outcome).isOk = true from rfl)]
    cases hfits : left.scheduler.fits c.thread duration with
    | true =>
      rw [hfits, if_pos rfl] at hcharge
      exact bind_of_ok hcharge
    | false =>
      rw [hfits, if_neg Bool.false_ne_true] at hcharge
      exact bind_of_error hcharge
  | error halt =>
    rw [hran] at hbracket
    exact bind_of_error hbracket

end Engine

section Charge

variable (hm : m.Has id) (duration : Nat)

include hm

theorem Machine.Has.record?_charge :
    ∃ r, m.scheduler.record? id = some r ∧
      (m.scheduler.charge id duration).record? id = some (r.charge duration) := by
  obtain ⟨r, hr⟩ := Option.isSome_iff_exists.1 hm
  refine ⟨r, hr, ?_⟩
  have hr' : (m.scheduler.charge id duration).record? id = _ :=
    Machine.record?_modifyRecord _ (f := (·.charge duration)) (fun _ => rfl) hr
  rwa [if_pos rfl] at hr'

theorem Machine.Has.time_charge :
    (m.scheduler.charge id duration).time id =
      if m.scheduler.time id + duration < Word.size64 then m.scheduler.time id + duration
      else m.scheduler.time id := by
  obtain ⟨r, hr, hr'⟩ := hm.record?_charge duration
  simp only [Scheduler.time, hr', hr, ThreadRecord.charge]

theorem Machine.Has.isDead_charge (h : ¬m.scheduler.time id + duration < Word.size64) :
    (m.scheduler.charge id duration).isDead id = true := by
  obtain ⟨r, hr, hr'⟩ := hm.record?_charge duration
  simp only [Scheduler.time, hr, Nat.not_lt] at h
  simp only [Scheduler.isDead, hr', ThreadRecord.charge, Option.any_some, h, decide_true,
    Bool.or_true]

end Charge

section Timed

variable {bound : Nat} {cost : Engine.Cost} {e : Expr} {body s : Stmt} {c : Context} {n : Nat}

/-- Neither the arrival at a statement nor its cost leaves the thread in another statement with a
fixed cost (`isTimed`). -/
theorem guardEffect.isTimed_of_amount (hm : m.Has c.thread)
    (harrive : (P.engine bound).arrive (.stmt s) c m = (.ok (), m₁))
    (hamount : (P.engine bound).amount e s.location c m₁ = (.ok n, m₂)) :
    m₂.Has c.thread ∧ m₂.scheduler.isTimed c.thread = m.scheduler.isTimed c.thread := by
  have L := leaves (sound P bound)
  have harrived : m.Guarded m₁ := by
    have hnode : Origin.all.node (.stmt s) := trivial
    have hpost : (guardEffect P False).Post Eq m ((P.engine bound).arrive (.stmt s) c m) _ :=
      L.arrive hnode c.from_all trivial m m.from_all trivial
    rw [harrive] at hpost
    exact hpost.rel.1
  have hpriced : m₁.Guarded m₂ := by
    have hpost : (guardEffect P False).Post Eq m₁ ((P.engine bound).amount e s.location c m₁) _ :=
      (Effect.logic L).amount ⟨rfl, c.from_all, trivial⟩ trivial m₁ m₁.from_all trivial
    rw [hamount] at hpost
    exact hpost.rel.1
  exact (harrived.trans hpriced).isTimed hm

/-- A statement with a fixed cost (`amount`), from the point at which its body begins. -/
theorem Engine.stmt_of_amount (hkind : s.kind = cost.kind e body)
    (harrive : (P.engine bound).arrive (.stmt s) c m = (.ok (), m₁))
    (hamount : (P.engine bound).amount e s.location c m₁ = (.ok n, m₂))
    (htimed : m₂.scheduler.isTimed c.thread = false) :
    (P.engine (bound + 1)).stmt s c m =
      (P.engine bound).spending (cost.time n c.thread m₂) body c m₂ := by
  have hstmt : (P.engine (bound + 1)).stmt s c =
      (P.engine bound).arrive (.stmt s) c >>= fun _ =>
        (P.engine bound).stmtKind s.kind s.location c := by
    rw [Engine.arrive, bind_assoc]
    rfl
  have htimedKind : (P.engine bound).stmtKind (cost.kind e body) s.location c =
      (P.engine bound).timed cost e body s.location c := by
    cases cost <;> rfl
  have hspend := (P.engine bound).spend_apply cost n body c m₂
  rw [if_neg (by simp [htimed])] at hspend
  rw [hstmt, bind_of_ok harrive, hkind, htimedKind, ← hspend]
  exact bind_of_ok hamount

/-- How a body with a fixed cost ends, and the clock of its thread then. -/
structure Machine.Charged (id : ThreadId) (duration : Nat) (m : Machine) (ran : Outcome)
    (out : Outcome × Machine) : Prop where
  isTimed : out.2.scheduler.isTimed id = false
  early : ran.isOk = false →
    out.1 = ran ∧ out.2.scheduler.time id = m.scheduler.time id
  counted : ran.isOk = true → m.scheduler.time id + duration < Word.size64 →
    out.1 = ran ∧ out.2.scheduler.time id = m.scheduler.time id + duration
  overflow : ran.isOk = true → ¬m.scheduler.time id + duration < Word.size64 →
    out.1 = .error .exhausted ∧ out.2.scheduler.isDead id = true ∧
      out.2.scheduler.time id = m.scheduler.time id

/-- If the statement comes to a value, then so did its body, and the sum fits. -/
theorem Machine.Charged.time_of_isOk {id : ThreadId} {duration : Nat} {ran : Outcome}
    {out : Outcome × Machine} (h : m.Charged id duration ran out) (hok : out.1.isOk = true) :
    out.2.scheduler.time id = m.scheduler.time id + duration := by
  cases hran : ran.isOk with
  | false =>
    rw [(h.early hran).1, hran] at hok
    cases hok
  | true =>
    by_cases hfits : m.scheduler.time id + duration < Word.size64
    · exact (h.counted hran hfits).2
    · rw [(h.overflow hran hfits).1] at hok
      cases hok

/-- What is charged for a body, and what else `spending` does. -/
theorem guardEffect.spending (hm : m.Has c.thread) (duration : Nat) :
    let ran := (P.engine bound).stmt body c (Guard.timed.enter c.thread m)
    m.Charged c.thread duration ran.1 ((P.engine bound).spending duration body c m) := by
  intro ran
  have hran : (Guard.timed.enter c.thread m).Guarded ran.2 :=
    (rel_piece (sound P bound) (.node (.stmt body)) c _).1
  have hentered : (Guard.timed.enter c.thread m).scheduler.isTimed c.thread = true := by
    have hnesting := Guard.nesting_enter .timed c.thread hm
    rw [if_pos rfl] at hnesting
    exact congrArg Nesting.timed hnesting
  -- The guard is switched off, the body has taken no time, and nothing has been charged yet.
  let left := Guard.timed.leave c.thread ran.2
  have hleft : left.Has c.thread :=
    (Guard.timed.frame_leave (hran.isTimed (Guard.timed.frame_enter hm).has).1).has
  have htimed : left.scheduler.isTimed c.thread = false := Scheduler.isTimed_setTimed_false
  have htime : left.scheduler.time c.thread = m.scheduler.time c.thread :=
    (Guard.time_leave .timed).trans ((hran.time hentered).trans (Guard.time_enter .timed))
  rw [(P.engine bound).spending_apply duration body c m]
  by_cases hok : ran.1.isOk = true
  · have hcharged : (left.scheduler.charge c.thread duration).isTimed c.thread = false := by
      refine (congrArg Nesting.timed (Machine.nesting_modifyRecord ?_ ?_ hleft)).trans htimed
      all_goals exact fun _ => rfl
    have hclock := hleft.time_charge duration
    rw [htime] at hclock
    rw [if_pos hok]
    refine ⟨hcharged, fun h => absurd (hok.symm.trans h) (by decide), fun _ hfits =>
      ?_, fun _ hfits => ?_⟩
    · rw [if_pos hfits] at hclock
      exact ⟨if_pos (decide_eq_true (htime ▸ hfits)), hclock⟩
    · rw [if_neg hfits] at hclock
      refine ⟨if_neg fun h => hfits (htime ▸ of_decide_eq_true h), ?_, hclock⟩
      exact hleft.isDead_charge duration (htime ▸ hfits)
  · rw [if_neg hok]
    exact ⟨htimed, fun _ => ⟨rfl, htime⟩, fun h => absurd h hok, fun h => absurd h hok⟩

end Timed

/-- Inside a statement with a fixed `Cost` time stands still, whatever is evaluated and however that
ends. Let a statement with a fixed cost be reached outside of any other. After it the thread is in
no such statement. If its body ends early, so does the statement, and the clock stands where it
stood when the body began. Otherwise the clock has gone on since then by the floor of the cost, or
by the duration of that many cycles, and the statement ends as its body does; but if 64 bits cannot
hold that sum, the thread dies, and its clock stands. -/
theorem fixed_cost_charged_once (P : Program) (bound : Nat) :
    (∀ (piece : Piece) (c : Context) (m : Machine), m.scheduler.isTimed c.thread = true →
      (piece.run (P.engine bound) c m).2.scheduler.time c.thread = m.scheduler.time c.thread) ∧
    ∀ (cost : Engine.Cost) (e : Expr) (body s : Stmt) (c : Context) (m m₁ m₂ : Machine) (n : Nat),
      s.kind = cost.kind e body → m.Has c.thread → m.scheduler.isTimed c.thread = false →
      (P.engine bound).arrive (.stmt s) c m = (.ok (), m₁) →
      (P.engine bound).amount e s.location c m₁ = (.ok n, m₂) →
      let ran := (P.engine bound).stmt body c (Guard.timed.enter c.thread m₂)
      (∃ (x : Binary64) (k : Nat), (P.engine bound).price e s.location c m₁ = (.ok x, m₂) ∧
        x.floor? = some (k : Int) ∧ n = min k (Word.size64 - 1)) ∧
      m₂.Charged c.thread (cost.time n c.thread m₂) ran.1 ((P.engine (bound + 1)).stmt s c m) := by
  refine ⟨fun piece c m htimed => ?_, ?_⟩
  · exact (guardEffect.rel_piece (guardEffect.sound P bound) piece c m).1.time htimed
  · intro cost e body s c m m₁ m₂ n hkind hm htimed harrive hamount ran
    obtain ⟨hm₂, htimed₂⟩ := guardEffect.isTimed_of_amount hm harrive hamount
    rw [Engine.stmt_of_amount hkind harrive hamount (htimed₂.trans htimed)]
    exact ⟨Engine.price_of_amount hamount, guardEffect.spending hm₂ _⟩

def nanoseconds (n : Int) : Expr :=
  .onLine 1 (.literal (.int n))

def innerCost : Stmt :=
  .onLine 2 (.duration (nanoseconds 5) (.onLine 3 .skip))

def outerCost : Stmt :=
  .onLine 1 (.duration (nanoseconds 3) innerCost)

/-- Of the `outerCost` and the one in it only the outer one is charged. -/
theorem fixed_cost_charged_once_nested :
    let P : Program := { model := {} }
    let m := ((P.engine 9).initialise (Machine.initial P {})).2
    let c : Context := .binding []
    let arrived := ((P.engine 9).arrive (.stmt outerCost) c m).2
    let begun := ((P.engine 9).amount (nanoseconds 3) outerCost.location c arrived).2
    let inside := Guard.timed.enter c.thread begun
    ((Piece.node (.stmt innerCost)).run (P.engine 9) c inside).2.scheduler.time c.thread =
        inside.scheduler.time c.thread ∧
      ((P.engine (9 + 1)).stmt outerCost c m).2.scheduler.time c.thread = 3 := by
  intro P m c arrived begun inside
  obtain ⟨hstill, hcharged⟩ := fixed_cost_charged_once P 9
  have hinside : inside.scheduler.isTimed c.thread = true := by decide +kernel
  refine ⟨hstill (.node (.stmt innerCost)) c inside hinside, ?_⟩
  have hm : m.Has c.thread ∧ m.scheduler.isTimed c.thread = false := by decide +kernel
  have harrive : ((P.engine 9).arrive (.stmt outerCost) c m).1.toOption = some () := by
    decide +kernel
  have hamount : ((P.engine 9).amount (nanoseconds 3) outerCost.location c arrived).1.toOption =
      some 3 := by
    decide +kernel
  have hran : ((P.engine 9).stmt innerCost c inside).1.isOk = true := by decide +kernel
  have hbegun : begun.scheduler.time c.thread + Engine.Cost.duration.time 3 c.thread begun = 3 := by
    decide +kernel
  obtain ⟨-, hend⟩ := hcharged .duration (nanoseconds 3) innerCost outerCost c m arrived begun
    3 rfl hm.1 hm.2 (eq_ok_of_toOption harrive) (eq_ok_of_toOption hamount)
  have hfits : begun.scheduler.time c.thread + Engine.Cost.duration.time 3 c.thread begun <
      Word.size64 := by
    rw [hbegun]
    decide
  rw [(hend.counted hran hfits).2, hbegun]

/-- The clock of the main thread counts no more. -/
def lateMachine : Machine :=
  let m := ((Program.engine { model := {} } 9).initialise (Machine.initial { model := {} } {})).2
  { m with scheduler := m.scheduler.charge mainThread (Word.size64 - 1) }

/-- So, after `arrive` and `amount`, it is not true that a body that comes to a value is always
charged. -/
theorem not_fixed_cost_always_charged :
    ¬∀ (P : Program) (bound : Nat) (cost : Engine.Cost) (e : Expr) (body s : Stmt) (c : Context)
        (m m₁ m₂ : Machine) (n : Nat),
      s.kind = cost.kind e body → m.Has c.thread → m.scheduler.isTimed c.thread = false →
      (P.engine bound).arrive (.stmt s) c m = (.ok (), m₁) →
      (P.engine bound).amount e s.location c m₁ = (.ok n, m₂) →
      ((P.engine bound).stmt body c (Guard.timed.enter c.thread m₂)).1.isOk = true →
      ((P.engine (bound + 1)).stmt s c m).2.scheduler.time c.thread =
        m₂.scheduler.time c.thread + cost.time n c.thread m₂ := by
  intro h
  let P : Program := { model := {} }
  let c : Context := .binding []
  let arrived := ((P.engine 9).arrive (.stmt outerCost) c lateMachine).2
  let begun := ((P.engine 9).amount (nanoseconds 3) outerCost.location c arrived).2
  have harrive : ((P.engine 9).arrive (.stmt outerCost) c lateMachine).1.toOption = some () := by
    decide +kernel
  have hamount : ((P.engine 9).amount (nanoseconds 3) outerCost.location c arrived).1.toOption =
      some 3 := by
    decide +kernel
  have hm : lateMachine.Has c.thread ∧ lateMachine.scheduler.isTimed c.thread = false := by
    decide +kernel
  have hran : ((P.engine 9).stmt innerCost c (Guard.timed.enter c.thread begun)).1.isOk = true := by
    decide +kernel
  have htime := h P 9 .duration (nanoseconds 3) innerCost outerCost c lateMachine arrived begun 3
    rfl hm.1 hm.2 (eq_ok_of_toOption harrive) (eq_ok_of_toOption hamount) hran
  revert htime
  decide +kernel

/-! ### Atomic sections -/

/-- In an atomic section no other thread gets a turn (`yields`). Time passes only outside of
statements with a fixed cost, and only where such a statement is reached. -/
theorem atomic_section_takes_no_turn (P : Program) (bound : Nat) (piece : Piece) (c : Context)
    (m : Machine) (hatomic : 0 < (m.thread c.thread).atomicDepth) :
    let m' := (piece.run (P.engine bound) c m).2
    m'.scheduler.yields c.thread = m.scheduler.yields c.thread ∧
      ∃ events, m'.history = events ++ m.history ∧
        (m'.scheduler.time c.thread ≠ m.scheduler.time c.thread →
          m.scheduler.isTimed c.thread = false ∧
            ∃ s : Stmt, s.kind.isTimed = true ∧ .visit (.stmt s) ∈ events) := by
  intro m'
  obtain ⟨hguarded, events, hhistory, htime⟩ :=
    guardEffect.rel_piece (guardEffect.sound_strict P bound) piece c m
  refine ⟨hguarded.yields hatomic, events, hhistory, fun hpassed => ⟨?_, ?_⟩⟩
  · cases htimed : m.scheduler.isTimed c.thread with
    | false => rfl
    | true => exact absurd (hguarded.time htimed) hpassed
  · refine Classical.byContradiction fun hunpriced => hpassed ?_
    exact htime trivial (fun s hs hvisit => hunpriced ⟨s, hs, hvisit⟩) c.thread
      (.of_atomicDepth hatomic)

def atomicMachine : Machine :=
  (Guard.within .atomic).enter mainThread
    ((Program.engine { model := {} } 9).initialise (Machine.initial { model := {} } {})).2

/-- An `outerCost` that is reached in an atomic section takes the time that it costs. -/
theorem atomic_section_takes_no_turn_cost :
    let P : Program := { model := {} }
    let m' := ((Piece.node (.stmt outerCost)).run (P.engine 9) (.binding []) atomicMachine).2
    m'.scheduler.yields mainThread = atomicMachine.scheduler.yields mainThread ∧
      m'.scheduler.time mainThread = 3 ∧
      ∃ events, m'.history = events ++ atomicMachine.history ∧
        ∃ s : Stmt, s.kind.isTimed = true ∧ .visit (.stmt s) ∈ events := by
  intro P m'
  obtain ⟨hyields, events, hhistory, hpassed⟩ := atomic_section_takes_no_turn P 9
    (.node (.stmt outerCost)) (.binding []) atomicMachine (by decide +kernel)
  exact ⟨hyields, by decide +kernel, events, hhistory, (hpassed (by decide +kernel)).2⟩

/-- So, though nothing `yields`, it is not true that no time passes in atomic sections. -/
theorem not_atomic_section_takes_no_time :
    ¬∀ (P : Program) (bound : Nat) (piece : Piece) (c : Context) (m : Machine),
      0 < (m.thread c.thread).atomicDepth →
      let m' := (piece.run (P.engine bound) c m).2
      m'.scheduler.time c.thread = m.scheduler.time c.thread ∧
        m'.scheduler.yields c.thread = m.scheduler.yields c.thread := by
  intro h
  have htime := (h { model := {} } 9 (.node (.stmt outerCost)) (.binding []) atomicMachine
    (by decide +kernel)).1
  revert htime
  decide +kernel

end Animator
