import Animator.Proofs.Effect.Runs

/-!
# Object calls are counted

Arriving at a statement counts its place, and arriving at an expression counts the place of the
expression. A call whose designator counts into the same total is counted twice that way, and one
hit is taken back once the designator has given an object. If it gives none, the second hit stays.

The code that is executed is an origin in which nothing else counts into that total (`ObjectCall`).
Over an evaluation, the designator is reached at most as often as the statement, and hits are taken
back at most as often as the designator is reached (`Machine.Counts`). So there is always a hit that
can be taken back, though a count never goes below zero.
-/

namespace Animator

def Event.executes (counter : CounterId) : Event → Bool
  | .visit (.stmt s) => s.location.counter == counter
  | _ => false

def Event.designates (counter : CounterId) : Event → Bool
  | .visit (.expr e) => e.location.counter == counter
  | _ => false

namespace Machine

def executions (counter : CounterId) (m : Machine) : Nat :=
  m.history.countP (·.executes counter)

def designations (counter : CounterId) (m : Machine) : Nat :=
  m.history.countP (·.designates counter)

/-- How often a hit of the `counter` was taken back. -/
def resolutions (counter : CounterId) (m : Machine) : Nat :=
  m.hits.takenBack.count counter

/-- What happened to a `counter` between two machines. -/
structure Tally (counter : CounterId) (m m' : Machine)
    (executions designations resolutions : Nat) : Prop where
  executed : m'.executions counter = m.executions counter + executions
  designated : m'.designations counter = m.designations counter + designations
  resolved : m'.resolutions counter = m.resolutions counter + resolutions
  -- Every hit that is taken back lowers the count: it is never zero before.
  balance : m'.hits.count counter + resolutions =
    m.hits.count counter + (executions + designations)

/-- A tally that keeps `due` designators apart whose hits were not taken back, and `spare`
executions that have not come to their designators. -/
def Counts (counter : CounterId) (due spare : Nat) (m m' : Machine) : Prop :=
  ∃ executions designations resolutions,
    m.Tally counter m' executions designations resolutions ∧
      resolutions + due ≤ designations ∧ designations + spare ≤ executions

variable {counter : CounterId} {due spare due' spare' : Nat} {m m₁ m₂ : Machine}

theorem Tally.trans {e d r e' d' r' : Nat} (h : m.Tally counter m₁ e d r)
    (h' : m₁.Tally counter m₂ e' d' r') :
    m.Tally counter m₂ (e + e') (d + d') (r + r') := by
  refine ⟨?_, ?_, ?_, ?_⟩
  · rw [h'.executed, h.executed, Nat.add_assoc]
  · rw [h'.designated, h.designated, Nat.add_assoc]
  · rw [h'.resolved, h.resolved, Nat.add_assoc]
  · have hfirst := h.balance
    have hsecond := h'.balance
    omega

/-- Arriving at a node counts it once (`Tally`), as a statement or as an expression. -/
theorem tally_counted (node : Node) :
    m.Tally counter (m.counted node) ((Event.visit node).executes counter).toNat
      ((Event.visit node).designates counter).toNat 0 := by
  refine ⟨?_, ?_, ?_, ?_⟩
  · cases h : (Event.visit node).executes counter <;> simp [executions, counted, h]
  · cases h : (Event.visit node).designates counter <;> simp [designations, counted, h]
  · simp [resolutions, counted]
  · simp only [counted, Hits.count_hit]
    by_cases heq : node.location.counter = counter
    · cases node <;> simp_all [Event.executes, Event.designates, Node.location]
    · rw [if_neg (Ne.symm heq)]
      cases node <;> simpa [Event.executes, Event.designates, Node.location] using heq

namespace Counts

theorem quiet (events : List Event) (hhits : m₁.hits = m.hits)
    (hhistory : m₁.history = events ++ m.history)
    (hevents : ∀ event ∈ events, event.executes counter = false ∧ event.designates counter =
      false) :
    m.Counts counter 0 0 m₁ := by
  have hexecutes : events.countP (·.executes counter) = 0 :=
    List.countP_eq_zero.2 fun event h => by simp [(hevents event h).1]
  have hdesignates : events.countP (·.designates counter) = 0 :=
    List.countP_eq_zero.2 fun event h => by simp [(hevents event h).2]
  refine ⟨0, 0, 0, ⟨?_, ?_, ?_, ?_⟩, Nat.le_refl _, Nat.le_refl _⟩
  · simp [executions, hhistory, List.countP_append, hexecutes]
  · simp [designations, hhistory, List.countP_append, hdesignates]
  · simp [resolutions, hhits]
  · rw [hhits]

theorem same (hhits : m₁.hits = m.hits) (hhistory : m₁.history = m.history) :
    m.Counts counter 0 0 m₁ :=
  quiet [] hhits hhistory nofun

theorem ofEvent {event : Event} (hexecutes : event.executes counter = false)
    (hdesignates : event.designates counter = false) (hhits : m₁.hits = m.hits)
    (hhistory : m₁.history = event :: m.history) : m.Counts counter 0 0 m₁ := by
  refine quiet [event] hhits hhistory fun e he => ?_
  rw [List.mem_singleton.1 he]
  exact ⟨hexecutes, hdesignates⟩

theorem trans (h : m.Counts counter due spare m₁) (h' : m₁.Counts counter due' spare' m₂) :
    m.Counts counter (due + due') (spare + spare') m₂ := by
  obtain ⟨e, d, r, htally, hdue, hspare⟩ := h
  obtain ⟨e', d', r', htally', hdue', hspare'⟩ := h'
  exact ⟨e + e', d + d', r + r', htally.trans htally', by omega, by omega⟩

theorem settle (h : m.Counts counter due spare m₁) : m.Counts counter 0 0 m₁ := by
  obtain ⟨e, d, r, htally, hdue, hspare⟩ := h
  exact ⟨e, d, r, htally, by omega, by omega⟩

theorem elsewhere {node : Node} (hnode : node.location.counter ≠ counter) :
    m.Counts counter 0 0 (m.counted node) := by
  refine ⟨_, _, _, tally_counted node, ?_, ?_⟩
  all_goals cases node <;> simp_all [Event.executes, Event.designates, Node.location]

theorem executed {s : Stmt} (hs : s.location.counter = counter) :
    m.Counts counter 0 1 (m.counted (.stmt s)) := by
  refine ⟨_, _, _, tally_counted (.stmt s), ?_, ?_⟩
  all_goals simp [Event.executes, Event.designates, hs]

/-- An execution (`Counts`) comes to its designator, whose hit is to be taken back. -/
theorem designated (h : m.Counts counter 0 1 m₁) {e : Expr} (he : e.location.counter = counter) :
    m.Counts counter 1 0 (m₁.counted (.expr e)) := by
  obtain ⟨executions, designations, resolutions, htally, hdue, hspare⟩ := h
  have hvisit := htally.trans (tally_counted (.expr e))
  simp only [Event.executes, Event.designates, he, BEq.rfl, Bool.toNat_true, Bool.toNat_false]
    at hvisit
  exact ⟨_, _, _, hvisit, by omega, by omega⟩

/-- The hit is taken back (`unhit`), which there is. -/
theorem resolved (h : m.Counts counter 1 0 m₁) :
    m.Counts counter 0 0 { m₁ with hits := m₁.hits.unhit counter } := by
  obtain ⟨executions, designations, resolutions, htally, hdue, hspare⟩ := h
  refine ⟨executions, designations, resolutions + 1, ⟨htally.executed, htally.designated, ?_, ?_⟩,
    hdue, hspare⟩
  · have htaken := htally.resolved
    simp only [Machine.resolutions, Hits.unhit, List.count_cons_self] at htaken ⊢
    omega
  · have hbalance := htally.balance
    simp only [Hits.count_unhit, if_true]
    omega

theorem unhit_of_ne {other : CounterId} (hne : other ≠ counter) :
    m.Counts counter 0 0 { m with hits := m.hits.unhit other } := by
  refine ⟨0, 0, 0, ⟨rfl, rfl, ?_, ?_⟩, Nat.le_refl _, Nat.le_refl _⟩
  · simp [resolutions, Hits.unhit, List.count_cons_of_ne hne]
  · simp [Hits.count_unhit, Ne.symm hne]

end Counts

end Machine

/-- A call of an object in an `origin` in which nothing but the call and its `designator` counts
into their common total. -/
structure ObjectCall (o : Origin) where
  node : Stmt
  designator : Expr
  field : Name
  args : List Expr
  kind : node.kind = .callObject designator field args
  shares : designator.location.sharesHits node.location = true
  -- The parts of the call belong to the origin, apart from the designator itself.
  parts : o.ExprParts designator.kind
  args_from : ∀ e ∈ args, o.expr e
  exprs : ∀ e, o.expr e → e.location.counter ≠ node.location.counter ∧ o.ExprParts e.kind
  stmts : ∀ s, o.stmt s →
    s = node ∨ s.location.counter ≠ node.location.counter ∧ o.StmtParts s.kind

namespace ObjectCall

variable {o : Origin} (A : ObjectCall o)

def counter : CounterId :=
  A.node.location.counter

theorem counter_designator : A.designator.location.counter = A.counter :=
  beq_iff_eq.1 A.shares

theorem counts_node {node : Node} (hnode : o.node node) (m : Machine) :
    m.Counts A.counter 0 0 (m.counted node) := by
  cases node with
  | expr e => exact .elsewhere (A.exprs e hnode).1
  | stmt s =>
    rcases A.stmts s hnode with rfl | ⟨hne, -⟩
    · exact (Machine.Counts.executed rfl).settle
    · exact .elsewhere hne

theorem counts_step {P : Program} {T : ThreadId → Prop} {Made : ObjectRef → Prop} {m m' : Machine}
    (hs : m.Step P o T Made m') : m.Counts A.counter 0 0 m' := by
  cases hs with
  | unhit designator location he _ hshares =>
    have hlocation : designator.location.counter = location.counter := beq_iff_eq.1 hshares
    exact .unhit_of_ne (hlocation ▸ (A.exprs designator he).1)
  | _ => exact .same rfl rfl

theorem counts_happens {P : Program} {T : ThreadId → Prop} {Made : ObjectRef → Prop}
    {m m' : Machine} (h : m.Happens P o T Made m') : m.Counts A.counter 0 0 m' := by
  cases h with
  | step hs => exact A.counts_step hs
  | visit node hn => exact A.counts_node hn m
  | obey hs =>
    cases hs with
    | returned => exact .ofEvent rfl rfl rfl rfl
    | _ => exact .same rfl rfl
  | unwound => exact .ofEvent rfl rfl rfl rfl
  | _ => exact .same rfl rfl

end ObjectCall

/-! ### All evaluations -/

/-- Over an evaluation, designators are reached at most as often as the statement, and hits are
taken back at most as often as designators are reached. -/
def callDrift {o : Origin} (A : ObjectCall o) (P : Program) (hP : P.delegates.From o) :
    Drift P o where
  Rel := Machine.Counts A.counter 0 0
  delegates := hP
  refl := .same rfl rfl
  trans := .trans
  moves _ h := A.counts_happens h
  guard g _ _ h := by
    refine .trans (.trans (.same ?_ ?_) h) (.same ?_ ?_)
    all_goals cases g <;> rfl

abbrev callEffect {o : Origin} (A : ObjectCall o) (P : Program) (hP : P.delegates.From o) :
    Effect P o fun _ => True :=
  (callDrift A P hP).effect

instance {o : Origin} {A : ObjectCall o} {P : Program} {hP : P.delegates.From o} :
    (callEffect A P hP).Joins where
  step _ hs := ⟨trivial, by cases hs <;> exact .same rfl rfl⟩
  swallow h := h
  join _ hs := ⟨trivial, by cases hs <;> exact .same rfl rfl⟩

/-- What is known of an `Engine`: its evaluations are `counted` as they should, and evaluating the
designator is cut off at once or goes on like that after the visit. -/
structure ObjectCall.Ready {o : Origin} (A : ObjectCall o) (P : Program) (hP : P.delegates.From o)
    (E : Engine) : Prop where
  sound : (callEffect A P hP).Sound E
  designates {c : Context} {m : Machine} : c.From o → m.From o →
    E.expr A.designator c m = (.error .exhausted, m) ∨
      (callEffect A P hP).Post (Same (·.From o)) (m.counted (.expr A.designator))
        (E.expr A.designator c m) (E.expr A.designator c m)

namespace ObjectCall.Ready

open Effect (Post)

variable {o : Origin} {A : ObjectCall o} {P : Program} {hP : P.delegates.From o} {E : Engine}
  (R : A.Ready P hP E) {c : Context} {m m₁ : Machine}

include R

theorem object (hc : c.From o) (hm : m.From o) :
    E.object A.designator c m = (.error .exhausted, m) ∨
      (callEffect A P hP).Post Eq (m.counted (.expr A.designator)) (E.object A.designator c m)
        (E.object A.designator c m) := by
  refine (R.designates hc hm).imp (fun hcut => bind_of_error hcut) fun hpost => ?_
  refine .bind trivial hpost ?_
  rintro v _ ⟨rfl, -⟩
  let L := Effect.logic (Drift.leaves_of_sound R.sound)
  exact L.consultHeap' (L.hold ⟨rfl, hc, trivial⟩ v) _ hpost.origin trivial

/-- The statement (`stmtKind`), once it has been reached: there is an execution that has not come to
its designator. -/
theorem stmtKind (hc : c.From o) (hm₁ : m₁.From o) (hreached : m.Counts A.counter 0 1 m₁) :
    (callEffect A P hP).Post (Same (·.From o)) m
      (E.stmtKind A.node.kind A.node.location c m₁)
      (E.stmtKind A.node.kind A.node.location c m₁) := by
  rw [A.kind]
  rcases hrun : E.object A.designator c m₁ with ⟨result, m₂⟩
  have hpost := R.object hc hm₁
  rw [hrun] at hpost
  cases result with
  | error halt =>
    rw [E.callObject_of_error hrun]
    rcases hpost with hcut | hpost
    · cases hcut
      exact ⟨rfl, hm₁, trivial, hreached.settle, .halt trivial⟩
    · obtain ⟨-, hm₂, -, hrel, houtcomes⟩ := hpost
      refine ⟨rfl, hm₂, trivial, ?_, ?_⟩
      · exact ((hreached.designated A.counter_designator).trans hrel).settle
      · cases houtcomes with
        | halt hfrom => exact .halt hfrom
  | ok ref =>
    rcases hpost with hcut | hpost
    · cases hcut
    · rw [E.callObject_apply hrun, if_pos A.shares]
      have hresolved := ((hreached.designated A.counter_designator).trans hpost.rel).resolved
      let L := Effect.logic (Drift.leaves_of_sound R.sound)
      exact .after trivial hresolved (L.callOn (t := m₁.thread c.thread) ⟨rfl, hc, trivial⟩
        rfl A.args_from _ { hpost.origin with } trivial)

theorem evalStmt (hc : c.From o) :
    (callEffect A P hP).Does (Same (·.From o)) (E.evalStmt A.node c) := by
  intro m hm hi
  rw [E.evalStmt_eq_arrive]
  have hpost := (callDrift A P hP).checks.post_arrive (Drift.reacts R.sound) hc trivial
    (.stmt A.node) hm trivial
  rcases hrun : E.arrive (.stmt A.node) c m with ⟨result, m₁⟩
  rw [hrun] at hpost
  have hreached : m.Counts A.counter 0 1 m₁ :=
    (Machine.Counts.executed rfl).trans hpost.rel
  cases result with
  | error halt =>
    rw [bind_of_error hrun]
    refine ⟨rfl, hpost.origin, trivial, hreached.settle, ?_⟩
    cases hpost.outcomes with
    | halt hfrom => exact .halt hfrom
  | ok =>
    rw [bind_of_ok hrun]
    exact R.stmtKind hc hpost.origin hreached

omit R in
theorem engine (A : ObjectCall o) (P : Program) (hP : P.delegates.From o) (n : Nat) :
    A.Ready P hP (P.engine n) := by
  induction n with
  | zero =>
    refine ⟨⟨rfl, ?_, ?_⟩, fun _ _ => .inl rfl⟩
    all_goals exact fun _ _ _ m hm hi => Post.throw (.inr rfl) trivial hm hi
  | succ n R =>
    let L := Effect.logic (Drift.leaves_of_sound R.sound)
    refine ⟨⟨rfl, fun he hc ht => ?_, fun hs hc ht => ?_⟩, fun {c m} hc hm => .inr ?_⟩
    · exact L.evalExpr ⟨rfl, hc, ht⟩ he (A.exprs _ he).2
    · rcases A.stmts _ hs with rfl | ⟨-, hparts⟩
      · exact R.evalStmt hc
      · exact L.evalStmt ⟨rfl, hc, ht⟩ (fun _ => Effect.spends _) (fun _ => Effect.faithful _) hs
          hparts
    -- Everything but the visit of the designator itself.
    · have hpost := (callDrift A P hP).checks.post_arrive (Drift.reacts R.sound) hc trivial
        (.expr A.designator) hm trivial
      change (callEffect A P hP).Post _ _ ((P.engine n).evalExpr A.designator c m)
        ((P.engine n).evalExpr A.designator c m)
      rw [Engine.evalExpr_eq_arrive]
      exact .bind trivial hpost fun _ _ _ =>
        L.exprKind ⟨rfl, hc, trivial⟩ _ A.parts _ hpost.origin trivial

end ObjectCall.Ready

/-! ### Runs -/

/-- **The `count` of an object call.** Over a run, the count rises with every execution of the
statement by one, and once more with every `designator` that is reached and gives no object. In
particular it never falls. An execution whose designator gives no object ends there with the error;
in any other one the hit of the designator is taken back before the arguments are evaluated,
whatever happens then. -/
theorem object_call_count {o : Origin} (A : ObjectCall o) (P : Program) (hP : P.delegates.From o)
    (hmodel : P.model.From o) {m m' : Machine} (hm : m.Reachable P o) (hruns : m.Runs P o m') :
    (∃ executions designations resolutions,
      m.Tally A.counter m' executions designations resolutions ∧
        resolutions ≤ designations ∧ designations ≤ executions ∧
        m'.hits.count A.counter =
          m.hits.count A.counter + executions + (designations - resolutions)) ∧
    ∀ (bound : Nat) (c : Context) (m₁ m₂ : Machine),
      let E := P.engine bound
      (∀ halt, E.object A.designator c m₁ = (.error halt, m₂) →
        E.stmtKind A.node.kind A.node.location c m₁ = (.error halt, m₂)) ∧
      ∀ ref, E.object A.designator c m₁ = (.ok ref, m₂) →
        E.stmtKind A.node.kind A.node.location c m₁ =
          E.callOn (m₁.thread c.thread).isStepping ref A.field A.args A.node.location c
            { m₂ with hits := m₂.hits.unhit A.counter } := by
  have hleaves := fun bound => Drift.leaves_of_sound (ObjectCall.Ready.engine A P hP bound).sound
  refine ⟨?_, fun bound c m₁ m₂ => ?_⟩
  · have hfrom := hm.from_of_leaves hleaves hmodel fun _ => trivial
    obtain ⟨-, -, e, d, r, htally, hdue, hspare⟩ :=
      hruns.rel hleaves hmodel (fun h => h) hfrom trivial
    have hbalance := htally.balance
    exact ⟨e, d, r, htally, hdue, hspare, by omega⟩
  · intro E
    rw [A.kind]
    refine ⟨fun halt hobject => ?_, fun ref hobject => ?_⟩
    · exact E.callObject_of_error hobject _ _ _
    · rw [E.callObject_apply hobject, if_pos A.shares]
      rfl

def ghostName : Name :=
  { module := "M", text := "ghost" }

def ghostOrigin : Origin where
  expr _ := False
  stmt s := s = .onLine 4 (.callObject (.onLine 4 (.name ghostName)) ghostName [])
  cells := True

def ghostCall : ObjectCall ghostOrigin where
  node := _
  designator := .onLine 4 (.name ghostName)
  field := ghostName
  args := []
  kind := rfl
  shares := rfl
  parts := nofun
  args_from := nofun
  exprs _ := False.elim
  stmts _ hs := .inl hs

def ghostProgram : Program :=
  { model := {} }

def ghostStart : Machine :=
  ((ghostProgram.engine 4).initialise (Machine.initial ghostProgram {})).2

def ghostAfter (found : Option ObjectRef) (m : Machine) : Machine :=
  let bindings := found.toList.map fun ref => (ghostName, Value.object ref)
  Activity.after (ghostProgram.engine 4) m
    (.task (.node (.stmt ghostCall.node) (.binding bindings)))

theorem ghostStart_reachable : ghostStart.Reachable ghostProgram ghostOrigin :=
  .create {} [] 4 (Heap.from_empty _)

theorem runs_ghostAfter {m m' : Machine} (h : m.Runs ghostProgram ghostOrigin m')
    (found : Option ObjectRef) : m.Runs ghostProgram ghostOrigin (ghostAfter found m') := by
  refine .next h 4 (.task (.node (.stmt ghostCall.node) (.binding _))) ⟨rfl, fun s hs => ?_⟩
  obtain rfl := List.mem_singleton.1 hs
  refine ⟨fun b hb => ?_, nofun⟩
  obtain ⟨ref, -, rfl⟩ := List.mem_map.1 hb
  exact (show (Value.object ref).From ghostOrigin from trivial).bound

/-- The name stands for nothing in the first of two `executions`. In the second one it stands for an
object without such an operation. Only the second one is counted once. -/
theorem object_call_count_ghost :
    let m := ghostAfter (some { id := 1, className := "C" }) (ghostAfter none ghostStart)
    (∃ executions designations resolutions,
      ghostStart.Tally 4 m executions designations resolutions ∧
        m.hits.count 4 = executions + (designations - resolutions)) ∧
      m.executions 4 = 2 ∧ m.resolutions 4 = 1 ∧ m.hits.count 4 = 3 := by
  intro m
  have hruns := runs_ghostAfter (runs_ghostAfter (.refl (m := ghostStart)) none)
    (some { id := 1, className := "C" })
  have hstart : ghostStart.hits.count 4 = 0 := by decide +kernel
  obtain ⟨⟨e, d, r, htally, -, -, hcount⟩, -⟩ := object_call_count ghostCall ghostProgram nofun
    ⟨nofun, nofun, nofun, nofun, nofun⟩ ghostStart_reachable hruns
  refine ⟨⟨e, d, r, htally, ?_⟩, by decide +kernel⟩
  have hcounter : ghostCall.counter = 4 := rfl
  rwa [hcounter, hstart, Nat.zero_add] at hcount

/-- So it is not true that every execution of an `ObjectCall` is counted once. -/
theorem not_object_call_counted_once :
    ¬∀ (o : Origin) (A : ObjectCall o) (P : Program) (m m' : Machine), P.delegates.From o →
      P.model.From o → m.Reachable P o → m.Runs P o m' →
      m'.hits.count A.counter + m.executions A.counter =
        m.hits.count A.counter + m'.executions A.counter := by
  intro h
  have honce := h _ ghostCall ghostProgram _ _ nofun ⟨nofun, nofun, nofun, nofun, nofun⟩
    ghostStart_reachable (runs_ghostAfter .refl none)
  revert honce
  decide +kernel

end Animator
