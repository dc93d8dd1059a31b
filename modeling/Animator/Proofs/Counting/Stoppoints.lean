import Animator.Proofs.Effect.Runs
import Animator.Proofs.Counting.Discreet

/-!
# Stoppoints that count

A stoppoint with a hit condition counts how often its node is reached, and it stops the threads that
reach the node when the condition holds of that number. The place of the node has a counter of its
own. While nobody asks a thread to stop or to pause and the debugger evaluates nothing, both counts
follow the visits of the node, whatever other breakpoints there are and however the debugger steps.
-/

namespace Animator

def Event.reaches (node : NodeId) : Event → Bool
  | .visit n => n.id == node
  | _ => false

def Scheduler.Every (p : Thread → Prop) (s : Scheduler) : Prop :=
  ∀ r ∈ s.records, p r.thread

instance (p : Thread → Prop) [DecidablePred p] (s : Scheduler) : Decidable (s.Every p) :=
  inferInstanceAs (Decidable (∀ r ∈ s.records, p r.thread))

theorem Scheduler.Every.modify {p : Thread → Prop} {s : Scheduler} (h : s.Every p) (id : ThreadId)
    {f : ThreadRecord → ThreadRecord} (hf : ∀ r, p r.thread → p (f r).thread) :
    (s.modify id f).Every p := by
  intro r hr
  obtain ⟨r₀, hr₀, rfl⟩ := List.mem_map.1 hr
  split
  · exact hf r₀ (h r₀ hr₀)
  · exact h r₀ hr₀

/-- What a `Guard` of the model leaves alone. -/
theorem Guard.keeps_switch {g : Guard} (hg : g ≠ .within .debugging) (r : ThreadRecord) :
    ((g.switchOn r).thread.isDebugging = r.thread.isDebugging ∧
      (g.switchOn r).thread.stopRequested = r.thread.stopRequested) ∧
    (g.switchOff r).thread.isDebugging = r.thread.isDebugging ∧
      (g.switchOff r).thread.stopRequested = r.thread.stopRequested := by
  cases g with
  | timed => exact ⟨⟨rfl, rfl⟩, rfl, rfl⟩
  | within s =>
    cases s with
    | debugging => exact absurd rfl hg
    | _ => exact ⟨⟨rfl, rfl⟩, rfl, rfl⟩

namespace Machine

def visits (node : NodeId) (m : Machine) : Nat :=
  m.history.countP (·.reaches node)

/-- How often threads were `asked` to stop. -/
def stopRequests (m : Machine) : Nat :=
  m.scheduler.asked.length

/-- Something happens that neither the debugger nor a `counter` notices. Threads do not begin to
evaluate for the debugger, and they are to stop only if they are `asked` to. -/
structure Uncounted (counter : CounterId) (m m' : Machine) : Prop extends m.Unseen m' where
  count : m'.hits.count counter = m.hits.count counter
  requests : m.stopRequests ≤ m'.stopRequests
  probed : m.scheduler.Every (·.isDebugging = false) → m'.scheduler.Every (·.isDebugging = false)
  asked : m'.stopRequests = m.stopRequests → m.scheduler.Every (·.stopRequested = false) →
    m'.scheduler.Every (·.stopRequested = false)

variable {counter : CounterId} {m m' : Machine}

theorem Uncounted.modify (hu : m.Unseen m') (hhits : m'.hits = m.hits) {id : ThreadId}
    {f : ThreadRecord → ThreadRecord} (hs : m'.scheduler = m.scheduler.modify id f)
    (hf : ∀ r, (f r).thread.isDebugging = r.thread.isDebugging ∧
      (f r).thread.stopRequested = r.thread.stopRequested) : m.Uncounted counter m' where
  toUnseen := hu
  count := by rw [hhits]
  requests := by
    rw [stopRequests, stopRequests, hs]
    exact Nat.le_refl _
  probed h := hs ▸ h.modify id fun r hr => (hf r).1.trans hr
  asked _ h := hs ▸ h.modify id fun r hr => (hf r).2.trans hr

end Machine

/-! ### A stoppoint in a run -/

def Breakpoint.isCatch (b : Breakpoint) : Bool :=
  match b.kind with
  | .catch _ => true
  | _ => false

/-- A `Stoppoint` with a hit `condition` at a node of an origin, in which no other node has the
number or the counter of the node. -/
structure Stoppoint (o : Origin) where
  node : Node
  condition : HitCondition
  /-- The `Breakpoint` as it is at first. -/
  point : Breakpoint
  kind : point.kind = .stop (.hits condition)
  closed : o.Closed
  sole : ∀ n, o.node n → n.id = node.id ∨ n.location.counter = node.location.counter → n = node

namespace Stoppoint

variable {o : Origin} (A : Stoppoint o)

def counter : CounterId :=
  A.node.location.counter

/-- What the `counter` says at each of the stops that the debugger was shown for the stoppoint. -/
def stopsIn (m : Machine) : List Nat :=
  (m.stops.toList.filter (·.isAt (some A.point.number))).map (·.hits.count A.counter)

/-- Which of the next `visits` the `condition` selects. -/
def selected (visits : Nat) : List Nat :=
  (List.range' 1 visits).filter fun visit => A.condition.holds (A.point.hits + visit)

/-- What `stopsIn` should be after some visits. -/
def due (m₀ : Machine) (visits : Nat) : List Nat :=
  A.stopsIn m₀ ++ (A.selected visits).map (m₀.hits.count A.counter + ·)

theorem due_succ (m₀ : Machine) (k : Nat) :
    A.due m₀ (k + 1) = A.due m₀ k ++
      if A.condition.holds (A.point.hits + k + 1) then [m₀.hits.count A.counter + (k + 1)]
        else [] := by
  have hselected : A.selected (k + 1) = A.selected k ++
      if A.condition.holds (A.point.hits + k + 1) then [k + 1] else [] := by
    rw [selected, List.range'_concat, List.filter_append, Nat.one_mul, Nat.add_comm 1 k]
    simp [selected, List.filter_cons, Nat.add_assoc]
  rw [due, hselected, List.map_append, ← List.append_assoc, ← due]
  split <;> rfl

/-- There is nothing that would make a thread stop evaluating, and the number of the stoppoint is
that of no other breakpoint. -/
structure Calm (m : Machine) : Prop where
  discreet : m.Discreet
  interrupt : m.scheduler.interrupt = .none
  probed : m.scheduler.Every (·.isDebugging = false)
  numbered : ∀ b ∈ m.breakpoints.entries, b.number = A.point.number →
    b.node? = some A.node.id ∧ b.isCatch = false

/-- What is known at any moment of a run that began with the machine `m₀`: how often the node was
visited and the stoppoint was met, and until which visit the debugger was shown what was due. Once a
thread is asked to stop, only the visits are known: threads that are to stop meet no breakpoints. -/
structure Kept (m₀ : Machine) (visits met seen : Nat) (m : Machine) : Prop extends A.Calm m where
  visited : m.visits A.node.id = m₀.visits A.node.id + visits
  count : m.hits.count A.counter = m₀.hits.count A.counter + visits
  requests : m₀.stopRequests ≤ m.stopRequests
  asked : m.stopRequests = m₀.stopRequests → m.scheduler.Every (·.stopRequested = false)
  point : m.stopRequests = m₀.stopRequests →
    m.breakpoints.at? A.node.id = some { A.point with hits := A.point.hits + met }
  stops : m.stopRequests = m₀.stopRequests → A.stopsIn m <+: A.due m₀ seen
  attended : m.stopRequests = m₀.stopRequests → m.Attended → A.stopsIn m = A.due m₀ seen

namespace Kept

variable {A} {m₀ m m' : Machine} {k met seen : Nat} (h : A.Kept m₀ k met seen m)

include h

/-- Once a thread is asked to stop, the rest does not matter. -/
theorem disturbed (hne : m.stopRequests ≠ m₀.stopRequests) (met' seen' : Nat) :
    A.Kept m₀ k met' seen' m :=
  { h with
    point := fun heq => absurd heq hne
    stops := fun heq => absurd heq hne
    attended := fun heq => absurd heq hne }

theorem uncounted (hu : m.Uncounted A.counter m') : A.Kept m₀ k met seen m' := by
  have hstops : A.stopsIn m' = A.stopsIn m := by rw [stopsIn, stopsIn, hu.stops]
  -- If nobody was asked to stop until now, then nobody was before.
  have hbefore : m'.stopRequests = m₀.stopRequests →
      m.stopRequests = m₀.stopRequests ∧ m'.stopRequests = m.stopRequests := by
    have hle := h.requests
    have hle' := hu.requests
    omega
  exact {
    discreet := ⟨hu.breakpoints ▸ h.discreet.breakpoints, hu.link ▸ h.discreet.link⟩
    interrupt := hu.interrupt.trans h.interrupt
    probed := hu.probed h.probed
    numbered := hu.breakpoints ▸ h.numbered
    visited := (congrArg (List.countP _) hu.history).trans h.visited
    count := hu.count.trans h.count
    requests := Nat.le_trans h.requests hu.requests
    asked := fun heq => hu.asked (hbefore heq).2 (h.asked (hbefore heq).1)
    point := fun heq => hu.breakpoints ▸ h.point (hbefore heq).1
    stops := fun heq => hstops ▸ h.stops (hbefore heq).1
    attended := fun heq ⟨l, hl⟩ =>
      hstops.trans (h.attended (hbefore heq).1 ⟨l, hu.link ▸ hl⟩) }

theorem noted {event : Event} (hevent : event.reaches A.node.id = false) :
    A.Kept m₀ k met seen { m with history := event :: m.history } :=
  { h with
    discreet := { h.discreet with }
    visited := (List.countP_cons_of_neg (ne_true_of_eq_false hevent)).trans h.visited }

/-! ### Stops -/

omit h in
theorem stopsIn_reported (link : Link) (stop : Stop) :
    A.stopsIn (m.reported link stop) = A.stopsIn m ++
      if stop.isAt (some A.point.number) then [stop.hits.count A.counter] else [] := by
  rw [stopsIn, Machine.reported, Array.toList_push, List.filter_append, List.map_append,
    List.filter_singleton, ← stopsIn]
  cases stop.isAt (some A.point.number) <;> rfl

theorem shown_other {reason : StopReason} (hs : m.Shown reason m')
    (hreason : m.stopRequests = m₀.stopRequests → reason ≠ .breakpoint A.point.number) :
    A.Kept m₀ k met seen m' := by
  have hm' := h.discreet.shown hs
  induction hs with
  | unattended => exact h
  | @attended link stop hlink hattends hstop =>
    have hsame (heq : m.stopRequests = m₀.stopRequests) :
        A.stopsIn (m.reported link stop) = A.stopsIn m := by
      have hother : stop.isAt (some A.point.number) = false := by
        unfold Stop.isAt
        rw [hstop]
        cases reason with
        | breakpoint n =>
          exact beq_eq_false_iff_ne.2 fun hn => hreason heq (congrArg _ (Option.some.inj hn).symm)
        | _ => rfl
      rw [stopsIn_reported, hother]
      exact List.append_nil _
    exact { h with
      discreet := hm'
      stops := fun heq => hsame heq ▸ h.stops heq
      attended := fun heq _ => (hsame heq).trans (h.attended heq ⟨_, hlink, hattends⟩) }
  | goOn hs id step ih =>
    exact (ih (h.discreet.shown hs)).uncounted
      (.modify ⟨rfl, rfl, rfl, rfl, rfl⟩ rfl rfl fun _ => ⟨rfl, rfl⟩)

omit h in
/-- The stop of the stoppoint itself, at a visit that is selected. -/
theorem shown_own (h : A.Kept m₀ (k + 1) met k m) (hs : m.Shown (.breakpoint A.point.number) m')
    (hholds : A.condition.holds (A.point.hits + k + 1) = true) :
    A.Kept m₀ (k + 1) met (k + 1) m' := by
  have hdue : A.due m₀ (k + 1) = A.due m₀ k ++ [m₀.hits.count A.counter + (k + 1)] := by
    rw [due_succ, if_pos hholds]
  have hm' := h.discreet.shown hs
  induction hs with
  | unattended hleft =>
    exact { h with
      stops := fun heq => hdue ▸ (h.stops heq).trans (List.prefix_append _ _)
      attended := fun _ hattends => absurd hattends hleft }
  | @attended link stop hlink hattends hstop hhits =>
    have hown : stop.isAt (some A.point.number) = true := by simp [Stop.isAt, hstop]
    have hsame (heq : m.stopRequests = m₀.stopRequests) :
        A.stopsIn (m.reported link stop) = A.due m₀ (k + 1) := by
      rw [stopsIn_reported, if_pos hown, h.attended heq ⟨_, hlink, hattends⟩, hhits, h.count, hdue]
    exact { h with
      discreet := hm'
      stops := fun heq => hsame heq ▸ List.prefix_refl _
      attended := fun heq _ => hsame heq }
  | goOn hs id step ih =>
    exact (ih (h.discreet.shown hs)).uncounted
      (.modify ⟨rfl, rfl, rfl, rfl, rfl⟩ rfl rfl fun _ => ⟨rfl, rfl⟩)

omit h in
theorem pass (h : A.Kept m₀ (k + 1) met k m)
    (hholds : A.condition.holds (A.point.hits + k + 1) = false) :
    A.Kept m₀ (k + 1) met (k + 1) m := by
  have hdue : A.due m₀ (k + 1) = A.due m₀ k := by
    rw [due_succ, hholds]
    exact List.append_nil _
  exact { h with stops := hdue ▸ h.stops, attended := hdue ▸ h.attended }

/-! ### Breakpoints that are met -/

theorem hit (number : Nat) :
    A.Kept m₀ k (if number = A.point.number then met + 1 else met) seen
      { m with breakpoints := m.breakpoints.hit number } :=
  { h with
    discreet := h.discreet.hit number
    numbered := fun b hb hnumber => by
      obtain ⟨a, ha, rfl⟩ := List.mem_map.1 (m.breakpoints.entries_hit number ▸ hb)
      unfold Breakpoint.countHit at hnumber ⊢
      by_cases hhit : (a.number == number) = true
      · rw [if_pos hhit] at hnumber ⊢
        exact h.numbered a ha hnumber
      · rw [if_neg hhit] at hnumber ⊢
        exact h.numbered a ha hnumber
    point := fun heq => by
      rw [BreakpointTable.at?_hit, h.point heq]
      by_cases hnumber : number = A.point.number <;> simp [Breakpoint.met, hnumber, Nat.add_assoc] }

theorem hit_other {number : Nat}
    (hnumber : m.stopRequests = m₀.stopRequests → number ≠ A.point.number) :
    A.Kept m₀ k met seen { m with breakpoints := m.breakpoints.hit number } := by
  have hhit := h.hit number
  by_cases heq : m.stopRequests = m₀.stopRequests
  · rwa [if_neg (hnumber heq)] at hhit
  · exact hhit.disturbed heq met seen

theorem meets_other {b : Breakpoint} (hmeets : m.Meets b m')
    (hb : m.stopRequests = m₀.stopRequests → b.number ≠ A.point.number) :
    A.Kept m₀ k met seen m' := by
  cases hmeets with
  | stop _ hshown =>
    exact (h.hit_other hb).shown_other hshown fun heq hr => hb heq (StopReason.breakpoint.inj hr)
  | pass => exact h.hit_other hb

omit h in
/-- The stoppoint itself is met (`Kept`), after the visit has been counted. -/
theorem meets_own (h : A.Kept m₀ (k + 1) k k m) (heq : m.stopRequests = m₀.stopRequests)
    {b : Breakpoint} (hb : m.breakpoints.at? A.node.id = some b) (hmeets : m.Meets b m') :
    A.Kept m₀ (k + 1) (k + 1) (k + 1) m' := by
  obtain rfl := Option.some.inj (hb.symm.trans (h.point heq))
  have hhit := h.hit A.point.number
  rw [if_pos rfl] at hhit
  have hstops : BreakpointKind.stopsAfter (A.point.hits + k + 1) A.point.kind =
      A.condition.holds (A.point.hits + k + 1) := by
    rw [A.kind]
    rfl
  cases hmeets with
  | stop hstop hshown => exact hhit.shown_own hshown (hstops.symm.trans hstop)
  | pass hpasses => exact hhit.pass (hstops.symm.trans hpasses)

/-! ### Visits -/

/-- A node of the origin is visited: it is the node itself, or has nothing to do with it. -/
theorem visit {node : Node} (hnode : o.node node) :
    ∃ k', A.Kept m₀ k' met seen (m.counted node) ∧
      (node = A.node ∧ k' = k + 1 ∨ node.id ≠ A.node.id ∧ k' = k) := by
  by_cases hown : node = A.node
  · subst hown
    have hreaches : (Event.visit A.node).reaches A.node.id = true := beq_self_eq_true _
    refine ⟨k + 1, { h with discreet := { h.discreet with }, visited := ?_, count := ?_ },
      .inl ⟨rfl, rfl⟩⟩
    · exact (List.countP_cons_of_pos hreaches).trans (congrArg (· + 1) h.visited)
    · exact (Hits.count_hit ..).trans ((if_pos rfl).trans (congrArg (· + 1) h.count))
  · have hid : node.id ≠ A.node.id := fun h => hown (A.sole node hnode (.inl h))
    have hcounter : A.counter ≠ node.location.counter :=
      fun h => hown (A.sole node hnode (.inr h.symm))
    have hreaches : ¬(Event.visit node).reaches A.node.id = true := fun heq =>
        hid (beq_iff_eq.1 heq)
    refine ⟨k, { h with discreet := { h.discreet with }, visited := ?_, count := ?_ },
      .inr ⟨hid, rfl⟩⟩
    · exact (List.countP_cons_of_neg hreaches).trans h.visited
    · exact (Hits.count_hit ..).trans ((if_neg hcounter).trans h.count)

omit h in
/-- After a visit, the breakpoint of the node takes effect. -/
theorem meet {node : Node} (h : A.Kept m₀ k met met m)
    (hwhich : node = A.node ∧ k = met + 1 ∨ node.id ≠ A.node.id ∧ k = met)
    (hmet : m.breakpoints.at? node.id = none ∧ m' = m ∨
      ∃ b, m.breakpoints.at? node.id = some b ∧ m.Meets b m') : A.Kept m₀ k k k m' := by
  by_cases heq : m.stopRequests = m₀.stopRequests
  · rcases hwhich with ⟨rfl, rfl⟩ | ⟨hid, rfl⟩
    · rcases hmet with ⟨hnone, -⟩ | ⟨b, hb, hmeets⟩
      -- As long as nobody is asked to stop, the stoppoint is at its node.
      · cases hnone.symm.trans (h.point heq)
      · exact h.meets_own heq hb hmeets
    · rcases hmet with ⟨-, rfl⟩ | ⟨b, hb, hmeets⟩
      · exact h
      · refine h.meets_other hmeets fun _ hnumber => hid ?_
        have hat := (h.numbered b (BreakpointTable.mem_entries_of_at? hb) hnumber).1
        have hfound := List.find?_some (p := fun b : Breakpoint => b.node? == some node.id) hb
        exact Option.some.inj ((beq_iff_eq.1 hfound).symm.trans hat)
  · have hany := h.disturbed heq k k
    rcases hmet with ⟨-, rfl⟩ | ⟨b, -, hmeets⟩
    · exact hany
    · exact hany.meets_other hmeets fun h => absurd h heq

end Kept

/-- A step does not touch the counter of the stoppoint. -/
theorem uncounted_step {P : Program} {T : ThreadId → Prop} {Made : ObjectRef → Prop}
    {m m' : Machine} (hs : m.Step P o T Made m') : m.Uncounted A.counter m' := by
  have hunseen := hs.unseen
  cases hs with
  | unhit designator location he hplace hshares =>
    refine ⟨hunseen, ?_, Nat.le_refl _, id, fun _ => id⟩
    have hdesignator : designator.location.counter = location.counter := beq_iff_eq.1 hshares
    have hne : A.counter ≠ location.counter := by
      intro heq
      -- The node would be an expression, and a statement as well.
      obtain ⟨s, hs, rfl⟩ := A.closed.exists_of_place hplace
      have hexpr := A.sole (.expr designator) he (.inr (hdesignator.trans heq.symm))
      have hstmt := A.sole (.stmt s) hs (.inr heq.symm)
      cases hexpr.trans hstmt.symm
    simp [Hits.count_unhit, hne]
  | delegate call v heap scheduler hargs hi =>
    rcases Delegates.invoke_cases hi with ⟨-, -, rfl⟩ | ⟨-, ⟨-, rfl⟩ | ⟨-, cpu, hz, rfl⟩ | ⟨rfl, -⟩⟩
    all_goals exact ⟨hunseen, rfl, Nat.le_refl _, id, fun _ => id⟩
  | spawn id' ref job hid hjob =>
    have hnew : ∀ {p : Thread → Prop}, (∀ id name cpu, p { id, name, cpu }) →
        m.scheduler.Every p →
        (m.spawn ref.text (some ref) (m.scheduler.time id') job).2.scheduler.Every p := by
      intro p hp h r hr
      rcases List.mem_append.1 hr with hr | hr
      · exact h r hr
      · rw [List.mem_singleton.1 hr]
        exact hp _ _ _
    exact ⟨hunseen, rfl, Nat.le_refl _, hnew fun _ _ _ => rfl, fun _ => hnew fun _ _ _ => rfl⟩
  | stop ref =>
    have hlater : m.scheduler.asked.length + 1 = (m.scheduler.stop ref).2.asked.length := by
      unfold Scheduler.stop
      split <;> rfl
    refine ⟨hunseen, rfl, ?_, fun h => ?_, fun hsame => ?_⟩
    · exact Nat.le_of_lt (Nat.lt_of_succ_le (Nat.le_of_eq hlater))
    · unfold Scheduler.stop
      split
      · exact Scheduler.Every.modify (s := m.scheduler.ask ref) h _ fun _ hr => hr
      · exact h
    · simp only [Machine.stopRequests] at hsame
      omega
  | _ => exact ⟨hunseen, rfl, Nat.le_refl _, id, fun _ => id⟩

end Stoppoint

/-! ### All evaluations -/

namespace Machine

variable {m m' : Machine} {o : Origin}

theorem Shown.from {reason : StopReason} (hs : m.Shown reason m') (hm : m.From o) : m'.From o := by
  induction hs with
  | unattended => exact hm
  | attended stop hlink =>
    refine { hm with watch := fun l hl e he => ?_ }
    rw [← Option.some.inj hl, Link.watch_answer] at he
    exact hm.watch _ hlink e he
  | goOn _ id step ih => exact { ih with }

theorem Meets.from {b : Breakpoint} (hmeets : m.Meets b m') (hm : m.From o) : m'.From o := by
  have hhit := hm.obeyStep (T := fun _ => True) (.breakpoint b.number)
  cases hmeets with
  | stop _ hshown => exact hshown.from hhit
  | pass => exact hhit

end Machine

/-- Evaluations keep what is known of a `Stoppoint`. -/
def stopEffect {o : Origin} (A : Stoppoint o) (P : Program) (hP : P.delegates.From o)
    (m₀ : Machine) : Effect P o fun _ => True where
  Inv m := ∃ k, A.Kept m₀ k k k m
  Rel _ _ _ := True
  -- The debugger evaluates nothing.
  Allows g := g ≠ .within .debugging
  delegates := hP
  refl _ := trivial
  ends _ _ := trivial
  trans _ _ _ := trivial
  recover _ _ := trivial
  step h hs := ⟨h.imp fun _ h => h.uncounted (A.uncounted_step hs), trivial⟩
  allows h := h
  enter g _ hg _ h := h.imp fun _ h => h.uncounted
    (.modify g.unseen_enter (by cases g <;> rfl) (congrArg _ g.enter_eq) fun r =>
      (g.keeps_switch hg r).1)
  leave g _ hg _ _ _ _ h := ⟨h.imp fun _ h => h.uncounted
    (.modify g.unseen_leave (by cases g <;> rfl) (congrArg _ g.leave_eq) fun r =>
      (g.keeps_switch hg r).2),
    trivial⟩

namespace stopEffect

variable {o : Origin} {A : Stoppoint o} {P : Program} {hP : P.delegates.From o} {m₀ m m' : Machine}
  {E : Engine} {location : Location} {c : Context}

instance : (stopEffect A P hP m₀).Charges where
  charge _ _ h _ := ⟨h.imp fun _ h => h.uncounted
    (.modify ⟨rfl, rfl, rfl, rfl, rfl⟩ rfl rfl fun _ => ⟨rfl, rfl⟩), trivial⟩

instance : (stopEffect A P hP m₀).Joins where
  step h hs := by
    refine ⟨h.imp fun _ h => h.uncounted ?_, trivial⟩
    cases hs with
    | globals => exact ⟨⟨rfl, rfl, rfl, rfl, rfl⟩, rfl, Nat.le_refl _, id, fun _ => id⟩
    | release id due =>
      unfold Scheduler.release
      dsimp only
      split <;> exact .modify ⟨rfl, rfl, rfl, rfl, rfl⟩ rfl rfl fun _ => ⟨rfl, rfl⟩
    | die id => exact .modify ⟨rfl, rfl, rfl, rfl, rfl⟩ rfl rfl fun _ => ⟨rfl, rfl⟩
  swallow _ := trivial
  join h hs := by
    refine ⟨h.imp fun _ h => h.uncounted ?_, trivial⟩
    cases hs with
    | takeWaiting => exact ⟨⟨rfl, rfl, rfl, rfl, rfl⟩, rfl, Nat.le_refl _, id, fun _ => id⟩
    | finish | takeOutcome =>
      exact .modify ⟨rfl, rfl, rfl, rfl, rfl⟩ rfl rfl fun _ => ⟨rfl, rfl⟩

/-- A thread stops for another `reason` than the stoppoint. -/
theorem holds_suspend {reason : StopReason} (hreason : reason ≠ .breakpoint A.point.number) :
    (stopEffect A P hP m₀).Does Eq (E.suspend reason location c) := by
  rintro m hm ⟨k, h⟩
  obtain ⟨m', hrun, hshown⟩ := E.suspend_discreet h.discreet location c reason
  rw [hrun]
  exact ⟨rfl, hshown.from hm, ⟨k, h.shown_other hshown fun _ => hreason⟩, trivial, .value rfl⟩

theorem catches : (stopEffect A P hP m₀).Catches E where
  offer {m v bs location c} hm h hbs _ _ := by
    induction bs with
    | nil => exact .pure rfl hm h
    | cons b rest ih =>
      refine .reads ?_
      split
      · next hcatches =>
        obtain ⟨k, h⟩ := h
        -- A breakpoint that catches values is not the stoppoint.
        have hnumber : b.number ≠ A.point.number := by
          intro hnumber
          have hother := (h.numbered b (hbs b List.mem_cons_self) hnumber).2
          unfold Breakpoint.isCatch at hother
          unfold Breakpoint.catches at hcatches
          cases hk : b.kind with
          | «catch» => simp [hk] at hother
          | _ => simp [hk] at hcatches
        exact .after ⟨k, h⟩ trivial (holds_suspend (by simp) _
          (hm.obeyStep (T := fun _ => True) (.breakpoint b.number)) ⟨k, h.hit_other fun _ =>
            hnumber⟩)
      · exact ih fun b hb => hbs b (List.mem_cons_of_mem _ hb)
  reportFatal {message location c} _ _ := by
    rintro m hm ⟨k, h⟩
    obtain ⟨m', hrun, rfl | hshown⟩ := E.reportFatal_discreet h.discreet location c message
    · rw [hrun]
      exact .pure rfl hm ⟨k, h⟩
    · rw [hrun]
      exact ⟨rfl, hshown.from hm, ⟨k, h.shown_other hshown (by simp)⟩, trivial, .value rfl⟩

theorem takeTurn (stopped : Bool) :
    (stopEffect A P hP m₀).Does Eq (E.takeTurn stopped location c) := by
  refine fun m hm h => .reads ?_
  split
  · split
    · exact .pure rfl hm h
    · exact ⟨rfl, { hm with }, h.imp fun _ h => h.uncounted
        (.modify ⟨rfl, rfl, rfl, rfl, rfl⟩ rfl rfl fun _ => ⟨rfl, rfl⟩), trivial, .value rfl⟩
  · split
    · exact holds_suspend (by simp) m hm h
    · exact .pure rfl hm h

theorem holds_of_records {p : Thread → Prop} (h : m.scheduler.Every p) (id : ThreadId)
    (hp : p { id, name := "" }) : p (m.thread id) := by
  unfold Machine.thread
  split
  · next r hr => exact h r (List.mem_of_find?_eq_some hr)
  · exact hp

/-- A thread arrives at a node, by `arrive`. It ends there only if somebody was asked to stop. -/
theorem arrive {node : Node} (hnode : o.node node) :
    (stopEffect A P hP m₀).Does Eq (E.arrive node c) := by
  rintro m hm ⟨k, h⟩
  obtain ⟨k', hvisit, hwhich⟩ := h.visit hnode
  have hm₁ : (m.counted node).From o := { hm with }
  have hprobed : (m.thread c.thread).isDebugging = false := holds_of_records h.probed _ rfl
  rw [E.arrive_apply, if_neg (ne_true_of_eq_false hprobed)]
  split
  · next hstop =>
    have hne : m.stopRequests ≠ m₀.stopRequests := by
      intro heq
      cases (holds_of_records (h.asked heq) c.thread rfl).symm.trans hstop
    exact ⟨rfl, { hm with }, ⟨k', (hvisit.disturbed hne k' k').noted rfl⟩, trivial, .halt trivial⟩
  · have htaken : (m.counted node).taken = m.counted node := by
      simp only [Machine.taken, Machine.counted, Scheduler.takeInterrupt, ← h.interrupt]
    obtain ⟨stopped, m', hrun, hmet⟩ :=
      E.meetBreakpoint_discreet hvisit.discreet node.location c node.id
    have hobey : E.obey node.id node.location c .none (m.counted node) =
        E.takeTurn stopped node.location c m' := bind_of_ok hrun
    rw [htaken, h.interrupt, hobey]
    have hm' : m'.From o := by
      rcases hmet with ⟨-, rfl⟩ | ⟨b, -, hmeets⟩
      · exact hm₁
      · exact hmeets.from hm₁
    exact .after ⟨k, h⟩ trivial (takeTurn stopped m' hm' ⟨k', hvisit.meet hwhich hmet⟩)

theorem leaves (S : (stopEffect A P hP m₀).Sound E) : (stopEffect A P hP m₀).Leaves E where
  toSound := S
  arrive hnode _ _ := arrive hnode
  fail := Effect.Obeys.fail catches
  raise := Effect.Obeys.raise catches
  comeBack _ _ _ _ := by
    refine .bindEq (fun m hm h => ?_) fun _ m hm h => .reads ?_
    · exact ⟨rfl, { hm with }, h.imp fun _ h => h.noted rfl, trivial, .value rfl⟩
    · split
      · exact holds_suspend (by simp) m hm h
      · exact .pure rfl hm h

end stopEffect

/-! ### Runs -/

/-- **A hit condition selects visits.** A run begins with a stoppoint at a node, and nobody is asked
to stop in it. Then the hits of the stoppoint and the counter of the node rise with every visit of
the node, and the debugger is shown exactly the visits that the condition selects, as long as it
attends: at the visit with number `h` the counter has risen by `h`. -/
theorem hit_condition_selects_visits {o : Origin} (A : Stoppoint o) (P : Program)
    (hP : P.delegates.From o) (hmodel : P.model.From o) {m m' : Machine} (hm : m.Reachable P o)
    (hcalm : A.Calm m) (hasked : m.scheduler.Every (·.stopRequested = false))
    (hpoint : m.breakpoints.at? A.node.id = some A.point) (hruns : m.Runs P o m')
    (hrequests : m'.stopRequests = m.stopRequests) :
    ∃ visits, m'.visits A.node.id = m.visits A.node.id + visits ∧
      m'.hits.count A.counter = m.hits.count A.counter + visits ∧
      m'.breakpoints.at? A.node.id = some { A.point with hits := A.point.hits + visits } ∧
      A.stopsIn m' <+: A.due m visits ∧ (m'.Attended → A.stopsIn m' = A.due m visits) := by
  have hleaves (bound : Nat) : (stopEffect A P hP m).Leaves (P.engine bound) :=
    stopEffect.leaves (Effect.run A.closed (fun _ => stopEffect.leaves) bound)
  have hdue : A.stopsIn m = A.due m 0 := by simp [Stoppoint.due, Stoppoint.selected]
  have hstart : A.Kept m 0 0 0 m :=
    ⟨hcalm, rfl, rfl, Nat.le_refl _, fun _ => hasked, fun _ => hpoint,
      fun _ => hdue ▸ List.prefix_refl _, fun _ _ => hdue⟩
  have hfrom : m.From o :=
    (hm.origin hmodel ((keepDrift P o hP).sound A.closed)).1
  obtain ⟨-, ⟨visits, h⟩, -⟩ := hruns.rel hleaves hmodel (fun _ => trivial) hfrom ⟨0, hstart⟩
  exact ⟨visits, h.visited, h.count, h.point hrequests, h.stops hrequests, h.attended hrequests⟩

def loopBody : Stmt :=
  .onLine 2 (.block [] [.onLine 3 .skip])

def fiveItems : Expr :=
  .onLine 1 (.literal (.text "round"))

def fiveRounds : Stmt :=
  .onLine 1 (.forPattern (.pattern ⟨.onLine 1, .ignore⟩) fiveItems false loopBody)

def roundsOrigin : Origin where
  expr e := e = fiveItems
  stmt s := s = fiveRounds ∨ s = loopBody ∨ s = .onLine 3 .skip
  cells := True

def thirdRound : Stoppoint roundsOrigin where
  node := .stmt loopBody
  condition := .eq 3
  point := { number := 1, target := some (2, .onLine 2), kind := .stop (.hits (.eq 3)) }
  kind := rfl
  closed := by
    refine ⟨?_, ?_⟩
    · rintro e rfl
      exact nofun
    · rintro s (rfl | rfl | rfl)
      · exact ⟨List.forall_mem_singleton.2 rfl, List.forall_mem_singleton.2 (.inr (.inl rfl)),
          nofun⟩
      · exact ⟨nofun, List.forall_mem_singleton.2 (.inr (.inr rfl)), nofun⟩
      · exact ⟨nofun, nofun, nofun⟩
  sole n hn h := by
    cases n with
    | expr e =>
      obtain rfl := hn
      exact absurd h (by decide)
    | stmt s =>
      rcases hn with rfl | rfl | rfl
      · exact absurd h (by decide)
      · rfl
      · exact absurd h (by decide)

def steppedStart : Machine :=
  { (((emptyProgram {}).engine 9).initialise (Machine.initial (emptyProgram {}) {})).2 with
    breakpoints := { count := 1, points := [thirdRound.point] }
    link := some { fallback := .stepIn } }

theorem calm_steppedStart : thirdRound.Calm steppedStart where
  discreet := by
    refine ⟨List.forall_mem_singleton.2 trivial, fun l hl => ?_⟩
    cases hl
    exact ⟨rfl, nofun, nofun⟩
  interrupt := rfl
  probed := by decide +kernel
  numbered := List.forall_mem_singleton.2 fun _ => ⟨rfl, rfl⟩

/-- The third of `fiveRounds` is a stop of the stoppoint. From there the debugger steps, and the
body is reached two more times. -/
theorem hit_condition_selects_visits_third :
    let m' := (Activity.task (.entry (.execute fiveRounds))).after ((emptyProgram {}).engine 9)
      steppedStart
    thirdRound.Calm steppedStart ∧ m'.stopRequests = steppedStart.stopRequests ∧
      (∃ visits, m'.visits 2 = visits ∧ m'.hits.count 2 = visits ∧
        m'.breakpoints.at? 2 = some { thirdRound.point with hits := visits } ∧
        thirdRound.stopsIn m' = thirdRound.due steppedStart visits) ∧
      m'.visits 2 = 5 ∧ thirdRound.stopsIn m' = [3] ∧ m'.stops.size = 6 := by
  intro m'
  have hreachable : steppedStart.Reachable (emptyProgram {}) roundsOrigin := by
    refine .debug _ _ #[] (List.forall_mem_singleton.2 nofun) (fun l hl => ?_)
      (.create {} [] 9 (Heap.from_empty _))
    cases hl
    exact nofun
  have hruns : steppedStart.Runs (emptyProgram {}) roundsOrigin m' := .next .refl 9 _ (.inl rfl)
  have hattended : m'.Attended := (Option.any_eq_true _ _).1 (by decide +kernel)
  have hrequests : m'.stopRequests = steppedStart.stopRequests := by decide +kernel
  obtain ⟨visits, hvisits, hcount, hpoint, -, hstops⟩ := hit_condition_selects_visits thirdRound
    (emptyProgram {}) nofun ⟨nofun, nofun, nofun, nofun, nofun⟩ hreachable calm_steppedStart
    (by decide +kernel) rfl hruns hrequests
  -- Nothing was counted before the run.
  have hbefore : steppedStart.visits 2 = 0 ∧ steppedStart.hits.count 2 = 0 ∧
      thirdRound.point.hits = 0 := by decide +kernel
  obtain ⟨hbefore₁, hbefore₂, hbefore₃⟩ := hbefore
  refine ⟨calm_steppedStart, hrequests, ⟨visits, ?_, ?_, ?_, hstops hattended⟩, by decide +kernel⟩
  · exact hvisits.trans (by rw [show thirdRound.node.id = 2 from rfl, hbefore₁, Nat.zero_add])
  · exact hcount.trans (by rw [show thirdRound.counter = 2 from rfl, hbefore₂, Nat.zero_add])
  · exact hpoint.trans (by rw [hbefore₃, Nat.zero_add])

end Animator
