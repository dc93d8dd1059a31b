import Animator.Proofs.Ending

/-!
# The debugger

What the debugger does is made of a few steps as well: it evaluates expressions and takes early
ends for results (`Effect.Inspects`), it is shown stops and gives commands (`Effect.Reports`), and
it looks at every node before the node is evaluated (`Effect.Checks`). An effect that is closed
under these steps holds of everything that is left to show for an engine (`Effect.Checks.leaves`).
-/

namespace Animator

def Machine.unwound (m : Machine) (halt : Halt) : Machine :=
  { m with history := .unwound halt m.snapshot :: m.history }

def Machine.counted (m : Machine) (node : Node) : Machine :=
  { m with history := .visit node :: m.history, hits := m.hits.hit node.location.counter }

def Machine.taken (m : Machine) : Machine :=
  { m with scheduler := m.scheduler.takeInterrupt.2 }

def Machine.reported (m : Machine) (link : Link) (stop : Stop) : Machine :=
  { m with link := some link.answer.2, stops := m.stops.push stop }

/-- Everything that checks do to a machine, apart from stops, once a node has been counted. -/
inductive Machine.ObeyStep (T : ThreadId → Prop) (m : Machine) : Machine → Prop where
  | returned (stepping : Bool) (location : Location) (c : Context) (ht : T c.thread) :
    ObeyStep T m { m with history := .returned stepping location c :: m.history }
  | request : ObeyStep T m { m with scheduler := m.scheduler.takeInterrupt.2 }
  | breakpoint (number : Nat) : ObeyStep T m { m with breakpoints := m.breakpoints.hit number }
  | yieldPoint (id : ThreadId) (ht : T id) (hturn : (m.thread id).isAtomic = false) :
    ObeyStep T m { m with scheduler := m.scheduler.yieldPoint id }

variable {P : Program} {o : Origin} {T : ThreadId → Prop} {m m' : Machine}

/-- A `check`, seen from the machine that it begins with: first the place is counted, then the
thread decides. -/
theorem Engine.check_apply (E : Engine) (node : NodeId) (location : Location) (c : Context)
    (m : Machine) :
    E.check node location c m =
      if (m.thread c.thread).isDebugging then
        (.ok (), { m with hits := m.hits.hit location.counter })
      else if (m.thread c.thread).stopRequested then
        Eval.unwind (.stopped location) { m with hits := m.hits.hit location.counter }
      else
        E.obey node location c m.scheduler.interrupt
          { m with
            hits := m.hits.hit location.counter
            scheduler := m.scheduler.takeInterrupt.2 } := by
  -- The branches are computations; the statement is about their results.
  have hsplit : ∀ (b b' : Bool) (x y z : Eval Unit) (m : Machine),
      (if b then x else if b' then y else z) m = if b then x m else if b' then y m else z m := by
    intro b b' x y z m
    cases b <;> cases b' <;> rfl
  exact hsplit _ _ (return) (Eval.unwind (.stopped location))
    (do E.obey node location c (← Eval.schedule (·.takeInterrupt))) _

theorem Engine.arrive_apply (E : Engine) (node : Node) (c : Context) (m : Machine) :
    E.arrive node c m =
      if (m.thread c.thread).isDebugging then (.ok (), m.counted node)
      else if (m.thread c.thread).stopRequested then
        Eval.unwind (.stopped node.location) (m.counted node)
      else E.obey node.id node.location c m.scheduler.interrupt (m.counted node).taken :=
  (bind_of_ok rfl).trans (E.check_apply node.id node.location c _)

theorem Engine.suspend_apply (E : Engine) (reason : StopReason) (location : Location) (c : Context)
    (m : Machine) :
    E.suspend reason location c m =
      match m.link with
      | some link =>
        (do Engine.resume (← E.consult link reason location c) location c : Eval Unit) m
      | none => (.ok (), m) := by
  refine (bind_of_ok rfl).trans ?_
  dsimp only
  cases m.link <;> rfl

theorem Engine.suspend_of_none (E : Engine) (reason : StopReason) (location : Location)
    (c : Context)
    (hlink : m.link = none) : E.suspend reason location c m = (.ok (), m) := by
  rw [E.suspend_apply, hlink]

theorem Engine.comeBack_of_none (E : Engine) (wasStepping : Bool) (location : Location)
    (c inner : Context) (hlink : m.link = none) :
    E.comeBack wasStepping location c inner m =
      (.ok (), { m with history := .returned wasStepping location c :: m.history }) := by
  refine (bind_of_ok rfl).trans ((bind_of_ok rfl).trans ?_)
  dsimp only
  split
  · exact E.suspend_of_none _ location _ hlink
  · rfl

/-- A value that is raised and offered (`offer`) where there is no catchpoint. -/
theorem Engine.offer_of_none (E : Engine) {v : Value} (location : Location) (c : Context)
    {bs : List Breakpoint} (hnone : ∀ b ∈ bs, b.catches m.heap v = false) :
    E.offer v location c bs m = (.ok (), m) := by
  induction bs with
  | nil => rfl
  | cons b rest ih =>
    obtain ⟨hb, hrest⟩ := List.forall_mem_cons.1 hnone
    refine (bind_of_ok rfl).trans ?_
    dsimp only
    rw [if_neg (ne_true_of_eq_false hb)]
    exact ih hrest

theorem Engine.raise_of_none {α : Type} (E : Engine) (v : Value) (location : Location) (c : Context)
    (hnone : ∀ b ∈ m.breakpoints.catchpoints, b.catches m.heap v = false) :
    E.raise (α := α) v location c m = (.error (.exit v location), m) := by
  refine (bind_of_ok rfl).trans ?_
  dsimp only
  split
  · rfl
  · refine (bind_of_ok rfl).trans ?_
    exact bind_of_ok (E.offer_of_none location _ hnone)

theorem Engine.meetBreakpoint_of_none (E : Engine) (location : Location) (c : Context)
    {node : NodeId} (hfound : m.breakpoints.at? node = none) :
    E.meetBreakpoint node location c m = (.ok false, m) := by
  refine (bind_of_ok rfl).trans ?_
  dsimp only
  rw [hfound]
  rfl

theorem Engine.meetBreakpoint_of_some (E : Engine) (location : Location) (c : Context)
    {node : NodeId} {b : Breakpoint} (hfound : m.breakpoints.at? node = some b) :
    E.meetBreakpoint node location c m =
      E.takeEffect b location c { m with breakpoints := m.breakpoints.hit b.number } := by
  refine (bind_of_ok rfl).trans ?_
  dsimp only
  rw [hfound]
  rfl

theorem Engine.applyBreakpoint_eq (E : Engine) (b : Breakpoint) (location : Location)
    (c : Context) :
    E.applyBreakpoint b location c = (do
      Eval.change fun m => { m with breakpoints := m.breakpoints.hit b.number }
      E.takeEffect b location c) :=
  rfl

theorem Engine.reportFatal_apply (E : Engine) (message : String) (location : Location) (c : Context)
    (m : Machine) :
    E.reportFatal message location c m =
      if (m.thread c.thread).isDebugging then (.ok (), m)
      else
        match m.link with
        | some link => (do let _ ← E.consult link (.fatal message) location c : Eval Unit) m
        | none => (.ok (), m) := by
  refine (bind_of_ok rfl).trans ?_
  dsimp only
  split
  · rfl
  · refine (bind_of_ok rfl).trans ?_
    dsimp only
    cases m.link <;> rfl

theorem Engine.reportFatal_of_none (E : Engine) (message : String) (location : Location)
    (c : Context)
    (hlink : m.link = none) : E.reportFatal message location c m = (.ok (), m) := by
  rw [E.reportFatal_apply, hlink, ite_self]

theorem BreakpointTable.mem_entries_of_at? {t : BreakpointTable} {node : NodeId} {b : Breakpoint}
    (h : t.at? node = some b) : b ∈ t.entries :=
  List.mem_append_left _ (List.mem_of_find?_eq_some h)

theorem BreakpointTable.at?_of_entries_nil {t : BreakpointTable} (h : t.entries = [])
    (node : NodeId) : t.at? node = none := by
  rw [at?, (List.append_eq_nil_iff.1 h).1, List.find?_nil]

theorem BreakpointTable.entries_hit (t : BreakpointTable) (number : Nat) :
    (t.hit number).entries = t.entries.map (·.countHit number) :=
  List.map_append.symm

theorem BreakpointTable.kind_of_mem_hit {t : BreakpointTable} {number : Nat} {b : Breakpoint}
    (hb : b ∈ (t.hit number).entries) : ∃ a ∈ t.entries, a.kind = b.kind := by
  rw [entries_hit] at hb
  obtain ⟨a, ha, rfl⟩ := List.mem_map.1 hb
  refine ⟨a, ha, ?_⟩
  unfold Breakpoint.countHit
  split <;> rfl

theorem Machine.From.obeyStep (hm : m.From o) (hs : m.ObeyStep T m') : m'.From o := by
  cases hs with
  | breakpoint number =>
    refine { hm with breakpoints := fun b hb => ?_ }
    obtain ⟨a, ha, hkind⟩ := BreakpointTable.kind_of_mem_hit hb
    exact hkind ▸ hm.breakpoints a ha
  | _ => exact { hm with }

/-- A debugger answers with the next `command` of its `script`, if there is one. -/
theorem Link.answer_cases (l : Link) {p : Command → Prop}
    (hscript : ∀ command ∈ l.script, p command)
    (hfallback : p l.fallback) (hcontinue : p .continue) :
    p l.answer.1 ∧ ∃ seen gone script, l.answer.2 = { l with seen, gone, script } ∧
      (∀ command ∈ script, p command) ∧ (l.leaveAt = none → gone = l.gone) := by
  unfold Link.answer
  dsimp only
  split
  · next hleaves =>
    refine ⟨hcontinue, _, _, _, rfl, hscript, fun hnone => ?_⟩
    rw [hnone] at hleaves
    cases hleaves
  · split
    · next command script hs =>
      rw [hs, List.forall_mem_cons] at hscript
      exact ⟨hscript.1, _, _, _, rfl, hscript.2, fun _ => rfl⟩
    · exact ⟨hfallback, _, _, _, rfl, hscript, fun _ => rfl⟩

@[simp]
theorem Link.watch_answer (l : Link) : l.answer.2.watch = l.watch := by
  obtain ⟨-, seen, gone, script, heq, -⟩ :=
    l.answer_cases (p := fun _ => True) (fun _ _ => trivial) trivial trivial
  rw [heq]

/-- The debugger never leaves. -/
structure Link.Stays (l : Link) : Prop where
  gone : l.gone = false
  leaveAfter : l.leaveAfter = none
  leaveAt : l.leaveAt = none

theorem Link.Stays.isAttending {l : Link} (h : l.Stays) : l.isAttending = true := by
  rw [Link.isAttending, h.gone, h.leaveAfter]
  rfl

theorem Link.Stays.answer {l : Link} (h : l.Stays) : l.answer.2.Stays := by
  obtain ⟨-, seen, gone, script, heq, -, hgone⟩ :=
    l.answer_cases (p := fun _ => True) (fun _ _ => trivial) trivial trivial
  rw [heq]
  exact ⟨(hgone h.leaveAt).trans h.gone, h.leaveAfter, h.leaveAt⟩

/-- A stop says why and where a thread stopped. -/
structure Stop.IsAt (stop : Stop) (reason : StopReason) (location : Location) (c : Context) :
    Prop where
  thread : stop.thread = c.thread
  reason : stop.reason = reason
  location : stop.location = location
  frames : stop.frames = c.frames

namespace Effect

variable {α : Type} {Q : α → α → Prop} {x y : Eval α} (F : Effect P o T)

/-- The effect holds of what the debugger evaluates, though early ends are results there. -/
structure Inspects where
  Watch : Expr → Prop
  allows {e : Expr} : Watch e → F.Allows (.within .debugging) := by exact fun _ => trivial
  swallow {m m' : Machine} {id : ThreadId} {halt : Halt} {e : Expr} : Watch e → T id → F.Inv m →
    F.Rel ((Guard.within .debugging).enter id m) (some halt) m' → F.Inv m' → halt ≠ .exhausted →
    F.Rel m none ((Guard.within .debugging).leave id m')

/-- The effect holds of stops. -/
structure Reports (I : F.Inspects) : Prop where
  watched {m : Machine} {link : Link} : F.Inv m → m.link = some link → ∀ e ∈ link.watch, I.Watch e
  report {m : Machine} {link : Link} (stop : Stop) : F.Inv m → (∀ e ∈ link.watch, I.Watch e) →
    F.Inv (m.reported link stop) ∧ F.Rel m none (m.reported link stop)
  stepTo {m : Machine} {id : ThreadId} (step : StepTarget) : T id → F.Inv m →
    F.Inv (m.modifyThread id (·.stepTo step)) ∧ F.Rel m none (m.modifyThread id (·.stepTo step))
  terminate {m : Machine} (location : Location) : F.Inv m →
    F.Inv (m.unwound (.cancelled location)) ∧
      F.Rel m (some (.cancelled location)) (m.unwound (.cancelled location))

/-- The effect holds of what checks do once a node has been counted. -/
structure Obeys (I : F.Inspects) : Prop where
  watched {m : Machine} : F.Inv m → ∀ b ∈ m.breakpoints.entries, ∀ e ∈ b.kind.exprs, I.Watch e
  step {m m' : Machine} : F.Inv m → m.ObeyStep T m' → F.Inv m' ∧ F.Rel m none m'
  unwind {m : Machine} {id : ThreadId} {halt : Halt} {location : Location} : T id → F.Inv m →
    (m.thread id).isDebugging = false → halt = .cancelled location ∨ halt = .stopped location →
    F.Inv (m.unwound halt) ∧ F.Rel m (some halt) (m.unwound halt)

/-- The effect holds of `Checks`. -/
structure Checks (I : F.Inspects) : Prop extends F.Obeys I where
  counted {m : Machine} {node : Node} : o.node node → F.Inv m →
    F.Inv (m.counted node) ∧ F.Rel m none (m.counted node)

/-- The effect holds of the suspension of a thread, and of what is shown of fatal errors. -/
structure Stops (E : Engine) (R : Context → Prop := fun c => T c.thread) : Prop where
  suspend {reason : StopReason} {location : Location} {c : Context} : c.From o → R c →
    F.Does Eq (E.suspend reason location c)
  reportFatal {message : String} {location : Location} {c : Context} : c.From o → R c →
    F.Does Eq (E.reportFatal message location c)

/-- The effect holds of what the debugger does about values that are raised and fatal errors. -/
structure Catches (E : Engine) (R : Context → Prop := fun c => T c.thread) : Prop where
  offer {m : Machine} {v : Value} {bs : List Breakpoint} {location : Location} {c : Context} :
    m.From o → F.Inv m → (∀ b ∈ bs, b ∈ m.breakpoints.entries) → c.From o → R c →
    F.Post Eq m (E.offer v location c bs m) (E.offer v location c bs m)
  reportFatal {message : String} {location : Location} {c : Context} : c.From o → R c →
    F.Does Eq (E.reportFatal message location c)

/-- The effect holds of what the debugger does for any reason: also for a step that ends, a request
to `pause`, and a `breakpoint` that is met. -/
structure Reacts (E : Engine) (R : Context → Prop := fun c => T c.thread) : Prop extends
    F.Catches E R where
  step {m : Machine} {location : Location} {c i : Context} : m.From o → F.Inv m → R c → i.From o →
    R i → (m.thread c.thread).step.stopsAt location.line c = true →
    F.Post Eq m (E.suspend .step location i m) (E.suspend .step location i m)
  pause {m : Machine} {location : Location} {c : Context} : m.From o → F.Inv m →
    m.scheduler.interrupt = .pause → c.From o → R c →
    F.Post Eq m (E.suspend .pause location c m.taken) (E.suspend .pause location c m.taken)
  breakpoint {m : Machine} {b : Breakpoint} {location : Location} {c : Context} : m.From o →
    F.Inv m → b ∈ m.breakpoints.entries → c.From o → R c →
    F.Post Eq m (E.applyBreakpoint b location c m) (E.applyBreakpoint b location c m)

variable {F} {E : Engine} {R : Context → Prop} [Region T R] {c : Context} {location : Location}

theorem Post.obeyStep {I : F.Inspects} (B : F.Obeys I) {a b : α} (hab : Q a b) (hm : m.From o)
    (hi : F.Inv m) (hs : m.ObeyStep T m') : F.Post Q m (.ok a, m') (.ok b, m') :=
  ⟨rfl, hm.obeyStep hs, (B.step hi hs).1, (B.step hi hs).2, .value hab⟩

theorem Post.reads {β : Type} {g : Machine → β} {f : β → Eval α}
    (hf : F.Post Q m (f (g m) m) (f (g m) m)) :
    F.Post Q m ((Eval.reads g >>= f) m) ((Eval.reads g >>= f) m) :=
  hf

theorem Post.after {out out' : Except Halt α × Machine} (hi : F.Inv m) (hrel : F.Rel m none m')
    (hpost : F.Post Q m' out out') : F.Post Q m out out' :=
  { hpost with rel := F.trans hi hrel hpost.rel }

/-! ### Evaluations for the debugger -/

namespace Inspects

variable (I : F.Inspects)

theorem within_outcome {e : Expr} (he : I.Watch e) {id : ThreadId} (ht : T id)
    (hx : F.Holds Q x y) (hQ : ∀ a b, Q a b → a = b) :
    F.Holds Eq (Eval.within .debugging id x).outcome (Eval.within .debugging id y).outcome := by
  intro m hm hi
  let g : Guard := .within .debugging
  have hg : F.Allows g := I.allows he
  have hpost := hx _ (g.from_enter hm) (F.enter g hg ht hi)
  obtain ⟨hinv, hrel⟩ := F.leave g hg ht (Guard.opens_within _ _ _) hi hpost.rel hpost.inv
  have hfrom := g.from_leave id hpost.origin
  rcases hrun : x (g.enter id m) with ⟨r, m₁⟩
  rcases hrun' : y (g.enter id m) with ⟨r', m₂⟩
  have hwithin := Guard.within_of_run hrun
  have hwithin' := Guard.within_of_run hrun'
  rw [hrun, hrun'] at hpost
  rw [hrun] at hinv hrel hfrom
  obtain rfl := hpost.machine
  rcases hpost.outcomes with ⟨hab⟩ | ⟨hhalt⟩
  · obtain rfl := hQ _ _ hab
    rw [outcome_of_ok hwithin, outcome_of_ok hwithin']
    exact ⟨rfl, hfrom, hinv, hrel, .value rfl⟩
  · next halt =>
    by_cases hh : halt = .exhausted
    · subst hh
      rw [outcome_of_exhausted hwithin, outcome_of_exhausted hwithin']
      exact ⟨rfl, hfrom, hinv, hrel, .halt trivial⟩
    · -- Any other early end is a result from here on.
      rw [outcome_of_error hwithin hh, outcome_of_error hwithin' hh]
      exact ⟨rfl, hfrom, hinv, I.swallow he ht hi hpost.rel hpost.inv hh, .value rfl⟩

theorem inspect (S : F.Sound E R) {e : Expr} (he : I.Watch e) (ho : o.expr e) (hc : c.From o)
    (hr : R c) : F.Does Eq (E.inspect e c) :=
  I.within_outcome he (Region.thread hr) (S.expr ho hc hr) fun _ _ h => h.1

theorem inspectAll (S : F.Sound E R) {es : List Expr} (hes : ∀ e ∈ es, I.Watch e ∧ o.expr e)
    (hc : c.From o) (hr : R c) : F.Does Eq (E.inspectAll c es) := by
  induction es with
  | nil => exact .pure rfl
  | cons e rest ih =>
    obtain ⟨⟨he, ho⟩, hrest⟩ := List.forall_mem_cons.1 hes
    refine .bindEq (I.inspect S he ho hc hr) fun first => ?_
    exact .bindEq (ih hrest) fun _ => .pure rfl

/-- The effect holds of breakpoints (`Reaction`), as far as it holds of failures. -/
theorem reaction (S : F.Sound E R) (hc : c.From o) (hr : R c)
    (hfail : ∀ code message location, F.Does (α := Bool) Eq (E.fail code message location c)) :
    Reaction F.Holds E E c c fun e => I.Watch e ∧ o.expr e where
  pure := .pure rfl
  bindEq := .bindEq
  heap := .reads fun _ _ _ => rfl
  log htext := .change fun _ => .log _ (Region.thread hr) rfl (LogRecord.isChange_of_trace htext)
  inspect he := I.inspect S he.1 he.2 hc hr
  asks he := by
    refine I.within_outcome (Q := Eq) he.1 (Region.thread hr) ?_ fun _ _ h => h
    refine .bind (S.expr he.2 hc hr) ?_
    rintro v _ ⟨rfl, -⟩
    refine .bindEq (.reads fun _ _ _ => rfl) fun h => ?_
    unfold Engine.lift
    split
    · exact .pure rfl
    · exact hfail _ _ _

/-- With `consult` the debugger is shown where and why the thread stopped and gives a command,
unless one of its evaluations is cut off. -/
theorem consult_apply (S : F.Sound E R) {link : Link} (reason : StopReason) (location : Location)
    (hlink : link.isAttending = true) (hw : ∀ e ∈ link.watch, I.Watch e ∧ o.expr e)
    (hc : c.From o) (hr : R c) (hm : m.From o) (hi : F.Inv m) :
    ∃ m₁, F.Inv m₁ ∧
      ((F.Rel m (some .exhausted) m₁ ∧
          E.consult link reason location c m = (.error .exhausted, m₁)) ∨
        (F.Rel m none m₁ ∧ ∃ stop : Stop, stop.IsAt reason location c ∧
          E.consult link reason location c m = (.ok link.answer.1, m₁.reported link stop))) := by
  have hpost := I.inspectAll S hw hc hr m hm hi
  have hconsult : E.consult link reason location c = _ := if_pos hlink
  rw [hconsult]
  rcases hrun : E.inspectAll c link.watch m with ⟨result, m₁⟩
  rw [hrun] at hpost
  refine ⟨m₁, hpost.inv, ?_⟩
  cases result with
  | error halt =>
    -- Watch expressions have outcomes, unless the evaluation is cut off.
    obtain rfl := (Ends.inspectAll (p := (· = .exhausted)) rfl).halt hrun
    exact .inl ⟨hpost.rel, bind_of_error hrun⟩
  | ok watches => exact .inr ⟨hpost.rel, _, ⟨rfl, rfl, rfl, rfl⟩, bind_of_ok hrun⟩

end Inspects

/-! ### Stops -/

namespace Reports

variable {I : F.Inspects} (H : F.Reports I) (S : F.Sound E R) (hc : c.From o) (hr : R c)

include H S hc hr

theorem consult {link : Link} {reason : StopReason} (hw : ∀ e ∈ link.watch, I.Watch e ∧ o.expr e) :
    F.Does Eq (E.consult link reason location c) := by
  unfold Engine.consult
  split
  · refine .bindEq (I.inspectAll S hw hc hr) fun watches m hm hi => ?_
    have hwatch : ∀ e ∈ link.watch, I.Watch e := fun e he => (hw e he).1
    obtain ⟨hinv, hrel⟩ := H.report {
        thread := c.thread, threadName := (m.thread c.thread).name, reason, location
        frames := c.frames, bindings := c.visible, watches, heap := m.heap, hits :=
          m.hits } hi hwatch
    refine ⟨rfl, { hm with watch := ?_ }, hinv, hrel, .value rfl⟩
    intro answered hl e he
    -- An answer uses up a command, but the watch expressions stay.
    rw [← Option.some.inj hl, Link.watch_answer] at he
    exact (hw e he).2
  · exact .pure rfl

omit S hc [Region T R] hr in
theorem resume {command : Command} (ht : T c.thread) :
    F.Does Eq (Engine.resume command location c) := by
  have hstep : ∀ step : StepTarget,
      F.Does Eq (Eval.change (·.modifyThread c.thread (·.stepTo step))) := by
    intro step m hm hi
    obtain ⟨hinv, hrel⟩ := H.stepTo step ht hi
    exact ⟨rfl, { hm with }, hinv, hrel, .value rfl⟩
  unfold Engine.resume
  cases command with
  | «continue» | stepIn | stepOver => exact hstep _
  | stepOut =>
    dsimp only
    split <;> exact hstep _
  | terminate =>
    -- The thread stops stepping before it is cancelled.
    refine .bindEq (hstep {}) fun _ m hm hi => ?_
    obtain ⟨hinv, hrel⟩ := H.terminate location hi
    exact ⟨rfl, { hm with }, hinv, hrel, .halt trivial⟩

omit S hc [Region T R] hr in
theorem holds_link :
    F.Does (Same (Option.Every fun link : Link => ∀ e ∈ link.watch, I.Watch e ∧ o.expr e))
      (Eval.reads (·.link)) :=
  .reads fun _ hm hi => ⟨rfl, fun link hl e he => ⟨H.watched hi hl e he, hm.watch link hl e he⟩⟩

omit hc hr in
theorem stops : F.Stops E R where
  suspend hc hr := by
    refine .bind H.holds_link ?_
    rintro found _ ⟨rfl, hfound⟩
    cases found with
    | none => exact .pure rfl
    | some link =>
      exact .bindEq (H.consult S hc hr (hfound link rfl)) fun _ => H.resume (Region.thread hr)
  reportFatal hc hr := by
    refine .bindEq (.reads fun _ _ _ => rfl) fun thread => ?_
    split
    · exact .pure rfl
    · refine .bind H.holds_link ?_
      rintro found _ ⟨rfl, hfound⟩
      cases found with
      | none => exact .pure rfl
      | some link => exact .bindEq (H.consult S hc hr (hfound link rfl)) fun _ => .pure rfl

end Reports

/-! ### Checks -/

namespace Obeys

variable {I : F.Inspects} (B : F.Obeys I) (S : F.Sound E R)

include B

theorem change {f : Machine → Machine} (hs : ∀ m : Machine, m.ObeyStep T (f m)) :
    F.Does Eq (Eval.change f) :=
  fun m hm hi => Post.obeyStep B rfl hm hi (hs m)

theorem post_unwind {halt : Halt} {id : ThreadId} (ht : T id) (hm : m.From o) (hi : F.Inv m)
    (hd : (m.thread id).isDebugging = false)
    (hh : halt = .cancelled location ∨ halt = .stopped location) :
    F.Post Q m (Eval.unwind halt m) (Eval.unwind halt m) := by
  obtain ⟨hinv, hrel⟩ := B.unwind ht hi hd hh
  refine ⟨rfl, { hm with }, hinv, hrel, .halt ?_⟩
  rcases hh with rfl | rfl <;> trivial

section Raise

omit B
variable (A : F.Catches E R)

include A

theorem raise {v : Value} (hv : v.From o) (hc : c.From o) (hr : R c) :
    F.Does Q (E.raise v location c) := by
  have hthrow : F.Does Q (throw (.exit v location)) :=
    fun m hm hi => Post.throw (.inl rfl) hv hm hi
  refine .bindEq (.reads fun _ _ _ => rfl) fun thread => ?_
  dsimp only
  split
  · exact hthrow
  · refine fun m hm hi => .reads ?_
    have hoffer : F.Post Eq m (E.offer v location (c.hold v) m.breakpoints.catchpoints m)
        (E.offer v location (c.hold v) m.breakpoints.catchpoints m) :=
      A.offer hm hi (fun b => List.mem_append_right _) (hc.holdAll [v])
        (Region.holdAll T [v] hr)
    exact .bind hi hoffer fun _ _ _ => hthrow _ hoffer.origin hoffer.inv

theorem fail {code : Code} {message : String} (hc : c.From o) (hr : R c) :
    F.Does Q (E.fail code message location c) := by
  unfold Engine.fail
  split
  · refine raise A ?_ hc hr
    exact Value.fromItems_iff.2 (List.forall_mem_cons.2 ⟨trivial,
      List.forall_mem_cons.2 ⟨Value.from_ofText message, nofun⟩⟩)
  · refine .bindEq (A.reportFatal hc hr) fun _ m hm hi => ?_
    exact Post.throw (.inl rfl) trivial hm hi

end Raise

section Node

variable (A : F.Reacts E R) (hc : c.From o) (hr : R c)

include A

theorem comeBack {stepping : Bool} {inner : Context} (hr : R c)
    (hinner : inner.From o) (hri : R inner) :
    F.Does Eq (E.comeBack stepping location c inner) := by
  refine .bindEq (B.change fun _ => .returned _ _ _ (Region.thread hr)) fun _ m hm hi => .reads ?_
  split
  · next hstops =>
    exact A.step hm hi hr hinner hri (Bool.and_eq_true_iff.1 hstops).2
  · exact Post.pure rfl hm hi

include hc hr

omit B [Region T R] in
theorem meetBreakpoint {node : NodeId} :
    F.Does Eq (E.meetBreakpoint node location c) := by
  refine fun m hm hi => .reads ?_
  cases hfound : m.breakpoints.at? node with
  | none => exact Post.pure rfl hm hi
  | some b => exact A.breakpoint hm hi (BreakpointTable.mem_entries_of_at? hfound) hc hr

theorem takeTurn {stopped : Bool} :
    F.Does Eq (E.takeTurn stopped location c) := by
  refine fun m hm hi => .reads ?_
  split
  · split
    · exact Post.pure rfl hm hi
    · next hturn =>
      exact .obeyStep B rfl hm hi (.yieldPoint _ (Region.thread hr) (eq_false_of_ne_true hturn))
  · split
    · next hstops => exact A.step hm hi hr hc hr (Bool.and_eq_true_iff.1 hstops).2
    · exact Post.pure rfl hm hi

theorem obey (node : NodeId) (location : Location) (hm : m.From o) (hi : F.Inv m)
    (hd : (m.thread c.thread).isDebugging = false) :
    F.Post Eq m (E.obey node location c m.scheduler.interrupt m.taken)
      (E.obey node location c m.scheduler.interrupt m.taken) := by
  have hrequest := Post.obeyStep B (Q := Eq) (a := ()) rfl hm hi .request
  cases hinterrupt : m.scheduler.interrupt with
  | none =>
    refine .after hi hrequest.rel ?_
    exact Holds.bindEq (meetBreakpoint A hc hr) (fun _ => B.takeTurn A hc hr) _ hrequest.origin
      hrequest.inv
  | pause => exact A.pause hm hi hinterrupt hc hr
  | terminate =>
    refine .after hi hrequest.rel ?_
    exact B.post_unwind (Region.thread hr) hrequest.origin hrequest.inv hd (.inl rfl)

/-- What comes after the node has been `counted`. -/
theorem post_arrive (node : Node) (hm : m.From o) (hi : F.Inv (m.counted node)) :
    F.Post Eq (m.counted node) (E.arrive node c m) (E.arrive node c m) := by
  have hfrom : (m.counted node).From o := { hm with }
  rw [Engine.arrive_apply]
  split
  · exact Post.pure rfl hfrom hi
  · next hd =>
    rw [Bool.not_eq_true] at hd
    split
    -- A thread that is to stop is unwound here, and takes no request.
    · exact B.post_unwind (Region.thread hr) hfrom hi hd (.inr rfl)
    · exact B.obey A hc hr node.id node.location hfrom hi hd

omit hc hr in
/-- An effect that holds of the steps of checks, of places that are `counted`, and of what the
debugger does when there is a reason to stop, holds of everything that is left to show for an
engine. -/
theorem leaves_of_counted (S : F.Sound E R)
    (hcounted : ∀ {m : Machine} {node : Node}, o.node node → F.Inv m →
      F.Inv (m.counted node) ∧ F.Rel m none (m.counted node)) : F.Leaves E R where
  toSound := S
  arrive hn hc hr m hm hi := by
    obtain ⟨hinv, hrel⟩ := hcounted hn hi
    exact .after hi hrel (B.post_arrive A hc hr _ hm hinv)
  fail hc hr := fail A.toCatches hc hr
  raise hv hc hr := raise A.toCatches hv hc hr
  comeBack _ hr hi hri := B.comeBack A hr hi hri

end Node

/-! ### Stops for any reason -/

section Stops

variable (K : F.Stops E R)

include K

omit [Region T R] in
theorem offer {v : Value} {bs : List Breakpoint} (hc : c.From o) (hr : R c) :
    F.Does Eq (E.offer v location c bs) := by
  induction bs with
  | nil => exact .pure rfl
  | cons b rest ih =>
    refine .bindEq (.reads fun _ _ _ => rfl) fun h => ?_
    split
    · exact .bindEq (B.change fun _ => .breakpoint b.number) fun _ => K.suspend hc hr
    · exact ih

include S in
theorem reacts : F.Reacts E R := by
  have hcatches : F.Catches E R := {
    offer := fun hm hi _ hc hr => B.offer K hc hr _ hm hi
    reportFatal := K.reportFatal }
  refine { hcatches with step := ?_, pause := ?_, breakpoint := ?_ }
  · intro m location c i hm hi _ hfrom hri _
    exact K.suspend hfrom hri m hm hi
  · intro m location c hm hi _ hc hr
    have hrequest := Post.obeyStep B (Q := Eq) (a := ()) rfl hm hi .request
    exact .after hi hrequest.rel (K.suspend hc hr _ hrequest.origin hrequest.inv)
  · intro m b location c hm hi hmem hc hr
    have hb : ∀ e ∈ b.kind.exprs, I.Watch e ∧ o.expr e := fun e he =>
      ⟨B.watched hi b hmem e he, hm.breakpoints b hmem e he⟩
    rw [Engine.applyBreakpoint_eq]
    refine Holds.bindEq (B.change fun _ => .breakpoint b.number) (fun _ => ?_) m hm hi
    exact (I.reaction S hc hr fun _ _ _ => fail hcatches hc hr).takeEffect hb (K.suspend hc hr)

end Stops

end Obeys

namespace Checks

variable {I : F.Inspects} (C : F.Checks I) (S : F.Sound E R)

include C

/-- An effect that holds of the steps of checks, and of what the debugger does when there is a
reason to stop, holds of everything that is left to show (`Leaves`) for an engine. -/
theorem leaves_of_reacts (A : F.Reacts E R) (S : F.Sound E R) : F.Leaves E R :=
  C.leaves_of_counted A S C.counted

variable (K : F.Stops E R)

include S K

/-- An effect that holds of the steps of checks and of stops holds of everything that is left to
show (`Leaves`) for an engine. -/
theorem leaves : F.Leaves E R :=
  C.leaves_of_reacts (C.reacts S K) S

end Checks

end Effect

end Animator
