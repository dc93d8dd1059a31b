import Animator.Proofs.Effect.Session

/-!
# Cleanups

A cleanup follows its body however that ends, unless the execution is cancelled or the thread is
stopped. So over a whole evaluation that is neither, a cleanup is entered as often as its body is,
whatever calls, loops and handlers there are in between.

The cleanup and the body are told apart from all other statements by their numbers, which must not
occur anywhere else in the code (`Cleanup.Sole`). Then everything that is evaluated is balanced
(`cleanupEffect`), apart from the cleanup and the body themselves, which are off by one each.
-/

namespace Animator

inductive Stmt.Contains (s : Stmt) : Stmt → Prop where
  | self : Contains s s
  | part {p q : Stmt} (hp : Contains s p) (hq : q ∈ p.kind.stmts) : Contains s q

structure Cleanup where
  node : Stmt
  cleanup : Stmt
  body : Stmt
  kind : node.kind = .always cleanup body

def Event.enters (s : Stmt) : Event → Bool
  | .visit (.stmt t) => t.id == s.id
  | _ => false

def entered (s : Stmt) (events : List Event) : Nat :=
  events.countP (·.enters s)

theorem entered_append (s : Stmt) (later events : List Event) :
    entered s (later ++ events) = entered s later + entered s events :=
  List.countP_append

theorem entered_visit (s t : Stmt) :
    entered s [.visit (.stmt t)] = if t.id = s.id then 1 else 0 := by
  simp [entered, Event.enters, List.countP_cons]

namespace Cleanup

variable (A : Cleanup)

/-- The statement has the number of the `cleanup` or of the body. -/
def IsPart (s : Stmt) : Prop :=
  s.id = A.cleanup.id ∨ s.id = A.body.id

instance (s : Stmt) : Decidable (A.IsPart s) :=
  inferInstanceAs (Decidable (_ ∨ _))

/-- The cleanup and the body occur in a statement as parts of their own statement only. -/
structure Sole (s : Stmt) : Prop where
  root : ¬A.IsPart s
  /-- Only their own statement has them as parts. -/
  parts : ∀ p, s.Contains p → ∀ q ∈ p.kind.stmts, A.IsPart q → p = A.node

/-- Code in which the cleanup and the body occur nowhere else. -/
def origin : Origin where
  expr _ := True
  stmt := A.Sole
  cells := True

/-- The `cleanup` is `entered` as often as the body. -/
def Balanced (events : List Event) : Prop :=
  entered A.cleanup events = entered A.body events

/-- How the statement ends: with the error of the `cleanup`, or else as the body did. -/
def result (body cleanup : Outcome) : Outcome :=
  match cleanup with
  | .error halt => .error halt
  | .ok _ => body

end Cleanup

/-! ### The statement -/

/-- A statement with a `cleanup` ends with the error of the cleanup, or else as the body did. The
cleanup is left out if the execution is cancelled or the thread is stopped. -/
theorem Engine.always_apply (E : Engine) (cleanup body : Stmt) (c : Context) (m : Machine) :
    let ran := E.stmt body c m
    let cleaned := E.stmt cleanup (holdOutcome c ran.1) ran.2
    E.always cleanup body c m =
      if (Halt.of? ran.1).any (·.isUnwinding) then ran
      else (Cleanup.result ran.1 cleaned.1, cleaned.2) := by
  intro ran cleaned
  -- Both sides are computed from the two ends, of the body and of the cleanup.
  rcases hran : E.stmt body c m with ⟨r, m₁⟩
  have hran' : ran = (r, m₁) := hran
  rcases hcleaned : cleaned with ⟨k, m₂⟩
  have hcleaned' : E.stmt cleanup (holdOutcome c r) m₁ = (k, m₂) := by
    rw [← hcleaned, show cleaned = E.stmt cleanup (holdOutcome c ran.1) ran.2 from rfl, hran']
  rw [hran']
  cases r with
  | ok v =>
    refine (bind_of_ok (outcome_of_ok hran)).trans ?_
    cases k with
    | ok w => exact bind_of_ok hcleaned'
    | error halt => exact bind_of_error hcleaned'
  | error halt =>
    have hany : (Halt.of? (α := Value) (.error halt)).any (·.isUnwinding) = halt.isUnwinding := rfl
    rw [hany]
    cases hh : halt.isUnwinding with
    | true => exact bind_outcome_of_error hran (if_pos hh)
    | false =>
      have hne : halt ≠ .exhausted := by
        rintro rfl
        cases hh
      refine (bind_of_ok (outcome_of_error hran hne)).trans ?_
      dsimp only
      rw [hh]
      cases k with
      | ok w => exact bind_of_ok hcleaned'
      | error halt' => exact bind_of_error hcleaned'

/-! ### What is balanced -/

variable {A : Cleanup} {P : Program} {id : ThreadId} {m m₁ m₂ : Machine} {r : Option Halt}

namespace Cleanup

/-- Unless the evaluation is cancelled, stopped or cut off, its `events` are `balanced`. An
evaluation for the debugger is never cancelled or stopped. -/
structure Fair (A : Cleanup) (id : ThreadId) (m : Machine) (r : Option Halt) (m' : Machine) :
    Prop where
  link : m'.link = none
  debugging : 0 < m.depth id → ∀ halt, r = some halt → ¬halt.IsForced
  balanced : ∃ events, m'.history = events ++ m.history ∧
    ((∀ halt, r = some halt → halt.isUnwinding = false) → A.Balanced events)

theorem not_unwinding (h : ¬r.any (·.isUnwinding)) :
    ∀ halt, r = some halt → halt.isUnwinding = false := by
  rintro halt rfl
  exact Bool.not_eq_true _ ▸ h

theorem balanced_nil : A.Balanced [] :=
  rfl

theorem Balanced.append {later events : List Event} (hlater : A.Balanced later)
    (hevents : A.Balanced events) : A.Balanced (later ++ events) := by
  rw [Balanced, entered_append, entered_append, hlater, hevents]

theorem balanced_single {event : Event} (h : ∀ s, event = .visit (.stmt s) → ¬A.IsPart s) :
    A.Balanced [event] := by
  have hnone : event.enters A.cleanup = false ∧ event.enters A.body = false := by
    unfold Event.enters
    split
    · next s =>
      have hpart := not_or.1 (h s rfl)
      exact ⟨beq_false_of_ne hpart.1, beq_false_of_ne hpart.2⟩
    · exact ⟨rfl, rfl⟩
  simp [Balanced, entered, hnone]

theorem Balanced.both {later events : List Event} (hlater : A.Balanced later)
    (hevents : A.Balanced events) :
    A.Balanced (later ++ ([.visit (.stmt A.cleanup)] ++ (events ++ [.visit (.stmt A.body)]))) := by
  rw [Balanced] at hlater hevents
  simp only [Balanced, entered_append, entered_visit, hlater, hevents]
  -- If both have one number then every visit of one counts for the other as well.
  by_cases hid : A.cleanup.id = A.body.id
  · simp [hid]
  · simp [hid, Ne.symm hid]
    omega

namespace Fair

theorem ofUnseen (hlink : m.link = none) (h : m.Unseen m₁)
    (hr : ∀ halt, r = some halt → ¬halt.IsForced) : A.Fair id m r m₁ where
  link := h.link.trans hlink
  debugging _ := hr
  balanced := ⟨[], h.history, fun _ => balanced_nil⟩

theorem trans (hdepth : m₁.depth id = m.depth id) (h : A.Fair id m none m₁)
    (h' : A.Fair id m₁ r m₂) : A.Fair id m r m₂ where
  link := h'.link
  debugging hpos := h'.debugging (hdepth ▸ hpos)
  balanced := by
    obtain ⟨events, hhistory, hevents⟩ := h.balanced
    obtain ⟨later, hhistory', hlater⟩ := h'.balanced
    refine ⟨later ++ events, by rw [hhistory', hhistory, List.append_assoc], fun hr => ?_⟩
    exact (hlater hr).append (hevents nofun)

end Fair

end Cleanup

/-- Evaluations `enter` cleanups as often as bodies, if no debugger is attached. -/
def cleanupEffect (A : Cleanup) (P : Program) (hP : P.delegates.From A.origin) (id : ThreadId) :
    Effect P A.origin (· = id) where
  Inv _ := True
  Rel m r m' := m.Keeps m' ∧ (m.Has id → m.link = none → A.Fair id m r m')
  delegates := hP
  refl _ := ⟨.refl, fun _ hlink => .ofUnseen hlink ⟨rfl, rfl, rfl, rfl, rfl⟩ nofun⟩
  ends _ hh := by
    refine ⟨.refl, fun _ hlink => .ofUnseen hlink ⟨rfl, rfl, rfl, rfl, rfl⟩
      fun halt h hforced => ?_⟩
    obtain rfl := Option.some.inj h
    rcases hh with hh | rfl
    · exact hforced.isUnwinding_ne_false hh
    · exact hforced
  trans := by
    rintro m m₁ m₂ r - ⟨hkeeps, h⟩ ⟨hkeeps', h'⟩
    refine ⟨hkeeps.trans hkeeps', fun hm hlink => ?_⟩
    have hfair := h hm hlink
    exact hfair.trans (hkeeps.depth hm) (h' (hkeeps id hm).1 hfair.link)
  recover := by
    rintro m m' halt ⟨hkeeps, h⟩ hh
    refine ⟨hkeeps, fun hm hlink => ?_⟩
    obtain ⟨hlink', -, events, hhistory, hevents⟩ := h hm hlink
    refine ⟨hlink', nofun, events, hhistory, fun _ => hevents fun halt' h' => ?_⟩
    exact Option.some.inj h' ▸ hh
  step := by
    rintro m m' - hs
    exact ⟨trivial, hs.keeps, fun _ hlink => .ofUnseen hlink hs.unseen nofun⟩
  enter _ _ _ _ _ := trivial
  leave := by
    rintro m m' r g id - rfl hopens - ⟨hkeeps, h⟩ -
    refine ⟨trivial, .guard g hopens hkeeps, fun hm hlink => ?_⟩
    have hframe : m.Frame id (g.enter id m) := g.frame_enter hm
    obtain ⟨hlink', hdebugging, events, hhistory, hevents⟩ := h hframe.has (hframe.link.trans hlink)
    refine ⟨g.unseen_leave.link.trans hlink', fun hpos => hdebugging ?_, events, ?_, hevents⟩
    · rw [g.depth_enter hm]
      exact Nat.add_pos_left hpos _
    · rw [g.unseen_leave.history, hhistory, hframe.history]

instance {hP : P.delegates.From A.origin} {id : ThreadId} : (cleanupEffect A P hP id).Charges where
  charge _ _ _ _ := ⟨trivial, .ofModify (fun _ => rfl) fun _ => rfl,
    fun _ hlink => .ofUnseen hlink ⟨rfl, rfl, rfl, rfl, rfl⟩ nofun⟩

namespace cleanupEffect

variable {hP : P.delegates.From A.origin} {E : Engine} {c : Context}

def inspects (A : Cleanup) (P : Program) (hP : P.delegates.From A.origin) (id : ThreadId) :
    (cleanupEffect A P hP id).Inspects where
  Watch _ := True
  swallow := by
    rintro m m' id halt e - rfl - ⟨hkeeps, h⟩ - hh
    let g : Guard := .within .debugging
    refine ⟨.guard g (Guard.opens_within _ _ _) hkeeps, fun hm hlink => ?_⟩
    have hframe : m.Frame id (g.enter id m) := g.frame_enter hm
    obtain ⟨hlink', hdebugging, events, hhistory, hevents⟩ := h hframe.has (hframe.link.trans hlink)
    -- Under the guard the thread is debugging, so the early end is not forced.
    have hforced := hdebugging (g.depth_enter hm ▸ Nat.succ_pos _) halt rfl
    refine ⟨g.unseen_leave.link.trans hlink', nofun, events, ?_, fun _ => hevents ?_⟩
    · rw [g.unseen_leave.history, hhistory, hframe.history]
    · rintro _ ⟨⟩
      exact Halt.isUnwinding_eq_false hforced hh

theorem checks : (cleanupEffect A P hP id).Checks (inspects A P hP id) where
  watched _ _ _ _ _ := trivial
  counted {_ node} hn _ := by
    refine ⟨trivial, .ofRecords rfl, fun _ hlink =>
      ⟨hlink, nofun, [.visit node], rfl, fun _ => Cleanup.balanced_single ?_⟩⟩
    rintro s ⟨⟩
    exact Cleanup.Sole.root hn
  step := by
    rintro m m' - hs
    refine ⟨trivial, hs.keeps, fun _ hlink => ?_⟩
    cases hs with
    | returned => exact ⟨hlink, nofun, [_], rfl, fun _ => Cleanup.balanced_single nofun⟩
    | request | breakpoint | yieldPoint =>
      exact ⟨hlink, nofun, [], rfl, fun _ => Cleanup.balanced_nil⟩
  unwind := by
    rintro m id halt location rfl - hd hh
    have hunwinding : halt.isUnwinding = true := by
      rcases hh with rfl | rfl <;> rfl
    refine ⟨trivial, .ofRecords rfl, fun _ hlink => ⟨hlink, fun hpos => ?_, [_], rfl, fun hr => ?_⟩⟩
    -- Checks unwind only threads that are not debugging.
    · exact absurd hpos (of_decide_eq_false hd)
    · exact nomatch hunwinding.symm.trans (hr halt rfl)

theorem stops (hkeep : (keepDrift P A.origin hP).effect.Sound E) :
    (cleanupEffect A P hP id).Stops E where
  suspend {reason location c} hc ht m hm hi := by
    by_cases hlink : m.link = none
    · have hrun : E.suspend reason location c m = (.ok (), m) := by rw [E.suspend_apply, hlink]
      rw [hrun]
      exact .pure rfl hm hi
    · have hpost : (keepDrift P A.origin hP).effect.Post Eq m (E.suspend reason location c m)
          (E.suspend reason location c m) :=
        ((keepDrift P A.origin hP).reports.stops hkeep).suspend hc trivial m hm trivial
      exact { hpost with rel := ⟨hpost.rel, fun _ h => absurd h hlink⟩ }
  reportFatal {message location c} hc ht m hm hi := by
    by_cases hlink : m.link = none
    · rw [E.reportFatal_of_none message location c hlink]
      exact .pure rfl hm hi
    · have hpost : (keepDrift P A.origin hP).effect.Post Eq m (E.reportFatal message location c m)
          (E.reportFatal message location c m) :=
        ((keepDrift P A.origin hP).reports.stops hkeep).reportFatal hc trivial m hm trivial
      exact { hpost with rel := ⟨hpost.rel, fun _ h => absurd h hlink⟩ }

/-! ### The cleanup and the body -/

theorem rel_cut {s : Stmt} {halt : Halt}
    (h : (cleanupEffect A P hP id).Rel (m.counted (.stmt s)) r m₁)
    (hh : halt.isUnwinding = true) (hforced : halt.IsForced → r = some halt) :
    (cleanupEffect A P hP id).Rel m (some halt) m₁ := by
  refine ⟨h.1, fun hm hlink => ?_⟩
  obtain ⟨hlink₁, hdebugging, events, hhistory, -⟩ := h.2 hm hlink
  refine ⟨hlink₁, ?_, events ++ [.visit (.stmt s)], ?_, fun hr => ?_⟩
  · rintro hpos _ ⟨⟩ hf
    exact hdebugging hpos halt (hforced hf) hf
  · rw [hhistory, List.append_assoc]
    rfl
  · exact nomatch hh.symm.trans (hr halt rfl)

/-- The `cleanup` after the body: each of them makes up for the other. -/
theorem rel_both {rb rk : Option Halt}
    (hb : (cleanupEffect A P hP id).Rel (m.counted (.stmt A.body)) rb m₁)
    (hrb : ∀ halt, rb = some halt → halt.isUnwinding = false)
    (hk : (cleanupEffect A P hP id).Rel (m₁.counted (.stmt A.cleanup)) rk m₂) :
    (cleanupEffect A P hP id).Rel m (rk.or rb) m₂ := by
  refine ⟨Machine.Keeps.trans hb.1 hk.1, fun hm hlink => ?_⟩
  have hm₁ : m₁.Has id := (hb.1 id hm).1
  have hdepth : m₁.depth id = m.depth id := hb.1.depth hm
  obtain ⟨hlink₁, -, events, hhistory, hevents⟩ := hb.2 hm hlink
  obtain ⟨hlink₂, hdebugging, later, hlater, hbalanced⟩ := hk.2 hm₁ hlink₁
  refine ⟨hlink₂, fun hpos halt hr hforced => ?_,
    later ++ ([.visit (.stmt A.cleanup)] ++ (events ++ [.visit (.stmt A.body)])), ?_, fun hr => ?_⟩
  · -- A body that was cancelled or stopped would have left out the cleanup.
    rcases Option.or_eq_some_iff.1 hr with hr | ⟨-, hr⟩
    · exact hdebugging (hdepth ▸ hpos) halt hr hforced
    · exact hforced.isUnwinding_ne_false (hrb halt hr)
  · rw [hlater]
    change later ++ .visit (.stmt A.cleanup) :: m₁.history = _
    rw [hhistory]
    simp [Machine.counted]
  · exact (hbalanced fun halt h => hr halt (by rw [h, Option.some_or])).both (hevents hrb)

/-- What is known of the evaluation of the `Cleanup` or the body: it is cut off at once, or
everything after its beginning is balanced. -/
def Enters (A : Cleanup) (P : Program) (hP : P.delegates.From A.origin) (E : Engine) (s : Stmt) :
    Prop :=
  ∀ (c : Context) (m : Machine), c.From A.origin → m.From A.origin →
    E.stmt s c m = (.error .exhausted, m) ∨
      (cleanupEffect A P hP c.thread).Post (Same (·.From A.origin)) (m.counted (.stmt s))
        (E.stmt s c m) (E.stmt s c m)

/-- A statement with a cleanup: the body, and then the cleanup. -/
theorem holds_always (hcleanup : Enters A P hP E A.cleanup) (hbody : Enters A P hP E A.body)
    (hc : c.From A.origin) :
    (cleanupEffect A P hP c.thread).Does (Same (·.From A.origin))
      (E.always A.cleanup A.body c) := by
  intro m hm hi
  rw [E.always_apply]
  -- The body is cut off at once, or it is cut short, or the cleanup follows it. Then the cleanup is
  -- cut off at once, or both are evaluated.
  rcases hbody c m hc hm with hcut | hran
  · rw [hcut]
    exact Effect.Post.throw (.inr rfl) trivial hm hi
  · rcases hrun : E.stmt A.body c m with ⟨rb, m₁⟩
    rw [hrun] at hran
    split
    · next hunwinding =>
      cases rb with
      | ok v => cases hunwinding
      | error halt =>
        exact { hran with
          machine := rfl
          inv := trivial
          rel := rel_cut hran.rel hunwinding fun _ => rfl }
    · next hunwinding =>
      have hrb := Cleanup.not_unwinding hunwinding
      obtain ⟨hheld, hthread⟩ := hc.holdOutcome rb
      rcases hcleanup (Engine.holdOutcome c rb) m₁ hheld hran.origin with hcut | hcleaned
      · rw [hcut]
        exact ⟨rfl, hran.origin, trivial, rel_cut hran.rel rfl nofun, .halt trivial⟩
      · rcases hrun' : E.stmt A.cleanup (Engine.holdOutcome c rb) m₁ with ⟨rk, m₂⟩
        rw [hrun', hthread] at hcleaned
        have hrel := rel_both hran.rel hrb hcleaned.rel
        refine ⟨rfl, hcleaned.origin, trivial, ?_, ?_⟩
        · cases rk <;> cases rb <;> exact hrel
        · cases rk with
          | error halt => exact hcleaned.outcomes
          | ok => exact hran.outcomes

end cleanupEffect

/-! ### All evaluations -/

namespace Cleanup

theorem contains_trans {s q p : Stmt} (hq : q ∈ s.kind.stmts) (hp : q.Contains p) :
    s.Contains p := by
  induction hp with
  | self => exact .part .self hq
  | part _ hq' ih => exact .part ih hq'

theorem Sole.stmtParts {s : Stmt} (hs : A.Sole s) (hne : s ≠ A.node) :
    A.origin.StmtParts s.kind where
  exprs _ _ := trivial
  declarations _ _ := trivial
  stmts q hq :=
    ⟨fun hpart => hne (hs.parts s .self q hq hpart), fun p hp => hs.parts p (contains_trans hq hp)⟩

theorem ne_node {q : Stmt} (hq : q ∈ A.node.kind.stmts) : q ≠ A.node := by
  -- A part is smaller than the whole.
  have hnode : sizeOf A.node.kind < sizeOf A.node := by
    cases A.node
    simp only [Stmt.mk.sizeOf_spec]
    omega
  have hkind : sizeOf A.node.kind = 1 + sizeOf A.cleanup + sizeOf A.body := by
    rw [A.kind]
    rfl
  rw [A.kind] at hq
  rintro rfl
  rcases List.mem_cons.1 hq with hq | hq
  · rw [← hq] at hkind
    omega
  · rw [← List.mem_singleton.1 hq] at hkind
    omega

/-- The parts of the cleanup and of the body belong to the `origin`. -/
theorem Sole.stmtParts_of_mem {q : Stmt} (hs : A.Sole A.node) (hq : q ∈ A.node.kind.stmts) :
    A.origin.StmtParts q.kind where
  exprs _ _ := trivial
  declarations _ _ := trivial
  stmts p hp := by
    refine ⟨fun hpart => ne_node hq (hs.parts q (.part .self hq) p hp hpart), fun t ht =>
      hs.parts t ?_⟩
    exact contains_trans hq (contains_trans hp ht)

end Cleanup

/-- What is known of an `Engine`: evaluations are balanced, and so is what comes after the beginning
of the `Cleanup` or the body. -/
structure Cleanup.Ready (A : Cleanup) (P : Program) (hP : P.delegates.From A.origin) (E : Engine) :
    Prop where
  sound : ∀ id, (cleanupEffect A P hP id).Sound E
  enters : A.Sole A.node → ∀ s ∈ A.node.kind.stmts, cleanupEffect.Enters A P hP E s

namespace Cleanup.Ready

variable {hP : P.delegates.From A.origin} {E : Engine}

theorem keep (R : A.Ready P hP E) : (keepDrift P A.origin hP).effect.Sound E where
  program := (R.sound mainThread).program
  expr {e c} he hc _ m hm hi := by
    have hpost := (R.sound c.thread).expr he hc rfl m hm hi
    exact { hpost with rel := hpost.rel.1 }
  stmt {s c} hs hc _ m hm hi := by
    have hpost := (R.sound c.thread).stmt hs hc rfl m hm hi
    exact { hpost with rel := hpost.rel.1 }

theorem reacts (R : A.Ready P hP E) (id : ThreadId) : (cleanupEffect A P hP id).Reacts E :=
  cleanupEffect.checks.reacts (R.sound id) (cleanupEffect.stops R.keep)

theorem leaves (R : A.Ready P hP E) (id : ThreadId) : (cleanupEffect A P hP id).Leaves E :=
  cleanupEffect.checks.leaves_of_reacts (R.reacts id) (R.sound id)

theorem stmtKind (R : A.Ready P hP E) {c : Context} (hc : c.From A.origin) {s : Stmt}
    (hs : A.Sole s) :
    (cleanupEffect A P hP c.thread).Does (Same (·.From A.origin))
      (E.stmtKind s.kind s.location c) := by
  by_cases hnode : s = A.node
  · subst hnode
    rw [A.kind]
    refine cleanupEffect.holds_always (R.enters hs _ ?_) (R.enters hs _ ?_) hc
    all_goals simp [A.kind, StmtKind.stmts]
  · exact (Effect.logic (R.leaves c.thread)).stmtKind ⟨rfl, hc, rfl⟩ (fun _ => Effect.spends _)
      (fun _ => Effect.faithful _) (Origin.place_of_stmt hs) (hs.stmtParts hnode)

/-- Induction on the bound. -/
theorem engine (A : Cleanup) (P : Program) (hP : P.delegates.From A.origin) (n : Nat) :
    A.Ready P hP (P.engine n) := by
  induction n with
  | zero =>
    refine ⟨fun id => ⟨rfl, ?_, ?_⟩, fun _ _ _ _ _ _ _ => .inl rfl⟩
    all_goals exact fun _ _ _ m hm hi => Effect.Post.throw (.inr rfl) trivial hm hi
  | succ n R =>
    refine ⟨fun id => ⟨rfl, fun he hc ht => ?_, fun {s c} hs hc ht => ?_⟩,
      fun hnode s hs c m hc hm => .inr ?_⟩
    · exact (Effect.logic (R.leaves id)).evalExpr ⟨rfl, hc, ht⟩ he fun _ _ => trivial
    -- A statement that is no part: the visit does not count, and what follows is balanced.
    · subst ht
      have hnode : A.origin.node (.stmt s) := hs
      have harrive := Effect.Holds.bindEq ((R.leaves c.thread).arrive hnode hc rfl)
        fun _ => R.stmtKind hc hs
      rwa [bind_assoc] at harrive
    -- The cleanup or the body: everything but the visit itself is balanced.
    · have harrive := cleanupEffect.checks.post_arrive (R.reacts c.thread) hc rfl (.stmt s) hm
        trivial
      change (cleanupEffect A P hP c.thread).Post _ _ ((P.engine n).evalStmt s c m)
        ((P.engine n).evalStmt s c m)
      rw [Engine.evalStmt_eq_arrive]
      exact harrive.bind trivial fun _ _ _ =>
        (Effect.logic (R.leaves c.thread)).stmtKind ⟨rfl, hc, rfl⟩ (fun _ => Effect.spends _)
          (fun _ => Effect.faithful _) (Origin.place_of_part hnode hs) (hnode.stmtParts_of_mem hs)
          _ harrive.origin trivial

end Cleanup.Ready

/-- Arrive at the statement: what comes before its body. -/
def Cleanup.arrive (A : Cleanup) (E : Engine) (c : Context) : Eval Unit := do
  Eval.note (.visit (.stmt A.node))
  E.check A.node.id A.node.location c

/-- In an evaluation that is neither cancelled nor stopped, and without a debugger, a `cleanup` is
`entered` as often as its body. Every time the statement is executed it ends with the error of the
cleanup, or else as the body did. -/
theorem cleanup_once_per_exit (A : Cleanup) (P : Program) (hP : P.delegates.From A.origin)
    (hmodel : P.model.From A.origin) {m : Machine} (hm : m.Reachable P A.origin) (task : Task)
    (htask : task.From A.origin) (hthread : m.Has task.thread) (hlink : m.link = none)
    (bound : Nat) :
    (let out := task.run (P.engine bound) m
      ∃ events, out.2.history = events ++ m.history ∧
        (¬(Halt.of? out.1).any (·.isUnwinding) →
          entered A.cleanup events = entered A.body events)) ∧
    ∀ (c : Context) (m m₁ : Machine), A.arrive (P.engine bound) c m = (.ok (), m₁) →
      let ran := (P.engine bound).stmt A.body c m₁
      let cleaned := (P.engine bound).stmt A.cleanup (Engine.holdOutcome c ran.1) ran.2
      (P.engine (bound + 1)).stmt A.node c m =
        if (Halt.of? ran.1).any (·.isUnwinding) then ran
        else (Cleanup.result ran.1 cleaned.1, cleaned.2) := by
  have R := Cleanup.Ready.engine A P hP
  refine ⟨?_, fun c m m₁ harrive => ?_⟩
  -- The machine holds no other code, so the whole evaluation is balanced.
  · obtain ⟨hfrom, -⟩ := hm.origin hmodel fun bound => (R bound).keep
    have hpost := Effect.holds_task ((R bound).leaves task.thread) rfl htask m hfrom trivial
    obtain ⟨events, hhistory, hbalanced⟩ := (hpost.rel.2 hthread hlink).balanced
    exact ⟨events, hhistory, fun hout => hbalanced (Cleanup.not_unwinding hout)⟩
  -- One execution, from the point at which the statement has been reached.
  · refine Eq.trans ?_ ((P.engine bound).always_apply A.cleanup A.body c m₁)
    have hstmt : (P.engine (bound + 1)).stmt A.node c =
        A.arrive (P.engine bound) c >>= fun _ =>
          (P.engine bound).stmtKind A.node.kind A.node.location c := by
      rw [Cleanup.arrive, bind_assoc]
      rfl
    rw [hstmt, bind_of_ok harrive, A.kind]
    rfl

def exitingBody : Cleanup where
  node := .onLine 4 (.always (.onLine 5 .skip) (.onLine 6 (.exit none)))
  cleanup := .onLine 5 .skip
  body := .onLine 6 (.exit none)
  kind := rfl

def exitingLoop : Stmt :=
  .onLine 1 (.forIndex ⟨"", "i", none⟩ (.onLine 1 (.literal (.int 1)))
    (.onLine 1 (.literal (.int 3))) none
    (.onLine 2 (.trap (.pattern ⟨.onLine 2, .ignore⟩) (.onLine 3 .skip) exitingBody.node)))

theorem exitingBody_sole : exitingBody.Sole exitingLoop := by
  -- The loop, the handling statement and the three statements without parts of their own.
  have hcontains : ∀ p, exitingLoop.Contains p → p = exitingLoop ∨ exitingLoop.kind.stmts = [p] ∨
      p = exitingBody.node ∨ p.kind.stmts = [] := by
    intro p hp
    induction hp with
    | self => exact .inl rfl
    | part _ hq ih =>
      rcases ih with rfl | h | rfl | h
      · exact .inr (.inl (congrArg (fun q => [q]) (List.mem_singleton.1 hq)).symm)
      · obtain rfl := List.singleton_inj.1 h
        rcases List.mem_cons.1 hq with rfl | hq
        · exact .inr (.inr (.inr rfl))
        · exact .inr (.inr (.inl (List.mem_singleton.1 hq)))
      · rcases List.mem_cons.1 hq with rfl | hq
        · exact .inr (.inr (.inr rfl))
        · exact .inr (.inr (.inr (List.mem_singleton.1 hq ▸ rfl)))
      · exact nomatch h ▸ hq
  refine ⟨by decide, fun p hp q hq hpart => ?_⟩
  rcases hcontains p hp with rfl | h | rfl | h
  · obtain rfl := List.mem_singleton.1 hq
    exact absurd hpart (by decide)
  · obtain rfl := List.singleton_inj.1 h
    rcases List.mem_cons.1 hq with rfl | hq
    · exact absurd hpart (by decide)
    · exact absurd (List.mem_singleton.1 hq ▸ hpart) (by decide)
  · rfl
  · exact nomatch h ▸ hq

/-- The `cleanup` runs in each of three rounds. -/
theorem cleanup_once_per_exit_loop :
    let P : Program := { model := {} }
    let m := ((P.engine 9).initialise (Machine.initial P {})).2
    let out := (Task.entry (.execute exitingLoop)).run (P.engine 9) m
    (∃ events, out.2.history = events ++ m.history ∧
      entered exitingBody.cleanup events = entered exitingBody.body events) ∧
    entered exitingBody.body m.history = 0 ∧ entered exitingBody.body out.2.history = 3 := by
  intro P m out
  have hreachable : m.Reachable P exitingBody.origin := .create {} [] 9 (Heap.from_empty _)
  have hmain : (m.scheduler.record? mainThread).isSome = true := by decide +kernel
  have hlink : m.link.isNone = true := by decide +kernel
  have hout : ¬(Halt.of? out.1).any (·.isUnwinding) := by decide +kernel
  have hbody : entered exitingBody.body m.history = 0 ∧
      entered exitingBody.body out.2.history = 3 := by decide +kernel
  refine ⟨?_, hbody⟩
  clear_value m
  obtain ⟨⟨events, hhistory, hbalanced⟩, -⟩ := cleanup_once_per_exit exitingBody P nofun
    ⟨nofun, nofun, nofun, nofun, nofun⟩ hreachable (.entry (.execute exitingLoop))
    exitingBody_sole hmain (Option.isNone_iff_eq_none.1 hlink) 9
  exact ⟨events, hhistory, hbalanced hout⟩

end Animator
