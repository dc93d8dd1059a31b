import Animator.Proofs.Lockstep.Context
import Animator.Proofs.Raising

/-!
# Evaluations in lockstep

Two evaluations of the same code are compared step by step. Their contexts agree as far as the
nearest root, and their machines agree in everything but the history, which nothing looks at. One of
them may raise failures as values where the other one ends with fatal errors.

There are two places where such evaluations can go different ways. An object may be alive for one of
them only, since its caller holds it; and a handler takes an exit but no fatal error. From there on
nothing is said, except that both of them remember what has happened. A `Pairing` names the two
evaluations and the machines after such a place (`Pairing.Apart`).
-/

namespace Animator

/-- Nothing that was remembered is forgotten. -/
structure Machine.Grows (m m' : Machine) : Prop where
  history : m.history <:+ m'.history
  calls : m.calls <:+ m'.calls

namespace Machine.Grows

variable {m m₁ m₂ : Machine}

theorem refl : m.Grows m :=
  ⟨List.suffix_rfl, List.suffix_rfl⟩

theorem trans (h : m.Grows m₁) (h' : m₁.Grows m₂) : m.Grows m₂ :=
  ⟨h.history.trans h'.history, h.calls.trans h'.calls⟩

end Machine.Grows

/-- Two machines that agree in everything but the `history`. -/
def Machine.Agrees (m m' : Machine) : Prop :=
  m' = { m with history := m'.history }

theorem Machine.agrees_iff {m m' : Machine} :
    m.Agrees m' ↔ ∃ events, m' = { m with history := events } := by
  refine ⟨fun h => ⟨m'.history, h⟩, ?_⟩
  rintro ⟨events, rfl⟩
  rfl

/-- A change of a machine that has nothing to do with what is remembered, nor with the debugger. -/
structure Blind (g : Machine → Machine) : Prop where
  /-- The `history` is neither looked at nor changed. -/
  history (m : Machine) (events : List Event) :
    g { m with history := events } = { g m with history := events } := by intros; rfl
  calls (m : Machine) : (g m).calls = m.calls := by intros; rfl
  link (m : Machine) : (g m).link = m.link := by intros; rfl
  breakpoints (m : Machine) (hm : m.breakpoints.entries = []) : (g m).breakpoints.entries = [] := by
    intro _ hm; exact hm

namespace Blind

variable {g : Machine → Machine}

theorem id : Blind fun m => m where

theorem grows (hg : Blind g) (m : Machine) : m.Grows (g m) := by
  -- A machine is itself with its own history.
  have hhistory : (g m).history = m.history :=
    (congrArg Machine.history (hg.history m m.history) :)
  exact ⟨hhistory ▸ List.suffix_rfl, (hg.calls m).symm ▸ List.suffix_rfl⟩

theorem guard (guard : Guard) (id : ThreadId) : Blind (guard.enter id) ∧
    Blind (guard.leave id) := by
  cases guard <;> exact ⟨{}, {}⟩

end Blind

/-- No debugger is attached, and there may have to be no `breakpoints` either. -/
structure Machine.Tacit (bare : Prop) (m : Machine) : Prop where
  link : m.link = none
  breakpoints : bare → m.breakpoints.entries = []

theorem Machine.Tacit.map {bare : Prop} {m : Machine} (hm : m.Tacit bare) {g : Machine → Machine}
    (hg : Blind g) : (g m).Tacit bare :=
  ⟨(hg.link m).trans hm.link, fun hbare => hg.breakpoints m (hm.breakpoints hbare)⟩

/-- What is known of one evaluation on its own: there is no debugger, and nothing is forgotten. -/
def Regime.tacit (bare : Prop) : Regime :=
  ⟨Machine.Tacit bare, Machine.Grows, .refl, .trans⟩

theorem Blind.keeps {g : Machine → Machine} (hg : Blind g) (bare : Prop) :
    (Regime.tacit bare).Keeps g :=
  fun m hm => ⟨hm.map hg, hg.grows m⟩

namespace Part

variable {α : Type} {x : Eval α} (hx : Part x)

include hx

theorem history (m : Machine) (events : List Event) :
    x { m with history := events } =
      ((x m).1, { (x m).2 with history := events }) := by
  let K : Mask := { aside a := { a with history := events } }
  have hmachine : ∀ m : Machine, K.machine m = { m with history := events } := fun m => by
    have hrecords : m.scheduler.records.map K.record = m.scheduler.records := List.map_id _
    simp only [Mask.machine, Mask.scheduler, hrecords]
    rfl
  have hbehind := hx.behind K (m := m) rfl
  rwa [hmachine, hmachine] at hbehind

theorem grows (m : Machine) : m.Grows (x m).2 := by
  have hhistory : (x m).2.history = m.history := (congrArg Aside.history (hx.keeps m).1 :)
  refine ⟨hhistory ▸ List.suffix_rfl, ?_⟩
  cases hx with
  | called ref alive => exact List.suffix_cons _ _
  | invoke d call =>
    unfold Eval.invoke
    split <;> exact List.suffix_rfl
  | _ => exact List.suffix_rfl

theorem tacit {bare : Prop} {m : Machine} (hm : m.Tacit bare) : (x m).2.Tacit bare := by
  have hlink : (x m).2.link = m.link := (congrArg Aside.link (hx.keeps m).1 :)
  have hbreakpoints : (x m).2.breakpoints = m.breakpoints :=
    (congrArg Aside.breakpoints (hx.keeps m).1 :)
  exact ⟨hlink.trans hm.link, fun hbare => hbreakpoints ▸ hm.breakpoints hbare⟩

end Part

/-- Two evaluations of the code of a program that are compared. -/
structure Pairing (P : Program) where
  /-- Whether the second one raises failures as values. -/
  exceptions : Bool
  /-- The contexts that the two come from hold the same nodes. -/
  Level : Prop
  Bare : Prop
  /-- The machines of evaluations that have come `Apart`. -/
  Apart : Machine → Machine → Prop
  -- Failures that the first one raises are raised by the second one, too.
  mode : P.settings.exceptions = true → exceptions = true
  -- A breakpoint may wait for failures that are raised.
  bare : exceptions ≠ P.settings.exceptions → Bare
  grows {m m' m₁ m₁' : Machine} : Apart m m' → m.Grows m₁ → m'.Grows m₁' → Apart m₁ m₁'
  -- An object that is alive for one of the two only.
  living {m m' : Machine} {ref : ObjectRef} {alive alive' : Bool} : ¬Level → m.calls = m'.calls →
    alive ≠ alive' →
    Apart { m with calls := (ref, alive) :: m.calls } { m' with calls := (ref, alive') :: m'.calls }
  -- A handler, if only one of the two raises failures.
  handled {m m' : Machine} {s : Stmt} : exceptions ≠ P.settings.exceptions →
    s.kind.handles = true → .visit (.stmt s) ∈ m.history → Apart m m'

namespace Pairing

variable {P : Program} (D : Pairing P) {α β : Type}

def program : Program :=
  P.raising D.exceptions

/-- How an early end of the first evaluation shows in the second one. -/
def relabel (halt : Halt) : Halt :=
  if D.exceptions = P.settings.exceptions then halt else halt.raised

/-- Two machines that agree, without a debugger. -/
structure Linked (m m' : Machine) : Prop where
  tacit : m.Tacit D.Bare
  eq : m.Agrees m'

/-- Related values, or early ends that correspond to each other. -/
inductive Outcomes (Q : α → α → Prop) : Except Halt α → Except Halt α → Prop where
  | value {a b : α} (hab : Q a b) : Outcomes Q (.ok a) (.ok b)
  | halt (halt : Halt) : Outcomes Q (.error halt) (.error (D.relabel halt))

/-- What is known of the first evaluation on its own. -/
abbrev Left (Q : α → α → Prop) (x : Eval α) : Prop :=
  (Regime.tacit D.Bare).Runs (fun a => ∃ b, Q a b) (fun _ => True) x

/-- What is known of the second evaluation on its own. -/
abbrev Right (Q : α → α → Prop) (y : Eval α) : Prop :=
  (Regime.tacit D.Bare).Runs (fun b => ∃ a, Q a b) (fun halt => ∃ first, halt = D.relabel first) y

/-- Two evaluations that go in lockstep, or come `Apart`. -/
structure Holds (Q : α → α → Prop) (x y : Eval α) : Prop where
  left : D.Left Q x
  right : D.Right Q y
  both {m m' : Machine} : D.Linked m m' →
    D.Outcomes Q (x m).1 (y m').1 ∧ D.Linked (x m).2 (y m').2 ∨ D.Apart (x m).2 (y m').2

variable {D} {m m' : Machine}

theorem relabel_of_not_fatal {halt : Halt} (hh : halt.raised = halt) : D.relabel halt = halt := by
  unfold relabel
  split
  · rfl
  · exact hh

theorem relabel_of_unwinding {halt : Halt} (hh : halt.isUnwinding = true) :
    D.relabel halt = halt := by
  cases halt with
  | fatal => cases hh
  | _ => exact relabel_of_not_fatal rfl

theorem Outcomes.haltSame {Q : α → α → Prop} {halt : Halt} (hh : D.relabel halt = halt) :
    D.Outcomes Q (.error halt) (.error halt) := by
  have hhalt := Outcomes.halt (D := D) (Q := Q) halt
  rwa [hh] at hhalt

theorem Outcomes.eq_of_same (hsame : D.exceptions = P.settings.exceptions) {r r' : Except Halt α}
    (h : D.Outcomes Eq r r') : r' = r := by
  cases h with
  | value hab => rw [hab]
  | halt halt => rw [relabel, if_pos hsame]

theorem isUnwinding_relabel (halt : Halt) :
    (D.relabel halt).isUnwinding = halt.isUnwinding := by
  unfold relabel
  split
  · rfl
  · cases halt <;> rfl

/-- If the evaluations treat failures in different ways, then only the second one raises them. -/
theorem exceptions_of_ne (hne : D.exceptions ≠ P.settings.exceptions) :
    P.settings.exceptions = false ∧ D.exceptions = true := by
  have hmode := D.mode
  cases hP : P.settings.exceptions with
  | true => exact absurd (hP.trans (hmode hP).symm).symm hne
  | false =>
    cases hD : D.exceptions with
    | true => exact ⟨rfl, rfl⟩
    | false => exact absurd (hD.trans hP.symm) hne

namespace Linked

theorem refl (hm : m.Tacit D.Bare) : D.Linked m m :=
  ⟨hm, rfl⟩

variable (h : D.Linked m m')

include h

theorem right : m'.Tacit D.Bare := by
  rw [h.eq]
  exact ⟨h.tacit.link, h.tacit.breakpoints⟩

theorem map {g : Machine → Machine} (hg : Blind g) : D.Linked (g m) (g m') := by
  refine ⟨h.tacit.map hg, ?_⟩
  obtain ⟨events, rfl⟩ := Machine.agrees_iff.1 h.eq
  exact Machine.agrees_iff.2 ⟨events, hg.history m events⟩

theorem read {f : Machine → α} (hf : ∀ (m : Machine) events, f { m with history := events } = f m) :
    f m' = f m := by
  rw [h.eq, hf]

end Linked

/-! ### One evaluation -/

theorem outcome_machine {x : Eval α} {r : Except Halt α} {m₁ : Machine} (hx : x m = (r, m₁)) :
    (x.outcome m).2 = m₁ := by
  cases r with
  | ok a => rw [outcome_of_ok hx]
  | error halt =>
    by_cases hh : halt = .exhausted
    · subst hh
      rw [outcome_of_exhausted hx]
    · rw [outcome_of_error hx hh]

/-! ### Two evaluations -/

namespace Holds

variable {Q : α → α → Prop} {R : β → β → Prop} {x y : Eval α}

theorem ofOutcomes {r r' : Except Halt α} (hr : D.Outcomes Q r r')
    (hx : ∀ m, m.Tacit D.Bare → x m = (r, m)) (hy : ∀ m, m.Tacit D.Bare → y m = (r', m)) :
    D.Holds Q x y where
  left m hm := by
    rw [hx m hm]
    refine ⟨hm, .refl, ?_, fun _ _ => trivial⟩
    rintro a rfl
    cases hr with
    | value hab => exact ⟨_, hab⟩
  right m hm := by
    rw [hy m hm]
    refine ⟨hm, .refl, ?_, ?_⟩
    · rintro b rfl
      cases hr with
      | value hab => exact ⟨_, hab⟩
    · rintro halt rfl
      cases hr with
      | halt first => exact ⟨first, rfl⟩
  both {m m'} h := by
    rw [hx m h.tacit, hy m' h.right]
    exact .inl ⟨hr, h⟩

theorem pure {a b : α} (hab : Q a b) : D.Holds Q (Pure.pure a) (Pure.pure b) :=
  .ofOutcomes (.value hab) (fun _ _ => rfl) fun _ _ => rfl

theorem throw (halt : Halt) :
    D.Holds Q (MonadExcept.throw halt) (MonadExcept.throw (D.relabel halt)) :=
  .ofOutcomes (.halt halt) (fun _ _ => rfl) fun _ _ => rfl

theorem throwSame {halt : Halt} (hh : halt.raised = halt) :
    D.Holds Q (MonadExcept.throw halt) (MonadExcept.throw halt) :=
  .ofOutcomes (.haltSame (relabel_of_not_fatal hh)) (fun _ _ => rfl) fun _ _ => rfl

theorem act {f f' : Machine → α} {g : Machine → Machine} (hg : Blind g)
    (hf : ∀ (m : Machine) events, f' { m with history := events } = f' m)
    (hQ : ∀ m, Q (f m) (f' m)) :
    D.Holds Q (fun m => (.ok (f m), g m)) (fun m => (.ok (f' m), g m)) where
  left := .act (hg.keeps _) fun m _ => ⟨_, hQ m⟩
  right := .act (hg.keeps _) fun m _ => ⟨_, hQ m⟩
  both {m m'} h := by
    refine .inl ⟨.value ?_, h.map hg⟩
    rw [h.read hf]
    exact hQ m

theorem reads {f f' : Machine → α}
    (hf : ∀ (m : Machine) events, f' { m with history := events } = f' m)
    (hQ : ∀ m, Q (f m) (f' m)) : D.Holds Q (Eval.reads f) (Eval.reads f') :=
  .act .id hf hQ

theorem change {g : Machine → Machine} (hg : Blind g) :
    D.Holds Eq (Eval.change g) (Eval.change g) :=
  .act (f := fun _ => ()) hg (fun _ _ => rfl) fun _ => rfl

theorem part (hx : Part x) : D.Holds Eq x x where
  left m hm := ⟨hx.tacit hm, hx.grows m, fun a _ => ⟨a, rfl⟩, fun _ _ => trivial⟩
  right m hm := by
    refine ⟨hx.tacit hm, hx.grows m, fun a _ => ⟨a, rfl⟩, fun halt hhalt => ?_⟩
    obtain ⟨a, m₁, hrun⟩ := hx.isOk m
    rw [hrun] at hhalt
    cases hhalt
  both {m m'} h := by
    have htacit := hx.tacit h.tacit
    obtain ⟨events, rfl⟩ := Machine.agrees_iff.1 h.eq
    rw [hx.history m events]
    obtain ⟨a, m₁, hrun⟩ := hx.isOk m
    rw [hrun] at htacit ⊢
    exact .inl ⟨.value rfl, htacit, Machine.agrees_iff.2 ⟨events, rfl⟩⟩

theorem remember {r r' : Except Halt α} (hr : D.Outcomes Q r r') (event event' : Machine → Event) :
    D.Holds Q (fun m => (r, { m with history := event m :: m.history }))
      (fun m => (r', { m with history := event' m :: m.history })) where
  left m hm := by
    refine ⟨⟨hm.link, hm.breakpoints⟩, ⟨List.suffix_cons _ _, List.suffix_rfl⟩, ?_,
      fun _ _ => trivial⟩
    rintro a ⟨⟩
    cases hr with
    | value hab => exact ⟨_, hab⟩
  right m hm := by
    refine ⟨⟨hm.link, hm.breakpoints⟩, ⟨List.suffix_cons _ _, List.suffix_rfl⟩, ?_, ?_⟩
    · rintro b ⟨⟩
      cases hr with
      | value hab => exact ⟨_, hab⟩
    · rintro halt ⟨⟩
      cases hr with
      | halt first => exact ⟨first, rfl⟩
  both {m m'} h := by
    refine .inl ⟨hr, ⟨h.tacit.link, h.tacit.breakpoints⟩, ?_⟩
    obtain ⟨events, rfl⟩ := Machine.agrees_iff.1 h.eq
    rfl

theorem note (event event' : Event) : D.Holds Eq (Eval.note event) (Eval.note event') :=
  .remember (.value rfl) (fun _ => event) fun _ => event'

theorem unwind {halt : Halt} (hh : halt.isUnwinding = true) :
    D.Holds Q (Eval.unwind halt) (Eval.unwind halt) :=
  .remember (.haltSame (relabel_of_unwinding hh)) (fun m => .unwound halt m.snapshot)
    fun m => .unwound halt m.snapshot

theorem bind {f g : α → Eval β} (hx : D.Holds Q x y) (hf : ∀ a b, Q a b → D.Holds R (f a) (g b)) :
    D.Holds R (x >>= f) (y >>= g) := by
  have hleft : ∀ a, (∃ b, Q a b) → D.Left R (f a) := by
    rintro a ⟨b, hab⟩
    exact (hf a b hab).left
  have hright : ∀ b, (∃ a, Q a b) → D.Right R (g b) := by
    rintro b ⟨a, hab⟩
    exact (hf a b hab).right
  refine ⟨hx.left.bind hleft, hx.right.bind hright, fun {m m'} h => ?_⟩
  rcases hx.both h with ⟨houtcomes, hlinked⟩ | hapart
  · rcases hrun : x m with ⟨r, m₁⟩
    rcases hrun' : y m' with ⟨r', m₁'⟩
    rw [hrun, hrun'] at houtcomes hlinked
    cases houtcomes with
    | value hab =>
      rw [bind_of_ok hrun, bind_of_ok hrun']
      exact (hf _ _ hab).both hlinked
    | halt halt =>
      rw [bind_of_error hrun, bind_of_error hrun']
      exact .inl ⟨.halt halt, hlinked⟩
  -- They have come apart already, and both remember it.
  · exact .inr (D.grows hapart (hx.left.after hleft h.tacit).rel
      (hx.right.after hright h.right).rel)

theorem bindEq {f g : α → Eval β} (hx : D.Holds Eq x y) (hf : ∀ a, D.Holds R (f a) (g a)) :
    D.Holds R (x >>= f) (y >>= g) := by
  refine hx.bind ?_
  rintro a _ rfl
  exact hf a

theorem eq_of_same {p : α → Prop} (h : D.Holds (Same p) x y) : D.Holds Eq x y := by
  have hpure := h.bind fun a b hab => Holds.pure (D := D) (Q := Eq) hab.1
  rwa [bind_pure, bind_pure] at hpure

/-- Two evaluations whose early ends are handled, of which the second one may see an exit. -/
theorem handle {f g : Except Halt α → Eval β} (hx : D.Holds Q x y)
    (hok : ∀ a b, Q a b → D.Holds R (f (.ok a)) (g (.ok b)))
    (herror : ∀ halt, halt.isUnwinding = false →
      D.Holds R (f (.error halt)) (g (.error (D.relabel halt))))
    (hunwinding : ∀ halt, halt.isUnwinding = true →
      f (.error halt) = MonadExcept.throw halt ∧ g (.error halt) = MonadExcept.throw halt) :
    D.Holds R (x.outcome >>= f) (y.outcome >>= g) := by
  have hleft : ∀ a, (∃ b, Q a b) → D.Left R (f (.ok a)) := by
    rintro a ⟨b, hab⟩
    exact (hok a b hab).left
  have hright : ∀ b, (∃ a, Q a b) → D.Right R (g (.ok b)) := by
    rintro b ⟨a, hab⟩
    exact (hok a b hab).right
  -- An early end of the second evaluation is the counterpart of one of the first.
  have hcounter : ∀ halt, (∃ first, halt = D.relabel first) → halt.isUnwinding = false →
      D.Right R (g (.error halt)) := by
    rintro _ ⟨first, rfl⟩ hh
    rw [isUnwinding_relabel] at hh
    exact (herror first hh).right
  refine ⟨hx.left.handle hleft (fun halt _ hh => (herror halt hh).left)
    fun halt hh => (hunwinding halt hh).1, hx.right.handle hright hcounter
    fun halt hh => (hunwinding halt hh).2, fun {m m'} h => ?_⟩
  rcases hx.both h with ⟨houtcomes, hlinked⟩ | hapart
  · rcases hrun : x m with ⟨r, m₁⟩
    rcases hrun' : y m' with ⟨r', m₁'⟩
    rw [hrun, hrun'] at houtcomes hlinked
    cases houtcomes with
    | value hab =>
      rw [bind_of_ok (outcome_of_ok hrun), bind_of_ok (outcome_of_ok hrun')]
      exact (hok _ _ hab).both hlinked
    | halt halt =>
      cases hh : halt.isUnwinding with
      | false =>
        have hne : ∀ halt : Halt, halt.isUnwinding = false → halt ≠ .exhausted := by
          rintro _ hh rfl
          cases hh
        rw [bind_of_ok (outcome_of_error hrun (hne _ hh)),
          bind_of_ok (outcome_of_error hrun' (hne _ ((isUnwinding_relabel halt).trans hh)))]
        exact (herror halt hh).both hlinked
      | true =>
        rw [relabel_of_unwinding hh] at hrun'
        rw [bind_outcome_of_error hrun (hunwinding halt hh).1,
          bind_outcome_of_error hrun' (hunwinding halt hh).2]
        exact .inl ⟨.haltSame (relabel_of_unwinding hh), hlinked⟩
  · refine .inr (D.grows hapart (hx.left.afterOutcome hleft ?_ ?_ h.tacit).rel
      (hx.right.afterOutcome hright hcounter ?_ h.right).rel)
    · exact fun halt _ hh => (herror halt hh).left
    · exact fun halt hh => (hunwinding halt hh).1
    · exact fun halt hh => (hunwinding halt hh).2

theorem bracket {before after : Machine → Machine} (hbefore : Blind before) (hafter : Blind after)
    (hx : D.Holds Q x y) :
    D.Holds Q (Eval.bracket before after x) (Eval.bracket before after y) where
  left := hx.left.bracket (hbefore.keeps _) (hafter.keeps _)
  right := hx.right.bracket (hbefore.keeps _) (hafter.keeps _)
  both {m m'} h := by
    rcases hx.both (h.map hbefore) with ⟨houtcomes, hlinked⟩ | hapart
    · exact .inl ⟨houtcomes, hlinked.map hafter⟩
    · exact .inr (D.grows hapart (hafter.grows _) (hafter.grows _))

theorem guard (g : Guard) (id : ThreadId) (hx : D.Holds Q x y) :
    D.Holds Q (Eval.bracket (g.enter id) (g.leave id) x)
      (Eval.bracket (g.enter id) (g.leave id) y) :=
  hx.bracket (Blind.guard g id).1 (Blind.guard g id).2

/-! ### Stops and failures -/

section Engine

variable {E E' : Engine} {c c' : Context} {location : Location}

theorem suspendIf {reason : StopReason} (b b' : Bool) :
    D.Holds Eq (if b then E.suspend reason location c else Pure.pure ())
      (if b' then E'.suspend reason location c' else Pure.pure ()) := by
  refine .ofOutcomes (.value (Eq.refl ())) (fun m hm => ?_) fun m hm => ?_
  · cases b with
    | true => exact E.suspend_of_none reason location c hm.link
    | false => rfl
  · cases b' with
    | true => exact E'.suspend_of_none reason location c' hm.link
    | false => rfl

/-- Nothing stops. -/
theorem vigil (hE : E.program = P) (hE' : E'.program = D.program) (ht : c'.thread = c.thread) :
    Vigil D.Holds E E' c c' where
  pure := .pure rfl
  bindEq := .bindEq
  heap := .reads (fun _ _ => rfl) fun _ => rfl
  onThread := ht
  isRealTime := by
    rw [Engine.settings, Engine.settings, hE, hE']
    rfl
  thread := .reads (fun _ _ => rfl) fun _ => rfl
  table _ := .reads (fun _ _ => rfl) fun _ => rfl
  note := .note
  unwind := .unwind
  count _ := .change {}
  hit number := .change {
    breakpoints := fun m hm => by rw [BreakpointTable.entries_hit, hm, List.map_nil] }
  takeInterrupt := .act {} (fun _ _ => rfl) fun _ => rfl
  yieldPoint := .change {}
  suspendIf b b' _ _ := .suspendIf b b'

/-- A failure, by `fail`. The first evaluation may end with a fatal error where the second one
raises a value. -/
theorem fail {code : Code} {message : String} (hE : E.program = P) (hE' : E'.program = D.program)
    (ht : c'.thread = c.thread) (htitle : c.rootOf.inner.title = c'.rootOf.inner.title) :
    D.Holds Q (E.fail code message location c) (E'.fail code message location c') := by
  have hfatal : ∀ (E : Engine) (c : Context) (m : Machine), m.Tacit D.Bare →
      (do
        E.reportFatal (code.text ++ ": " ++ message) location c
        MonadExcept.throw (.fatal code message location c.rootOf.inner.title) : Eval α) m =
        (.error (.fatal code message location c.rootOf.inner.title), m) := fun E c m hm =>
    bind_of_ok (E.reportFatal_of_none _ location c hm.link)
  by_cases hsame : D.exceptions = P.settings.exceptions
  · have hsettings : E'.settings.exceptions = E.settings.exceptions := by
      rw [Engine.settings, Engine.settings, hE, hE']
      exact hsame
    unfold Engine.fail
    rw [hsettings]
    split
    · exact (vigil hE hE' ht).raise (.throwSame rfl)
    · refine .ofOutcomes ?_ (hfatal E c) (hfatal E' c')
      rw [htitle]
      exact .haltSame (if_pos hsame)
  · obtain ⟨hoff, hon⟩ := exceptions_of_ne hsame
    have hsettings : E.settings.exceptions = false := by rw [Engine.settings, hE, hoff]
    have hsettings' : E'.settings.exceptions = true := by
      rw [Engine.settings, hE', program, Program.raising, hon]
    unfold Engine.fail
    rw [hsettings, hsettings', if_neg Bool.false_ne_true, if_pos rfl]
    have hhalt := Outcomes.halt (D := D) (Q := Q)
      (.fatal code message location c.rootOf.inner.title)
    rw [relabel, if_neg hsame] at hhalt
    refine .ofOutcomes hhalt (hfatal E c) fun m hm => ?_
    -- There is no breakpoint that the value could be offered to.
    refine E'.raise_of_none _ location c' ?_
    rw [(List.append_eq_nil_iff.1 (hm.breakpoints (D.bare hsame))).2]
    exact List.forall_mem_nil _

end Engine

theorem outcome (hsame : D.exceptions = P.settings.exceptions) (hx : D.Holds Eq x y) :
    D.Holds Eq x.outcome y.outcome where
  left := hx.left.outcome id fun r => ⟨r, rfl⟩
  right := hx.right.outcome id fun r => ⟨r, rfl⟩
  both {m m'} h := by
    rcases hrun : x m with ⟨r, m₁⟩
    rcases hrun' : y m' with ⟨r', m₁'⟩
    have hboth := hx.both h
    rw [hrun, hrun'] at hboth
    have hmachine := outcome_machine hrun
    have hmachine' := outcome_machine hrun'
    rcases hboth with ⟨houtcomes, hlinked⟩ | hapart
    · refine .inl ⟨?_, hmachine ▸ hmachine' ▸ hlinked⟩
      cases houtcomes with
      | value hab =>
        rw [outcome_of_ok hrun, outcome_of_ok hrun', hab]
        exact .value rfl
      | halt halt =>
        have hrelabel : D.relabel halt = halt := if_pos hsame
        rw [hrelabel] at hrun'
        by_cases hh : halt = .exhausted
        · subst hh
          rw [outcome_of_exhausted hrun, outcome_of_exhausted hrun']
          exact .haltSame hrelabel
        · rw [outcome_of_error hrun hh, outcome_of_error hrun' hh]
          exact .value rfl
    · exact .inr (hmachine ▸ hmachine' ▸ hapart)

end Holds

/-- Contexts that hold early ends: the value that is raised for a failure keeps nothing alive
(`holdOutcome`). -/
theorem akin_holdOutcome {c c' : Context} (hc : c.Akin D.Level c') (halt : Halt) :
    (Engine.holdOutcome c (.error halt)).Akin D.Level
      (Engine.holdOutcome c' (.error (D.relabel halt))) := by
  unfold relabel
  split
  · cases halt with
    | exit v => exact hc.holdAll [v]
    | _ => exact hc
  · cases halt with
    | exit v => exact hc.holdAll [v]
    | fatal code message =>
      refine @Context.Akin.holding _ _ _ hc [] [_] fun node => ?_
      simp [Value.refersTo, Value.references, Value.referencesOfAll, Value.references_ofText]
    | _ => exact hc

/-! ### What is left to show for an engine -/

/-- Two engines whose expressions and statements go in lockstep. -/
structure Sound (D : Pairing P) (E E' : Engine) : Prop where
  program : E.program = P
  program' : E'.program = D.program
  rounds : E.rounds = E'.rounds
  expr {e : Expr} {c c' : Context} : c.Akin D.Level c' → D.Holds Eq (E.expr e c) (E'.expr e c')
  stmt {s : Stmt} {c c' : Context} : c.Akin D.Level c' → D.Holds Eq (E.stmt s c) (E'.stmt s c')

namespace Sound

variable {E E' : Engine} (S : D.Sound E E') {c c' : Context} {location : Location}

include S

theorem setting {f : Settings → α} (hf : ∀ (s : Settings) on, f { s with exceptions := on } = f s) :
    f E'.settings = f E.settings := by
  rw [Engine.settings, Engine.settings, S.program, S.program']
  exact hf P.settings D.exceptions

theorem delegates : E'.program.delegates = E.program.delegates := by
  rw [S.program, S.program']
  rfl

theorem fail {Q : α → α → Prop} {code : Code} {message : String} (hc : c.Akin D.Level c') :
    D.Holds Q (E.fail code message location c) (E'.fail code message location c') :=
  .fail S.program S.program' hc.thread (congrArg Scope.title hc.rootOf)

theorem lift {result : Except ValueFault α} (hc : c.Akin D.Level c') :
    D.Holds Eq (E.lift result location c) (E'.lift result location c') := by
  cases result with
  | ok a => exact .pure rfl
  | error fault => exact S.fail hc

theorem consultHeap {f : Heap → Except ValueFault α} (hc : c.Akin D.Level c') :
    D.Holds Eq (E.consultHeap f location c) (E'.consultHeap f location c') :=
  .bindEq (.reads (fun _ _ => rfl) fun _ => rfl) fun _ => S.lift hc

/-- A routine runs on an object that is alive in both, unless the evaluations part. -/
theorem living {self : Option ObjectRef} (hholds : D.Level → ∀ node, c.holds node = c'.holds node) :
    D.Holds Eq (E.living self c) (E'.living self c') := by
  cases self with
  | none => exact .pure rfl
  | some ref =>
    let alive (E : Engine) (c : Context) (m : Machine) : Bool :=
      m.heap.isAlive (fun node =>
        c.holds node || m.holds node || E.program.delegates.values.any (·.refersTo node)) ref
    have hrun : ∀ (E : Engine) (c : Context) (m : Machine), E.living (some ref) c m =
        (.ok (if alive E c m then some ref else none),
          { m with calls := (ref, alive E c m) :: m.calls }) := fun _ _ _ => rfl
    have hran : ∀ (E : Engine) (c : Context) {ok : Option ObjectRef → Prop} {ended : Halt → Prop},
        (∀ found, ok found) → (Regime.tacit D.Bare).Runs ok ended (E.living (some ref) c) :=
      fun E c _ _ hok m hm =>
        ⟨⟨hm.link, hm.breakpoints⟩, ⟨List.suffix_rfl, List.suffix_cons _ _⟩, fun _ _ =>
          hok _, nofun⟩
    refine ⟨hran E c fun found => ⟨found, rfl⟩, hran E' c' fun found => ⟨found, rfl⟩,
      fun {m m'} h => ?_⟩
    rw [hrun, hrun]
    have hcalls : m'.calls = m.calls := h.read fun _ _ => rfl
    by_cases hsame : alive E c m = alive E' c' m'
    · refine .inl ⟨.value (by rw [hsame]), ⟨h.tacit.link, h.tacit.breakpoints⟩, ?_⟩
      rw [hsame]
      exact congrArg (fun m : Machine => { m with calls := (ref, alive E' c' m') :: m.calls }) h.eq
    · refine .inr (D.living (fun hlevel => hsame ?_) hcalls.symm hsame)
      have hheap : m'.heap = m.heap := h.read fun _ _ => rfl
      have hm : m'.holds = m.holds := h.read (f := Machine.holds) fun _ _ => rfl
      simp only [alive, hheap, hm, S.delegates, hholds hlevel]

/-! ### Checks -/

theorem vigil (hc : c.Akin D.Level c') : Vigil D.Holds E E' c c' :=
  Holds.vigil S.program S.program' hc.thread

/-- What the debugger evaluates goes in lockstep if both evaluations treat failures in the same way.
-/
theorem reaction (hsame : D.exceptions = P.settings.exceptions) (hc : c.Akin D.Level c') :
    Reaction D.Holds E E' c c' where
  toChains := (S.vigil hc).toChains
  log _ := hc.thread ▸ .part (.log _ _)
  inspect _ := by
    unfold Engine.inspect Eval.within
    rw [hc.thread]
    exact .outcome hsame (.guard (.within .debugging) c.thread (S.expr hc))
  asks _ := by
    unfold Engine.asks Eval.within
    rw [hc.thread]
    refine .outcome hsame (.guard (.within .debugging) c.thread ?_)
    exact .bindEq (S.expr hc) fun v => S.consultHeap hc

theorem meetBreakpoint {node : NodeId} (hc : c.Akin D.Level c') :
    D.Holds Eq (E.meetBreakpoint node location c) (E'.meetBreakpoint node location c') := by
  by_cases hsame : D.exceptions = P.settings.exceptions
  · exact (S.vigil hc).meetBreakpoint (S.reaction hsame hc)
  · -- There are no breakpoints.
    have hnone : ∀ m : Machine, m.Tacit D.Bare → m.breakpoints.at? node = none := fun m hm =>
      BreakpointTable.at?_of_entries_nil (hm.breakpoints (D.bare hsame)) node
    exact .ofOutcomes (.value rfl) (fun m hm => E.meetBreakpoint_of_none location c (hnone m hm))
      fun m hm => E'.meetBreakpoint_of_none location c' (hnone m hm)

theorem check {node : NodeId} (hc : c.Akin D.Level c') :
    D.Holds Eq (E.check node location c) (E'.check node location c') :=
  (S.vigil hc).check node (S.meetBreakpoint hc)

/-- Two `engines` go in lockstep part by part. -/
def parts : Parts E E' where
  Holds := D.Holds
  Ctx := Context.Akin D.Level
  Threads := Eq
  Halts halt halt' := halt' = D.relabel halt
  Made _ := True
  engines := {
    rounds := Nat.le_of_eq S.rounds
    preChecks := (S.setting (f := Settings.preChecks) fun _ _ => rfl).symm
    invChecks := (S.setting (f := Settings.invChecks) fun _ _ => rfl).symm }
  expr := S.expr
  stmt := S.stmt
  logs := S.setting (f := Settings.logInstanceChanges) fun _ _ => rfl
  delegates := S.delegates
  alike hc := hc.alike
  holdAll values hc := hc.holdAll values
  bindAll hc _ := hc.bindAll _
  onThread hc := hc.thread
  resolves hc := hc.lookup
  scope _ _ _ hc := .act {} (fun _ _ => rfl) fun _ => hc.within _
  pure := .pure
  bind := .bind
  fail hc := S.fail hc
  raise hc _ := (S.vigil hc).raise (.throwSame rfl)
  exhausted := .throwSame rfl
  cutOff hne := absurd S.rounds hne
  isUnwinding hh := hh ▸ isUnwinding_relabel _
  holdOutcome hc hh := hh ▸ akin_holdOutcome hc _
  rethrow hh _ _ := hh ▸ .throw _
  handle hx hok herror := .handle hx hok fun halt hh => herror halt _ rfl hh halt.from_all
  living hc := S.living hc.holds
  thread hc := .reads (fun _ _ => rfl) fun _ => by rw [hc.thread]
  isPure := @Thread.isPure_of_eq
  newObject := .act {} (fun _ _ => rfl) fun _ => ⟨rfl, trivial⟩
  setMember _ _ := .change {}
  unhit _ _ _ := .change {}
  part := .part
  timed id hx := .guard .timed id hx
  within _ hc hx := by
    unfold Eval.within
    rw [hc.thread]
    exact .guard (.within _) _ hx
  comeBack hc _ _ := (S.vigil hc).comeBack _ _ _ _
  arrive _ hc := .bindEq (.note _ _) fun _ => S.check hc

def logic : Logic .all E E' :=
  S.parts.logic

theorem faithful (hsame : D.exceptions = P.settings.exceptions) : S.logic.Faithful :=
  fun hh => hh.trans (if_pos hsame)

end Sound

/-! ### All evaluations -/

/-- With one more `Level` of nesting. Handlers are left out if only one evaluation raises failures.
-/
theorem Sound.succ {n : Nat} (S : D.Sound (P.engine n) (D.program.engine n))
    (hhandles : D.exceptions ≠ P.settings.exceptions → ∀ {s : Stmt} {c c' : Context},
      s.kind.handles = true → c.Akin D.Level c' →
      D.Holds Eq ((P.engine (n + 1)).stmt s c) ((D.program.engine (n + 1)).stmt s c')) :
    D.Sound (P.engine (n + 1)) (D.program.engine (n + 1)) where
  program := rfl
  program' := rfl
  rounds := rfl
  expr hc := S.parts.evalExpr _ hc
  stmt {s c c'} hc := by
    by_cases hsame : D.exceptions = P.settings.exceptions
    · exact S.parts.evalStmt s (fun _ => S.faithful hsame) hc
    · cases hs : s.kind.handles with
      | true => exact hhandles hsame hs hc
      | false => exact S.parts.evalStmt s (fun h => absurd (h.symm.trans hs) (by decide)) hc

theorem engine_of_same (hsame : D.exceptions = P.settings.exceptions) (n : Nat) :
    D.Sound (P.engine n) (D.program.engine n) := by
  induction n with
  | zero => exact ⟨rfl, rfl, rfl, fun _ => .throwSame rfl, fun _ => .throwSame rfl⟩
  | succ n ih => exact ih.succ fun hne => absurd hsame hne

/-- An evaluation of a program and itself, with another history. -/
def plain (P : Program) (bare : Prop) : Pairing P where
  exceptions := P.settings.exceptions
  Level := True
  Bare := bare
  Apart _ _ := False
  mode hon := hon
  bare hne := absurd rfl hne
  grows hapart _ _ := hapart
  living hlevel := absurd trivial hlevel
  handled hne := absurd rfl hne

theorem runs_stmt (P : Program) (bare : Prop) (n : Nat) (s : Stmt) (c : Context) :
    (plain P bare).Left Eq ((P.engine n).stmt s c) :=
  ((engine_of_same (D := plain P bare) rfl n).stmt (.refl c)).left

theorem visit_mem_history {n : Nat} {s : Stmt} {c : Context} {bare : Prop} (hm : m.Tacit bare) :
    .visit (.stmt s) ∈ ((P.engine (n + 1)).stmt s c m).2.history := by
  let S := engine_of_same (D := plain P bare) rfl n
  have hc : c.Akin (plain P bare).Level c := .refl c
  have hcheck : (plain P bare).Holds Eq ((P.engine n).check s.id s.location c)
      (((plain P bare).program.engine n).check s.id s.location c) := S.check hc
  have hrest := hcheck.bindEq fun _ =>
    Holds.eq_of_same (S.logic.stmtKind hc (fun _ => S.parts.spends) (fun _ => S.faithful rfl)
      (Origin.place_of_stmt (s := s) trivial) (Origin.closed_all.stmt s trivial))
  -- The visit comes first, and what follows forgets nothing.
  have hran := hrest.left { m with history := .visit (.stmt s) :: m.history }
    ⟨hm.link, hm.breakpoints⟩
  exact hran.rel.history.subset List.mem_cons_self

/-- A statement that `handles` something brings evaluations apart that treat failures in different
ways. -/
theorem holds_handles (hne : D.exceptions ≠ P.settings.exceptions) {n : Nat} {s : Stmt}
    (c c' : Context) (hs : s.kind.handles = true) :
    D.Holds Eq ((P.engine (n + 1)).stmt s c) ((D.program.engine (n + 1)).stmt s c') where
  left := runs_stmt P D.Bare (n + 1) s c
  right m hm := by
    have hran := runs_stmt D.program D.Bare (n + 1) s c' m hm
    refine ⟨hran.fit, hran.rel, fun v _ => ⟨v, rfl⟩, fun halt hhalt => ⟨halt, ?_⟩⟩
    -- The second evaluation raises failures, so it has no fatal error.
    have hfatal := ((Engine.mild (exceptions_of_ne hne).2 (n + 1)).2 s c' m trivial).halt halt hhalt
    exact (relabel_of_not_fatal (Halt.raised_eq_self_iff.2 hfatal)).symm
  both h := .inr (D.handled hne hs (visit_mem_history h.tacit))

theorem engine (D : Pairing P) (n : Nat) : D.Sound (P.engine n) (D.program.engine n) := by
  induction n with
  | zero => exact ⟨rfl, rfl, rfl, fun _ => .throwSame rfl, fun _ => .throwSame rfl⟩
  | succ n ih => exact ih.succ fun hne _ c c' hs _ => holds_handles hne c c' hs

end Pairing

end Animator
