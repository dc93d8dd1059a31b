import Animator.Proofs.Cleanup
import Animator.Proofs.Effect.Visits
import Animator.Proofs.Lockstep.Basic

/-!
# Exceptions

With exceptions off a failure is a fatal error, which no handler of the model takes. With exceptions
on it is an exit that carries the number and the message of the failure. If a model has no handlers,
then the two differ in nothing else: whatever is evaluated, the same value comes out, or the same
exit, or the exit of the same failure; and the same machine is left (`exceptions_relabel`).
-/

namespace Animator

/-! ### Code without handlers -/

/-- Statements without handlers, and all expressions. -/
def Origin.unhandled : Origin where
  expr _ := True
  stmt s := ∀ p, s.Contains p → p.kind.handles = false
  cells := True

theorem Origin.closed_unhandled : Origin.unhandled.Closed where
  expr _ _ _ _ := trivial
  stmt _ hs := ⟨fun _ _ => trivial, fun _ hq p hp => hs p (Cleanup.contains_trans hq hp),
    fun _ _ => trivial⟩

theorem Origin.unhandled_stmt_iff {s : Stmt} :
    Origin.unhandled.stmt s ↔
      s.kind.handles = false ∧ ∀ q ∈ s.kind.stmts, Origin.unhandled.stmt q := by
  refine ⟨fun hs => ⟨hs s .self, (closed_unhandled.stmt s hs).stmts⟩, ?_⟩
  rintro ⟨hself, hparts⟩ p hp
  -- The statement itself, or inside one of its parts.
  have hinside : p = s ∨ ∃ q ∈ s.kind.stmts, q.Contains p := by
    induction hp with
    | self => exact .inl rfl
    | part _ hq ih =>
      rcases ih with rfl | ⟨r, hr, hcontains⟩
      · exact .inr ⟨_, hq, .self⟩
      · exact .inr ⟨r, hr, .part hcontains hq⟩
  rcases hinside with rfl | ⟨q, hq, hcontains⟩
  · exact hself
  · exact hparts q hq p hcontains

variable {P : Program} {m : Machine}

/-! ### Evaluations from outside -/

namespace Entry

def title : Entry → String
  | .evaluate _ => "evaluate"
  | .execute _ => "execute"
  | _ => "entry"

def resolve (model : Model) (m : Machine) : Entry → Option Piece
  | .call owner name args =>
    (Engine.routine model m.globals owner name args.length).map (.call · args entryLocation)
  | .callMethod ref name args =>
    ((m.heap.members ref).find? fun member =>
      member.1.text == name && Engine.takesArguments args.length member.2).map
        (.call ·.2 args entryLocation)
  | .newInstance className args => some (.construction className args entryLocation)
  | .evaluate e => some (.node (.expr e))
  | .execute s => some (.node (.stmt s))

/-- An entry is a `Piece` of an evaluation, in a frame of its own. -/
theorem run_of_resolve {entry : Entry} {E : Engine} {piece : Piece}
    (h : entry.resolve E.program.model m = some piece) :
    entry.run E m =
      (Eval.entry .global entry.title entryLocation mainThread >>= piece.run E) m := by
  cases entry with
  | call owner name args =>
    obtain ⟨callee, hcallee, rfl⟩ := Option.map_eq_some_iff.1 h
    refine (bind_of_ok rfl).trans ((bind_of_ok rfl).trans ?_)
    dsimp only
    rw [hcallee]
    rfl
  | callMethod ref name args =>
    obtain ⟨member, hmember, rfl⟩ := Option.map_eq_some_iff.1 h
    refine (bind_of_ok rfl).trans ((bind_of_ok rfl).trans ?_)
    dsimp only
    rw [hmember]
    rfl
  | newInstance | evaluate | execute =>
    cases h
    rfl

/-- Without a routine (`unresolvedCall`) there is nothing to evaluate, whatever the settings are. -/
theorem run_of_not_resolve {entry : Entry} {E : Engine}
    (h : entry.resolve E.program.model m = none) :
    ∃ message, ∀ E' : Engine, E'.program.model = E.program.model →
      entry.run E' m = (.error (.fatal .unresolvedCall message entryLocation entry.title),
        { m with nextContext := m.nextContext + 1 }) := by
  cases entry with
  | call owner name args =>
    refine ⟨owner ++ "`" ++ name ++ " not found", fun E' hE' => ?_⟩
    refine (bind_of_ok rfl).trans ((bind_of_ok rfl).trans ?_)
    dsimp only
    rw [hE', Option.map_eq_none_iff.1 h]
    rfl
  | callMethod ref name args =>
    refine ⟨ref.text ++ " has no operation " ++ name, fun E' _ => ?_⟩
    refine (bind_of_ok rfl).trans ((bind_of_ok rfl).trans ?_)
    dsimp only
    rw [Option.map_eq_none_iff.1 h]
    rfl
  | newInstance | evaluate | execute => cases h

end Entry

namespace Pairing

variable {D : Pairing P} {E E' : Engine}

/-- Pieces of evaluations go in lockstep, each in a frame of its own. -/
theorem Sound.piece (S : D.Sound E E') (title : String) (piece : Piece) :
    D.Holds Eq (Eval.entry .global title entryLocation mainThread >>= piece.run E)
      (Eval.entry .global title entryLocation mainThread >>= piece.run E') := by
  have hcontext : D.Holds (Context.Akin D.Level) (Eval.entry .global title entryLocation mainThread)
      (Eval.entry .global title entryLocation mainThread) :=
    .act {} (fun _ _ => rfl) fun _ => .refl _
  exact hcontext.bind fun root root' hroot => .eq_of_same (S.logic.piece piece hroot)

/-- Two evaluations of which the second one raises failures. They may come `Apart` at a handler. -/
def modes (P : Program) : Pairing (P.raising false) where
  exceptions := true
  Level := True
  Bare := True
  Apart m _ := ∃ s : Stmt, s.kind.handles = true ∧ .visit (.stmt s) ∈ m.history
  mode _ := rfl
  bare _ := trivial
  grows := by
    rintro m m' m₁ m₁' ⟨s, hs, hvisit⟩ hm -
    exact ⟨s, hs, hm.history.subset hvisit⟩
  living hlevel := absurd trivial hlevel
  handled _ hs hvisit := ⟨_, hs, hvisit⟩

/-- A fatal error of the first shows as an exit (`raised`) in the second. -/
theorem mapError_of_modes {r r' : Outcome} (h : (modes P).Outcomes Eq r r') :
    r' = r.mapError Halt.raised := by
  cases h with
  | value hab =>
    rw [hab]
    rfl
  | halt halt => rfl

/-- Code without handlers does not come apart. Handlers that were visited earlier do not count, so
both evaluations are compared with one that begins with an empty `history`. -/
theorem Holds.mapError {x y : Eval Value} (hplain : (plain (P.raising false) True).Holds Eq x x)
    (hmodes : (modes P).Holds Eq x y) (hlink : m.link = none)
    (hbreakpoints : m.breakpoints.entries = [])
    (hvisits : (x { m with history := [] }).2.Visits .unhandled) :
    (y m).1 = (x m).1.mapError Halt.raised ∧ (x m).2.Agrees (y m).2 := by
  let fresh : Machine := { m with history := [] }
  have htacit : fresh.Tacit True := ⟨hlink, fun _ => hbreakpoints⟩
  have hfresh : (plain (P.raising false) True).Linked fresh m := ⟨htacit, rfl⟩
  obtain ⟨hsame, hx⟩ := (hplain.both hfresh).resolve_right not_false
  have hfresh' : (modes P).Linked fresh m := ⟨htacit, rfl⟩
  have hunhandled : ¬(modes P).Apart (x fresh).2 (y m).2 := by
    rintro ⟨s, hs, hvisit⟩
    exact absurd ((hvisits (.stmt s) hvisit s .self).symm.trans hs) Bool.false_ne_true
  obtain ⟨hraised, hy⟩ := (hmodes.both hfresh').resolve_right hunhandled
  refine ⟨?_, ?_⟩
  · rw [mapError_of_modes hraised, hsame.eq_of_same rfl]
  · obtain ⟨events, hevents⟩ := Machine.agrees_iff.1 hx.eq
    rw [hevents]
    exact hy.eq

end Pairing

/-! ### Exceptions on and off -/

/-- An `Entry` with exceptions off and on: the error is an exit. -/
theorem Entry.run_raising {entry : Entry} {n : Nat} {piece : Piece}
    (hP : P.delegates.From .unhandled)
    (hentry : entry.From .unhandled) (hm : m.From .unhandled) (hlink : m.link = none)
    (hbreakpoints : m.breakpoints.entries = []) (hresolve : entry.resolve P.model m = some piece) :
    let off := entry.run ((P.raising false).engine n) m
    let on := entry.run ((P.raising true).engine n) m
    on.1 = off.1.mapError Halt.raised ∧ off.2.Agrees on.2 := by
  intro off on
  let framed (exceptions : Bool) : Eval Value :=
    Eval.entry .global entry.title entryLocation mainThread >>=
      piece.run ((P.raising exceptions).engine n)
  let fresh : Machine := { m with history := [] }
  have hrun : ∀ (exceptions : Bool) (m : Machine), entry.resolve P.model m = some piece →
      entry.run ((P.raising exceptions).engine n) m = framed exceptions m := fun exceptions _ =>
    run_of_resolve (E := (P.raising exceptions).engine n)
  -- The history has no part in finding the routine.
  have hfresh : entry.resolve P.model fresh = some piece := by
    rw [← hresolve]
    cases entry <;> rfl
  have hleaves := (visitDrift (P.raising false) .unhandled hP).leaves Origin.closed_unhandled n
  have hvisits : (framed false fresh).2.Visits .unhandled := by
    rw [← hrun false fresh hfresh]
    exact (Logic.entry (Effect.entries hleaves trivial) hentry fresh { hm with } nofun).inv
  have hboth := Pairing.Holds.mapError
    (((Pairing.plain (P.raising false) True).engine n).piece entry.title piece)
    (((Pairing.modes P).engine n).piece entry.title piece) hlink hbreakpoints hvisits
  have hoff : off = framed false m := hrun false m hresolve
  have hon : on = framed true m := hrun true m hresolve
  rw [hoff, hon]
  exact hboth

/-- The machines of a session hold code without handlers (`unhandled`), if the model is such code.
-/
theorem Machine.Reachable.unhandled (hmodel : P.model.From .unhandled)
    (hP : P.delegates.From .unhandled) (hm : m.Reachable P .unhandled) : m.From .unhandled := by
  exact (hm.origin hmodel ((keepDrift P .unhandled hP).sound Origin.closed_unhandled)).1

/-- Whether `exceptions` are on makes one difference only, if there are no handlers in the model and
no `breakpoints`, and if no debugger is attached. Whatever is evaluated, a value stays the same
value and an exit the same exit; a fatal error becomes an exit at the same place, which carries its
number and its message; and the same machine is left, but for the history. If there is nothing that
could be evaluated, then that is a fatal error in any case. The machines of a session have no
handlers if the model has none. With exceptions on, nothing that is evaluated ends with a fatal
error, whether there are handlers or not. -/
theorem exceptions_relabel (P : Program) (bound : Nat) :
    (∀ (entry : Entry) (m : Machine), P.delegates.From .unhandled → entry.From .unhandled →
      m.From .unhandled → m.link = none → m.breakpoints.entries = [] →
      let off := entry.run ((P.raising false).engine bound) m
      let on := entry.run ((P.raising true).engine bound) m
      ((entry.resolve P.model m).isSome → on.1 = off.1.mapError Halt.raised) ∧
      (entry.resolve P.model m = none → on.1 = off.1 ∧
        ∃ message, off.1 = .error (.fatal .unresolvedCall message entryLocation entry.title)) ∧
      off.2.Agrees on.2) ∧
    (∀ (exceptions : Bool) (m : Machine), P.model.From .unhandled → P.delegates.From .unhandled →
      m.Reachable (P.raising exceptions) .unhandled → m.From .unhandled) ∧
    ∀ (node : Node) (c : Context) (m : Machine) (halt : Halt),
      (node.eval ((P.raising true).engine bound) c m).1 = .error halt → ¬halt.IsFatal := by
  refine ⟨fun entry m hP hentry hm hlink hbreakpoints => ?_, fun exceptions m hmodel hP hm => ?_,
    fun node c m halt hhalt => ?_⟩
  · intro off on
    cases hresolve : entry.resolve P.model m with
    | none =>
      obtain ⟨message, hrun⟩ :=
        Entry.run_of_not_resolve (E := (P.raising false).engine bound) hresolve
      have hoff : off = _ := hrun ((P.raising false).engine bound) rfl
      have hon : on = _ := hrun ((P.raising true).engine bound) rfl
      refine ⟨nofun, fun _ => ⟨?_, message, ?_⟩, ?_⟩
      · rw [hoff, hon]
      · rw [hoff]
      · rw [hoff, hon]
        rfl
    | some piece =>
      obtain ⟨hraised, hmachine⟩ := Entry.run_raising (n := bound) hP hentry hm hlink hbreakpoints
        hresolve
      exact ⟨fun _ => hraised, nofun, hmachine⟩
  · exact Machine.Reachable.unhandled (P := P.raising exceptions) hmodel hP hm
  · have hmild := Engine.mild (P := P.raising true) rfl bound
    cases node with
    | stmt s => exact (hmild.2 s c m trivial).halt halt hhalt
    | expr e => exact (hmild.1 e c m trivial).halt halt hhalt

def tillName (text : String) : Name :=
  { module := "Till", text }

/-- Look up a name that is not there, and count a customer afterwards. -/
def tillServe : OperationDef :=
  { OperationDef.plain "Till" "serve"
      (.onLine 2 (.always
        (.onLine 3 (.assign ⟨.name (tillName "served"), .onLine 3 (.literal (.int 1)), .onLine 3⟩))
        (.onLine 4 (.return (some (.onLine 4 (.name (tillName "customer")))))))) with
    result := .unknown }

def tillProgram : Program :=
  { model := { modules := [{
      name := "Till", location := .onLine 1, values := [], functions := [], operations :=
        [tillServe]
      state := some { name := "S", location := .onLine 1, fields := [{
        name := tillName "served", ty := .nat
        init := some (.onLine 1 (.literal (.int 0))) }] } }] } }

def tillMachine : Machine :=
  ((tillProgram.engine 20).initialise (Machine.initial tillProgram {})).2

theorem tillProgram_unhandled : tillProgram.model.From .unhandled where
  classes := nofun
  operations d hd op hop := by
    obtain rfl := List.mem_singleton.1 hd
    obtain rfl := List.mem_singleton.1 hop
    refine ⟨Origin.unhandled_stmt_iff.2 ⟨rfl, fun q hq => ?_⟩, nofun⟩
    -- The cleanup and the body have no parts of their own.
    rcases List.mem_cons.1 hq with rfl | hq
    · exact Origin.unhandled_stmt_iff.2 ⟨rfl, nofun⟩
    · obtain rfl := List.mem_singleton.1 hq
      exact Origin.unhandled_stmt_iff.2 ⟨rfl, nofun⟩
  functions d hd f hf := by
    obtain rfl := List.mem_singleton.1 hd
    cases hf
  values _ _ _ _ := trivial
  inits _ _ _ _ _ _ _ _ := trivial

theorem tillMachine_unhandled : tillMachine.From .unhandled :=
  Machine.Reachable.unhandled tillProgram_unhandled nofun (.create {} [] 20 (Heap.from_empty _))

def tillCall : Entry :=
  .call "Till" "serve" []

def tillRun (exceptions : Bool) : Outcome × Machine :=
  tillCall.run ((tillProgram.raising exceptions).engine 20) tillMachine

/-- In the `tillMachine` the first customer is not there, and is counted nevertheless. With
exceptions on, the failure is an exit. -/
theorem exceptions_relabel_till :
    tillCall.From .unhandled ∧ tillMachine.From .unhandled ∧ tillMachine.link = none ∧
      tillMachine.breakpoints.entries.isEmpty = true ∧
      (tillCall.resolve tillProgram.model tillMachine).isSome = true ∧
      (Halt.of? (tillRun false).1).any (decide ·.IsFatal) = true ∧
      (tillRun true).1 = (tillRun false).1.mapError Halt.raised ∧
      (tillRun false).2.Agrees (tillRun true).2 ∧
      (tillRun true).2.heap.text ((tillRun true).2.heap.content 0) = "1" := by
  have hcall : tillCall.From .unhandled := nofun
  have hlink : tillMachine.link = none := by decide +kernel
  have hbreakpoints : tillMachine.breakpoints.entries.isEmpty = true := by decide +kernel
  have hresolve : (tillCall.resolve tillProgram.model tillMachine).isSome = true := by
    decide +kernel
  obtain ⟨hraised, -, hmachine⟩ := (exceptions_relabel tillProgram 20).1 tillCall tillMachine nofun
    hcall tillMachine_unhandled hlink (List.isEmpty_iff.1 hbreakpoints)
  exact ⟨hcall, tillMachine_unhandled, hlink, hbreakpoints, hresolve, by decide +kernel,
    hraised hresolve, hmachine, by decide +kernel⟩

end Animator
