import Animator.Proofs.Coupling.Parts

/-!
# Couplings of evaluations

Two evaluations of the same code are compared. A `Coupling` says how their machines and contexts may
differ; every part that constructs consist of has to respect that. If failures and checks do so,
too, then all evaluations do: they end in the same way, on machines that are related again, unless
the first one is cut off.
-/

namespace Animator

theorem Halt.isUnwinding_of_eq {halt halt' : Halt} (h : halt' = halt) :
    halt'.isUnwinding = halt.isUnwinding := by
  rw [h]

/-- How two evaluations may differ. -/
structure Coupling where
  Rel : Machine → Machine → Prop
  Ctx : Context → Context → Prop
  Threads : Thread → Thread → Prop := Eq
  /-- The first one may be cut off earlier. -/
  Short : Prop
  -- Contexts.
  onThread {c c' : Context} : Ctx c c' → c'.thread = c.thread
  holds {c c' : Context} : Ctx c c' → c.holds = c'.holds
  resolves {c c' : Context} : Ctx c c' → ∀ g heap name, c.lookup g heap name = c'.lookup g heap name
  alike {c c' : Context} : Ctx c c' → c.Alike .all c'
  holdAll {c c' : Context} (values : List Value) : Ctx c c' →
    Ctx (c.holdAll values) (c'.holdAll values)
  bindAll {c c' : Context} (matched : List (Name × Value)) : Ctx c c' →
    Ctx (c.bindAll matched) (c'.bindAll matched)
  scope {c c' : Context} {m m' : Machine} (title : String) (location : Location)
    (root : Option Root) : Ctx c c' → Rel m m' →
    Ctx { c with inner := ⟨m.nextContext, title, location, [], root⟩, outer := c.scopes }
        { c' with inner := ⟨m'.nextContext, title, location, [], root⟩, outer := c'.scopes } ∧
      Rel { m with nextContext := m.nextContext + 1 } { m' with nextContext := m'.nextContext + 1 }
  -- Machines.
  isPure {t t' : Thread} : Threads t t' → t'.isPure = t.isPure
  thread {m m' : Machine} (id : ThreadId) : Rel m m' → Threads (m.thread id) (m'.thread id)
  part {α : Type} {x : Eval α} {m m' : Machine} : Part x → Rel m m' →
    (x m).1 = (x m').1 ∧ Rel (x m).2 (x m').2
  guard {m m' : Machine} {g : Guard} (id : ThreadId) : g ≠ .within .debugging → Rel m m' →
    Rel (g.enter id m) (g.enter id m') ∧ Rel (g.leave id m) (g.leave id m')
  unhit {m m' : Machine} (counter : Nat) : Rel m m' →
    Rel { m with hits := m.hits.unhit counter } { m' with hits := m'.hits.unhit counter }
  mapHeap {m m' : Machine} (f : Heap → Heap) : Rel m m' →
    Rel { m with heap := f m.heap } { m' with heap := f m'.heap }

namespace Coupling

variable (C : Coupling) {α β : Type}

theorem heap {m m' : Machine} (h : C.Rel m m') : m.heap = m'.heap :=
  Except.ok.inj (C.part (.reads (f := Machine.heap) fun _ => rfl) h).1

/-- The ends of two evaluations: the same outcome, on machines that are related, unless the first
one was cut off. -/
def Both (Q : α → α → Prop) (out out' : Except Halt α × Machine) : Prop :=
  C.Short ∧ out.1 = .error .exhausted ∨ Outcomes .all Q out.1 out'.1 ∧ C.Rel out.2 out'.2

/-- Two evaluations that end in the same way, on machines that are related again, unless the first
one is cut off. -/
def Holds (Q : α → α → Prop) (x y : Eval α) : Prop :=
  ∀ m m', C.Rel m m' → C.Both Q (x m) (y m')

namespace Holds

variable {C} {Q : α → α → Prop} {R : β → β → Prop} {x y : Eval α} {m m' : Machine}

theorem pure {a b : α} (hab : Q a b) : C.Holds Q (Pure.pure a) (Pure.pure b) :=
  fun _ _ h => .inr ⟨.value hab, h⟩

theorem throw {halt : Halt} : C.Holds Q (MonadExcept.throw halt) (MonadExcept.throw halt) :=
  fun _ _ h => .inr ⟨.halt halt.from_all, h⟩

theorem cutOff (hshort : C.Short) : C.Holds Q (MonadExcept.throw .exhausted) y :=
  fun _ _ _ => .inl ⟨hshort, rfl⟩

/-- Going on with `Both` after evaluations of which it is known where they began. -/
theorem bindAt {f g : α → Eval β} (hxy : C.Holds Q x y) (hm : C.Rel m m')
    (hf : ∀ a b m₁ m₁', Q a b → x m = (.ok a, m₁) → y m' = (.ok b, m₁') → C.Rel m₁ m₁' →
      C.Both R (f a m₁) (g b m₁')) : C.Both R ((x >>= f) m) ((y >>= g) m') := by
  have h := hxy m m' hm
  rcases hx : x m with ⟨r, m₁⟩
  rcases hy : y m' with ⟨r', m₁'⟩
  rw [hx, hy] at h
  rcases h with ⟨hshort, hcut⟩ | ⟨⟨hab⟩ | ⟨hhalt⟩, hrelated⟩
  · cases hcut
    rw [bind_of_error hx]
    exact .inl ⟨hshort, rfl⟩
  · rw [bind_of_ok hx, bind_of_ok hy]
    exact hf _ _ _ _ hab hx hy hrelated
  · rw [bind_of_error hx, bind_of_error hy]
    exact .inr ⟨.halt hhalt, hrelated⟩

theorem bind {f g : α → Eval β} (hx : C.Holds Q x y) (hf : ∀ a b, Q a b → C.Holds R (f a) (g b)) :
    C.Holds R (x >>= f) (y >>= g) :=
  fun _ _ hm => hx.bindAt hm fun a b m₁ m₁' hab _ _ hrelated => hf a b hab m₁ m₁' hrelated

theorem bindEq {f g : α → Eval β} (hx : C.Holds Eq x y) (hf : ∀ a, C.Holds R (f a) (g a)) :
    C.Holds R (x >>= f) (y >>= g) := by
  refine hx.bind ?_
  rintro a _ rfl
  exact hf a

theorem eq_of_same {p : α → Prop} (h : C.Holds (Same p) x y) : C.Holds Eq x y := by
  have hpure := h.bind fun a b hab => Holds.pure (C := C) (Q := Eq) hab.1
  rwa [bind_pure, bind_pure] at hpure

theorem of_ok (h : C.Holds Eq x y) {m₁ : Machine} (hm : C.Rel m m') {a : α}
    (hrun : x m = (.ok a, m₁)) : ∃ m₁', y m' = (.ok a, m₁') ∧ C.Rel m₁ m₁' := by
  have hboth := h m m' hm
  rw [hrun] at hboth
  rcases hboth with ⟨-, hcut⟩ | ⟨houtcomes, hrelated⟩
  · cases hcut
  · exact ⟨(y m').2, Prod.ext houtcomes.eq.symm rfl, hrelated⟩

theorem part (hx : Part x) : C.Holds Eq x x := by
  intro m m' h
  obtain ⟨hresult, hrelated⟩ := C.part hx h
  exact .inr ⟨hresult ▸ .refl_all _, hrelated⟩

theorem reads {f f' : Machine → α} (hf : ∀ m m', C.Rel m m' → Q (f m) (f' m')) :
    C.Holds Q (Eval.reads f) (Eval.reads f') :=
  fun m m' h => .inr ⟨.value (hf m m' h), h⟩

theorem change {f f' : Machine → Machine} (hf : ∀ m m', C.Rel m m' → C.Rel (f m) (f' m')) :
    C.Holds Eq (Eval.change f) (Eval.change f') :=
  fun m m' h => .inr ⟨.value rfl, hf m m' h⟩

theorem guard {g : Guard} (id : ThreadId) (hx : C.Holds Q x y)
    (hg : ∀ m m', C.Rel m m' →
      C.Rel (g.enter id m) (g.enter id m') ∧ C.Rel (g.leave id m) (g.leave id m')) :
    C.Holds Q (Eval.bracket (g.enter id) (g.leave id) x)
      (Eval.bracket (g.enter id) (g.leave id) y) := by
  intro m m' h
  refine (hx _ _ (hg m m' h).1).imp_right fun hboth => ?_
  exact ⟨hboth.1, (hg _ _ hboth.2).2⟩

theorem handle {f g : Except Halt α → Eval β} (hx : C.Holds Q x y)
    (hok : ∀ a b, Q a b → C.Holds R (f (.ok a)) (g (.ok b)))
    (herror : ∀ halt, halt.isUnwinding = false → halt.From .all →
      C.Holds R (f (.error halt)) (g (.error halt)))
    (hunwinding : ∀ halt, halt.isUnwinding = true →
      f (.error halt) = MonadExcept.throw halt ∧ g (.error halt) = MonadExcept.throw halt) :
    C.Holds R (x.outcome >>= f) (y.outcome >>= g) := by
  intro m m' h
  rcases hx m m' h with ⟨hshort, hcut⟩ | ⟨houtcomes, hrelated⟩
  · refine .inl ⟨hshort, ?_⟩
    rw [bind_of_error (outcome_of_exhausted (Prod.ext hcut rfl))]
  · rcases houtcomes.handle_cases hunwinding with
      ⟨a, b, hab, -, hrun, hrun'⟩ | ⟨halt, hfrom, -, ⟨hh, hrun, hrun'⟩ | ⟨-, hrun, hrun'⟩⟩
    · rw [hrun, hrun']
      exact hok a b hab _ _ hrelated
    · rw [hrun, hrun']
      exact herror halt hh hfrom _ _ hrelated
    · rw [hrun, hrun']
      exact .inr ⟨.halt hfrom, hrelated⟩

theorem outcome (hx : C.Holds Eq x y) : C.Holds Eq x.outcome y.outcome := by
  intro m m' h
  rcases hrun : x m with ⟨r, m₁⟩
  rcases hrun' : y m' with ⟨r', m₁'⟩
  have hboth := hx m m' h
  rw [hrun, hrun'] at hboth
  rcases hboth with ⟨hshort, hcut⟩ | ⟨houtcomes, hrelated⟩
  · cases hcut
    refine .inl ⟨hshort, ?_⟩
    rw [outcome_of_exhausted hrun]
  · obtain rfl : r = r' := houtcomes.eq
    rcases r with halt | a
    · by_cases hh : halt = .exhausted
      · subst hh
        rw [outcome_of_exhausted hrun, outcome_of_exhausted hrun']
        exact .inr ⟨.halt trivial, hrelated⟩
      · rw [outcome_of_error hrun hh, outcome_of_error hrun' hh]
        exact .inr ⟨.value rfl, hrelated⟩
    · rw [outcome_of_ok hrun, outcome_of_ok hrun']
      exact .inr ⟨.value rfl, hrelated⟩

end Holds

/-! ### What is left to show for an engine -/

/-- Two engines of a program whose expressions and statements keep machines related. -/
structure Sound (P : Program) (E E' : Engine) : Prop where
  program : E.program = P
  program' : E'.program = P
  rounds : E.rounds ≤ E'.rounds
  cutOff : E.rounds ≠ E'.rounds → C.Short
  expr {e : Expr} {c c' : Context} : C.Ctx c c' → C.Holds Eq (E.expr e c) (E'.expr e c')
  stmt {s : Stmt} {c c' : Context} : C.Ctx c c' → C.Holds Eq (E.stmt s c) (E'.stmt s c')

theorem Sound.settings {C : Coupling} {P : Program} {E E' : Engine} (S : C.Sound P E E') :
    E'.settings = E.settings := by
  rw [Engine.settings, Engine.settings, S.program, S.program']

/-- Checks and failures keep machines related. -/
structure Attends (P : Program) : Prop where
  fail {α : Type} {Q : α → α → Prop} {E E' : Engine} {code : Code} {message : String}
    {location : Location} {c c' : Context} : C.Sound P E E' → C.Ctx c c' →
    C.Holds Q (E.fail code message location c) (E'.fail code message location c')
  raise {α : Type} {Q : α → α → Prop} {E E' : Engine} {v : Value} {location : Location}
    {c c' : Context} : C.Sound P E E' → C.Ctx c c' →
    C.Holds Q (E.raise v location c) (E'.raise v location c')
  comeBack {E E' : Engine} {t t' : Thread} {location : Location} {c c' i i' : Context} :
    C.Sound P E E' → C.Ctx c c' → C.Ctx i i' → C.Threads t t' →
    C.Holds Eq (E.comeBack t.isStepping location c i) (E'.comeBack t'.isStepping location c' i')
  arrive {E E' : Engine} {node : Node} {c c' : Context} : C.Sound P E E' → C.Ctx c c' →
    C.Holds Eq (E.arrive node c) (E'.arrive node c')

variable {C} {P : Program} {E E' : Engine}

/-- Two `engines` that keep machines related do so part by part. -/
def parts (S : C.Sound P E E') (A : C.Attends P) : Parts E E' where
  Holds := C.Holds
  Ctx := C.Ctx
  Threads := C.Threads
  Halts halt halt' := halt' = halt
  Made _ := True
  engines := {
    rounds := S.rounds
    preChecks := by rw [S.settings]
    invChecks := by rw [S.settings] }
  expr := S.expr
  stmt := S.stmt
  logs := by rw [S.settings]
  delegates := by rw [S.program, S.program']
  alike := C.alike
  holdAll := C.holdAll
  bindAll hc _ := C.bindAll _ hc
  onThread := C.onThread
  resolves := C.resolves
  scope title location root hc _ _ h := by
    obtain ⟨hscope, hrelated⟩ := C.scope title location root hc h
    exact .inr ⟨.value hscope, hrelated⟩
  pure := .pure
  bind := .bind
  fail := A.fail S
  raise hc _ := A.raise S hc
  exhausted := .throw
  cutOff hne := .cutOff (S.cutOff hne)
  isUnwinding := @Halt.isUnwinding_of_eq
  holdOutcome := by
    rintro c c' _ halt hc rfl
    cases halt with
    | exit v => exact C.holdAll [v] hc
    | _ => exact hc
  rethrow hh _ _ := hh ▸ .throw
  handle hx hok herror := .handle hx hok fun halt => herror halt halt rfl
  within hs hc hx := by
    unfold Eval.within
    rw [C.onThread hc]
    exact .guard (g := .within _) _ hx fun _ _ => C.guard _ (by simpa using hs)
  timed id hx := .guard id hx fun _ _ => C.guard id (by decide)
  living {c c' self} hc := by
    cases self with
    | none => exact .pure rfl
    | some ref =>
      unfold Engine.living
      rw [S.program, S.program', C.holds hc]
      refine .bindEq (.part (.isAlive _ _ _)) fun alive => ?_
      exact .bindEq (.part (.called _ _)) fun _ => .pure rfl
  thread hc := .reads fun _ _ h => C.onThread hc ▸ C.thread _ h
  newObject {className} _ _ h :=
    .inr ⟨.value ⟨by rw [C.heap h], trivial⟩,
      C.mapHeap (fun heap => (heap.newObject className).2) h⟩
  setMember _ _ := .change fun _ _ => C.mapHeap (·.setMember _ _ _)
  unhit _ _ _ := .change fun _ _ => C.unhit _
  isPure := C.isPure
  part := .part
  comeBack := A.comeBack S
  arrive _ hc := A.arrive S hc

def logic (S : C.Sound P E E') (A : C.Attends P) : Logic .all E E' :=
  (parts S A).logic

/-- Every expression and every statement keeps machines related (`Sound`), also if the second
evaluation has a larger bound. -/
theorem engine (A : C.Attends P) (n d : Nat) (hd : d ≠ 0 → C.Short) :
    C.Sound P (P.engine n) (P.engine (n + d)) := by
  have hcut : ∀ n : Nat, n ≠ n + d → C.Short := fun n hne => hd fun hzero =>
      hne (by rw [hzero]; rfl)
  -- Induction on the smaller bound: an evaluation without any bound is cut off.
  induction n with
  | zero =>
    have hexhausted : ∀ y : Nat → Eval Value, y 0 = throw .exhausted →
        C.Holds Eq (throw .exhausted) (y (0 + d)) := by
      intro y hy
      cases d with
      | zero =>
        rw [hy]
        exact .throw
      | succ d => exact .cutOff (hd (Nat.succ_ne_zero d))
    exact ⟨rfl, rfl, Nat.le_add_right 0 d, hcut 0,
      fun {e c c'} _ => hexhausted (fun n => (P.engine n).expr e c') rfl,
      fun {s c c'} _ => hexhausted (fun n => (P.engine n).stmt s c') rfl⟩
  | succ n ih =>
    refine ⟨rfl, rfl, Nat.le_add_right _ d, hcut (n + 1), ?_, ?_⟩
    all_goals rw [Nat.add_right_comm n 1 d]
    · exact (parts ih A).evalExpr _
    · exact (parts ih A).evalStmt _ fun _ => id

theorem entries (S : C.Sound P E E') (A : C.Attends P) (hsame : ∀ {c c'}, C.Ctx c c' → c = c')
    (hcontext : ∀ s, C.Ctx { inner := s, thread := mainThread }
      { inner := s, thread := mainThread }) :
    (logic S A).Entries where
  context := by
    intro _ _ _ m m' h
    -- The scopes have the same number, since contexts that are related are the same.
    obtain ⟨hscope, hrelated⟩ := C.scope "" default none (hcontext default) h
    have hid : m.nextContext = m'.nextContext :=
      (congrArg (fun c : Context => c.inner.id) (hsame hscope) :)
    refine .inr ⟨.value ?_, hrelated⟩
    rw [hid]
    exact hcontext _
  routine := by
    rw [S.program, S.program']
    exact (parts S A).same (.part (.reads fun _ => rfl)) fun _ _ _ => (Value.from_all _).bound
  unresolved hc := hsame hc ▸ .throw

end Coupling

end Animator
