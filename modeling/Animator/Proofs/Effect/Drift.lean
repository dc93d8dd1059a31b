import Animator.Proofs.Effect.Debug

/-!
# Drifts

Most effects do not depend on how evaluations end, nor on what the debugger evaluates. A `Drift` is
an effect of this kind: an invariant that everything keeps which happens to a machine
(`Machine.Happens`), or a relation that everything respects.
-/

namespace Animator

/-- Everything that happens to a machine while something is evaluated, apart from guards. -/
inductive Machine.Happens (P : Program) (o : Origin) (T : ThreadId → Prop) (Made : ObjectRef → Prop)
    (m : Machine) : Machine → Prop where
  | step {m' : Machine} (hs : m.Step P o T Made m') : Happens P o T Made m m'
  | visit (node : Node) (hn : o.node node) : Happens P o T Made m (m.counted node)
  | obey {m' : Machine} (hs : m.ObeyStep T m') : Happens P o T Made m m'
  | charge (id : ThreadId) (duration : Nat) (ht : T id) :
    Happens P o T Made m { m with scheduler := m.scheduler.charge id duration }
  | report (link : Link) (stop : Stop) : Happens P o T Made m (m.reported link stop)
  | stepTo (id : ThreadId) (step : StepTarget) (ht : T id) :
    Happens P o T Made m (m.modifyThread id (·.stepTo step))
  | unwound (halt : Halt) : Happens P o T Made m (m.unwound halt)

/-- An invariant and a relation of machines that everything respects which happens to them. -/
structure Drift (P : Program) (o : Origin) (T : ThreadId → Prop := fun _ => True) where
  Inv : Machine → Prop := fun _ => True
  Rel : Machine → Machine → Prop := fun _ _ => True
  Made : ObjectRef → Prop := fun _ => True
  delegates : P.delegates.From o
  refl {m : Machine} : Rel m m := by exact trivial
  trans {m m₁ m₂ : Machine} : Rel m m₁ → Rel m₁ m₂ → Rel m m₂ := by exact fun _ _ => trivial
  keeps {m m' : Machine} : Inv m → m.Happens P o T Made m' → Inv m' := by exact fun _ _ => trivial
  moves {m m' : Machine} : Inv m → m.Happens P o T Made m' → Rel m m' := by exact fun _ _ => trivial
  makes {m : Machine} (className : String) : Inv m → Made (m.heap.newObject className).1 := by
    exact fun _ _ => trivial
  enter {m : Machine} {id : ThreadId} (g : Guard) : Inv m → Inv (g.enter id m) := by
    exact fun _ _ => trivial
  leave {m : Machine} {id : ThreadId} (g : Guard) : Inv m → Inv (g.leave id m) := by
    exact fun _ _ => trivial
  guard {m m' : Machine} {id : ThreadId} (g : Guard) : T id → g.Opens id m →
    Rel (g.enter id m) m' → Rel m (g.leave id m') := by exact fun _ _ _ _ => trivial

namespace Drift

variable {P : Program} {o : Origin} {T : ThreadId → Prop} (D : Drift P o T) {E : Engine}

def effect : Effect P o T where
  Inv := D.Inv
  Rel m _ m' := D.Rel m m'
  Made := D.Made
  delegates := D.delegates
  refl _ := D.refl
  ends _ _ := D.refl
  trans _ := D.trans
  recover h _ := h
  step hi hs := ⟨D.keeps hi (.step hs), D.moves hi (.step hs)⟩
  makes className := D.makes className
  enter g _ _ _ := D.enter g
  leave g _ _ ht hopens _ h hi := ⟨D.leave g hi, D.guard g ht hopens h⟩

instance : D.effect.Charges where
  charge duration ht hi _ :=
    ⟨D.keeps hi (.charge _ duration ht), D.moves hi (.charge _ duration ht)⟩

def inspects : D.effect.Inspects where
  Watch _ := True
  swallow _ ht _ h _ _ := D.guard (.within .debugging) ht (Guard.opens_within _ _ _) h

theorem reports : D.effect.Reports D.inspects where
  watched _ _ _ _ := trivial
  report stop hi _ := ⟨D.keeps hi (.report _ stop), D.moves hi (.report _ stop)⟩
  stepTo step ht hi := ⟨D.keeps hi (.stepTo _ step ht), D.moves hi (.stepTo _ step ht)⟩
  terminate _ hi := ⟨D.keeps hi (.unwound _), D.moves hi (.unwound _)⟩

theorem checks : D.effect.Checks D.inspects where
  watched _ _ _ _ _ := trivial
  counted hn hi := ⟨D.keeps hi (.visit _ hn), D.moves hi (.visit _ hn)⟩
  step hi hs := ⟨D.keeps hi (.obey hs), D.moves hi (.obey hs)⟩
  unwind _ hi _ _ := ⟨D.keeps hi (.unwound _), D.moves hi (.unwound _)⟩

variable {D}

theorem reacts (S : D.effect.Sound E) : D.effect.Reacts E :=
  D.checks.reacts S (D.reports.stops S)

theorem leaves_of_sound (S : D.effect.Sound E) : D.effect.Leaves E :=
  D.checks.leaves_of_reacts (reacts S) S

variable (D)

theorem sound (hclosed : o.Closed) (bound : Nat) : D.effect.Sound (P.engine bound) :=
  D.effect.run hclosed (fun _ => leaves_of_sound) bound

theorem leaves (hclosed : o.Closed) (bound : Nat) : D.effect.Leaves (P.engine bound) :=
  leaves_of_sound (D.sound hclosed bound)

theorem rel {D : Drift P .all T} {α : Type} {Q : α → α → Prop} {x : Eval α}
    (hx : D.effect.Holds Q x x) (m : Machine) (hi : D.Inv m) : D.Rel m (x m).2 :=
  (hx m m.from_all hi).rel

end Drift

end Animator
