import Animator.Proofs.Effect.Basic

/-!
# Single evaluations

A `Regime` names the machines on which evaluations are looked at, and how the machine after an
evaluation is related to the machine before it. `Regime.Runs` says this of an evaluation, together
with how it can end.
-/

namespace Animator

structure Regime where
  /-- What machines are before and after every evaluation. -/
  Fit : Machine → Prop
  /-- How the machine before is related to the machine after. -/
  Rel : Machine → Machine → Prop
  refl {m : Machine} : Rel m m
  trans {m m₁ m₂ : Machine} : Rel m m₁ → Rel m₁ m₂ → Rel m m₂

namespace Regime

variable (G : Regime) {α β : Type}

/-- What is known of an evaluation that began with a machine. -/
structure Ran (ok : α → Prop) (ended : Halt → Prop) (m : Machine)
    (out : Except Halt α × Machine) : Prop where
  fit : G.Fit out.2
  rel : G.Rel m out.2
  value : ∀ a, out.1 = .ok a → ok a
  halt : ∀ halt, out.1 = .error halt → ended halt

/-- What is known of an evaluation, whatever it begins with. -/
def Runs (ok : α → Prop) (ended : Halt → Prop) (x : Eval α) : Prop :=
  ∀ m, G.Fit m → G.Ran ok ended m (x m)

/-- A change that leads from a machine to a related one. -/
def Keeps (g : Machine → Machine) : Prop :=
  ∀ m, G.Fit m → G.Fit (g m) ∧ G.Rel m (g m)

variable {G} {ok : α → Prop} {ok' : β → Prop} {ended : Halt → Prop} {x : Eval α} {m : Machine}
  {g : Machine → Machine}

theorem Ran.early {halt : Halt} (hm : G.Fit m) (hh : ended halt) :
    G.Ran ok ended m (.error halt, m) :=
  ⟨hm, G.refl, nofun, fun _ h => Except.error.inj h ▸ hh⟩

theorem keeps_self : G.Keeps fun m => m :=
  fun _ hm => ⟨hm, G.refl⟩

namespace Runs

theorem act {f : Machine → α} (hg : G.Keeps g) (hok : ∀ m, G.Fit m → ok (f m)) :
    G.Runs ok ended fun m => (.ok (f m), g m) :=
  fun m hm => ⟨(hg m hm).1, (hg m hm).2, fun _ ha => Except.ok.inj ha ▸ hok m hm, nofun⟩

theorem pure {a : α} (ha : ok a) : G.Runs ok ended (Pure.pure a) :=
  .act (g := fun m => m) keeps_self fun _ _ => ha

theorem reads {f : Machine → α} (hok : ∀ m, G.Fit m → ok (f m)) :
    G.Runs ok ended (Eval.reads f) :=
  .act (g := fun m => m) keeps_self hok

theorem change {ok : Unit → Prop} (hg : G.Keeps g) (hok : ok ()) :
    G.Runs ok ended (Eval.change g) :=
  .act hg fun _ _ => hok

theorem throw {halt : Halt} (hh : ended halt) : G.Runs ok ended (MonadExcept.throw halt) :=
  fun _ hm => .early hm hh

/-- What comes after an evaluation. -/
theorem after {f : α → Eval β} (hx : G.Runs ok ended x) (hf : ∀ a, ok a → G.Runs ok' ended (f a))
    (hm : G.Fit m) : G.Ran ok' ended (x m).2 ((x >>= f) m) := by
  have hran := hx m hm
  rcases hrun : x m with ⟨r, m₁⟩
  rw [hrun] at hran
  cases r with
  | ok a =>
    rw [bind_of_ok hrun]
    exact hf a (hran.value a rfl) m₁ hran.fit
  | error halt =>
    rw [bind_of_error hrun]
    exact .early hran.fit (hran.halt halt rfl)

theorem bind {f : α → Eval β} (hx : G.Runs ok ended x) (hf : ∀ a, ok a → G.Runs ok' ended (f a)) :
    G.Runs ok' ended (x >>= f) := by
  intro m hm
  have hnext := hx.after hf hm
  exact { hnext with rel := G.trans (hx m hm).rel hnext.rel }

theorem afterOutcome {f : Except Halt α → Eval β} (hx : G.Runs ok ended x)
    (hok : ∀ a, ok a → G.Runs ok' ended (f (.ok a)))
    (herror : ∀ halt, ended halt → halt.isUnwinding = false → G.Runs ok' ended (f (.error halt)))
    (hunwinding : ∀ halt, halt.isUnwinding = true → f (.error halt) = MonadExcept.throw halt)
    (hm : G.Fit m) : G.Ran ok' ended (x m).2 ((x.outcome >>= f) m) := by
  have hran := hx m hm
  rcases hrun : x m with ⟨r, m₁⟩
  rw [hrun] at hran
  cases r with
  | ok a =>
    rw [bind_of_ok (outcome_of_ok hrun)]
    exact hok a (hran.value a rfl) m₁ hran.fit
  | error halt =>
    have hended := hran.halt halt rfl
    cases hh : halt.isUnwinding with
    | false =>
      have hne : halt ≠ .exhausted := by
        rintro rfl
        cases hh
      rw [bind_of_ok (outcome_of_error hrun hne)]
      exact herror halt hended hh m₁ hran.fit
    | true =>
      rw [bind_outcome_of_error hrun (hunwinding halt hh)]
      exact .early hran.fit hended

theorem handle {f : Except Halt α → Eval β} (hx : G.Runs ok ended x)
    (hok : ∀ a, ok a → G.Runs ok' ended (f (.ok a)))
    (herror : ∀ halt, ended halt → halt.isUnwinding = false → G.Runs ok' ended (f (.error halt)))
    (hunwinding : ∀ halt, halt.isUnwinding = true → f (.error halt) = MonadExcept.throw halt) :
    G.Runs ok' ended (x.outcome >>= f) := by
  intro m hm
  have hnext := hx.afterOutcome hok herror hunwinding hm
  exact { hnext with rel := G.trans (hx m hm).rel hnext.rel }

theorem outcome {settled : Except Halt α → Prop} {before : Halt → Prop} (hx : G.Runs ok before x)
    (hcut : before .exhausted → ended .exhausted) (hsettled : ∀ r, settled r) :
    G.Runs settled ended x.outcome := by
  intro m hm
  have hran := hx m hm
  rcases hrun : x m with ⟨r, m₁⟩
  rw [hrun] at hran
  cases r with
  | ok a =>
    rw [outcome_of_ok hrun]
    exact ⟨hran.fit, hran.rel, fun _ _ => hsettled _, nofun⟩
  | error halt =>
    by_cases hh : halt = .exhausted
    -- Only an evaluation that is cut off stays so.
    · subst hh
      rw [outcome_of_exhausted hrun]
      exact ⟨hran.fit, hran.rel, nofun, fun _ h => Except.error.inj h ▸ hcut (hran.halt _ rfl)⟩
    · rw [outcome_of_error hrun hh]
      exact ⟨hran.fit, hran.rel, fun _ _ => hsettled _, nofun⟩

theorem bracket {before after : Machine → Machine} (hbefore : G.Keeps before)
    (hafter : G.Keeps after) (hx : G.Runs ok ended x) :
    G.Runs ok ended (Eval.bracket before after x) := by
  intro m hm
  obtain ⟨hfit, hrel⟩ := hbefore m hm
  have hran := hx _ hfit
  obtain ⟨hfit', hrel'⟩ := hafter _ hran.fit
  exact ⟨hfit', G.trans (G.trans hrel hran.rel) hrel', hran.value, hran.halt⟩

/-- An evaluation that cannot end early has a value. -/
theorem exists_ok (hx : G.Runs ok (fun _ => False) x) (hm : G.Fit m) :
    ∃ a m', x m = (.ok a, m') ∧ ok a ∧ G.Fit m' ∧ G.Rel m m' := by
  have hran := hx m hm
  rcases hrun : x m with ⟨halt | a, m'⟩
  · rw [hrun] at hran
    exact (hran.halt halt rfl).elim
  · rw [hrun] at hran
    exact ⟨a, m', rfl, hran.value a rfl, hran.fit, hran.rel⟩

end Runs

end Regime

end Animator
