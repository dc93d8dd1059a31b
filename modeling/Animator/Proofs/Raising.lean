import Animator.Proofs.Coupling.Parts
import Animator.Proofs.Effect.Debug
import Animator.Proofs.Ending

/-!
# Failures that are raised

With exceptions on, a failure raises its number and its message as a value. Then nothing that is
evaluated ends with a fatal error, whatever the debugger does and whatever the model handles
(`Engine.mild`).
-/

namespace Animator

def Program.raising (P : Program) (on : Bool) : Program :=
  { P with settings := { P.settings with exceptions := on } }

namespace Halt

/-- What becomes of an early end if failures are `raised` as values. -/
def raised : Halt → Halt
  | .fatal code message location _ => .exit (.tuple [.int code.number, .ofText message]) location
  | halt => halt

def IsFatal : Halt → Prop
  | .fatal _ _ _ _ => True
  | _ => False

instance : DecidablePred IsFatal
  | .fatal _ _ _ _ => isTrue trivial
  | .exit _ _ | .cancelled _ | .stopped _ | .exhausted => isFalse not_false

theorem not_isFatal_of_isUnwinding {halt : Halt} (hh : halt.isUnwinding = true) :
    ¬halt.IsFatal := by
  cases halt with
  | fatal => cases hh
  | _ => exact not_false

theorem raised_eq_self_iff {halt : Halt} : halt.raised = halt ↔ ¬halt.IsFatal := by
  cases halt <;> simp [raised, IsFatal]

end Halt

/-- The evaluation ends with a value that has a property, or with an early end that is no fatal
error. -/
abbrev Mild {α : Type} (R : α → Prop) (x : Eval α) : Prop :=
  Ends (¬·.IsFatal) R x

namespace Mild

variable {α β : Type} {R : α → Prop} {R' : β → Prop} {x : Eval α}

/-! ### What is left to show for an engine -/

section Engine

variable {E : Engine} {c : Context} {location : Location}

theorem vigil : Vigil (fun _ x _ => EndsBy (¬·.IsFatal) x) E E c c :=
  Ends.vigil fun _ => Halt.not_isFatal_of_isUnwinding

theorem raise {v : Value} : Mild R (E.raise v location c) := by
  have hends : EndsBy (¬·.IsFatal) (E.raise (α := α) v location c) :=
    vigil.raise (Q := Eq) (.throw not_false)
  exact fun m hm =>
    { hends m hm with value := fun _ ha => (Engine.raise_ne_ok (Prod.ext ha rfl)).elim }

theorem arrive {node : Node} : Mild (fun _ => True) (E.arrive node c) :=
  Ends.arrive fun _ => Halt.not_isFatal_of_isUnwinding

variable (hon : E.settings.exceptions = true)

include hon

theorem fail {code : Code} {message : String} : Mild R (E.fail code message location c) := by
  unfold Engine.fail
  rw [if_pos hon]
  exact .raise

end Engine

theorem eq (h : Mild (fun _ => True) x) : Mild (fun a => ∃ b, a = b) x := by
  intro m hm
  exact { h m hm with value := fun a _ => ⟨a, rfl⟩ }

theorem part (hx : Part x) : Mild (fun a => ∃ b, a = b) x := by
  intro m _
  obtain ⟨a, m₁, hrun⟩ := hx.isOk m
  rw [hrun]
  exact ⟨trivial, trivial, fun a _ => ⟨a, rfl⟩, nofun⟩

/-- With `exceptions` on, no part ends with a fatal error. -/
def parts {E : Engine} (hon : E.settings.exceptions = true)
    (hexpr : ∀ e c, Mild (fun _ => True) (E.expr e c))
    (hstmt : ∀ s c, Mild (fun _ => True) (E.stmt s c)) : Parts E E where
  Holds Q x _ := Mild (fun a => ∃ b, Q a b) x
  Ctx c c' := c' = c
  Threads := Eq
  Halts halt halt' := halt' = halt ∧ ¬halt.IsFatal
  Made _ := True
  engines := .refl E
  expr _ := (hexpr _ _).eq
  stmt _ := (hstmt _ _).eq
  logs := rfl
  delegates := rfl
  alike hc := hc ▸ .refl _
  holdAll _ hc := by rw [hc]
  bindAll hc _ := by rw [hc]
  onThread hc := by rw [hc]
  resolves hc := by simp [hc]
  scope _ _ _ _ := .act fun _ => ⟨_, rfl⟩
  pure hab := .pure ⟨_, hab⟩
  bind hx hf := hx.bind fun a hab => hf a _ hab.choose_spec
  fail _ := .fail hon
  raise _ _ := .raise
  exhausted := .throw not_false
  cutOff hne := absurd rfl hne
  isUnwinding hh := by rw [hh.1]
  holdOutcome hc hh := by rw [hc, hh.1]
  rethrow hh _ _ := .throw hh.2
  handle hx hok herror hunwinding := .handle hx (fun a hab => hok a _ hab.choose_spec)
    (fun halt hfatal hh => herror halt halt ⟨rfl, hfatal⟩ hh halt.from_all)
    fun halt hh => (hunwinding halt hh).1
  living := by
    rintro c _ self rfl
    cases self with
    | none => exact .pure ⟨_, rfl⟩
    | some ref =>
      exact .next (.reads fun _ _ => trivial) fun _ => .next (.change trivial) fun _ =>
        .pure ⟨_, rfl⟩
  thread _ := .reads fun _ _ => ⟨_, rfl⟩
  isPure := @Thread.isPure_of_eq
  newObject := .act fun _ => ⟨_, rfl, trivial⟩
  setMember _ _ := .change ⟨_, rfl⟩
  unhit _ _ _ := .change ⟨_, rfl⟩
  part := part
  timed _ hx := hx.bracket (Ends.keeps _) (Ends.keeps _)
  within _ _ hx := hx.bracket (Ends.keeps _) (Ends.keeps _)
  comeBack hc _ _ := by
    subst hc
    exact Mild.eq (Mild.vigil.comeBack _ false _ default)
  arrive _ _ := Mild.arrive.eq

end Mild

theorem Engine.mild {P : Program} (hon : P.settings.exceptions = true) (n : Nat) :
    (∀ e c, Mild (fun _ => True) ((P.engine n).expr e c)) ∧
      ∀ s c, Mild (fun _ => True) ((P.engine n).stmt s c) := by
  induction n with
  | zero => exact ⟨fun _ _ => .throw not_false, fun _ _ => .throw not_false⟩
  | succ n ih =>
    let B := Mild.parts (E := P.engine n) hon ih.1 ih.2
    have hany : ∀ {x : Eval Value} {R : Value → Prop}, Mild R x → Mild (fun _ => True) x :=
      fun hx m hm => { hx m hm with value := fun _ _ => trivial }
    exact ⟨fun e c => hany (B.evalExpr e (rfl : c = c)),
      fun s c => hany (B.evalStmt s (fun _ => And.left) (rfl : c = c))⟩

end Animator
