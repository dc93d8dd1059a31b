import Animator.Proofs.Effect.Basic

/-!
# Handlers of exits

A statement with several handlers gives an exit of its body to the first handler whose pattern
matches the value. If a handler ends in an exit then all handlers are tried again, so no pattern
matches the value of an exit that is left over (`Engine.match?_of_tixe`).

A trap has one handler, and does nothing about an exit that the handler ends in. What traps make of
an outcome one after another is `Engine.settle`. Only the first trap that matches does anything, and
the traps after it see what its handler ends with (`Engine.settle_of_first`). So if no handler ends
in an exit then a statement with several handlers does the same as its handlers one after another
(`Engine.tixe_eq_settle`).
-/

namespace Animator

variable {matched : Matched} {before after : List Trap}

/-! ### Traps -/

def Outcome.isExit : Outcome → Bool
  | .error (.exit _ _) => true
  | _ => false

/-- A `pattern` with its `handler`, and the number of the node if it is a trap of its own. -/
structure Trap where
  node : NodeId
  pattern : Pattern
  handler : Stmt

def Trap.alternative (t : Trap) : TixeAlternative :=
  ⟨.pattern t.pattern, t.handler⟩

/-- As a `trap` around a statement, at the same place. -/
def Trap.around (t : Trap) (inner : Stmt) : Stmt :=
  ⟨t.node, inner.location, .trap (.pattern t.pattern) t.handler inner⟩

/-- Traps around a statement, the first one innermost. -/
def Stmt.nested (inner : Stmt) (traps : List Trap) : Stmt :=
  traps.foldl (fun inner t => t.around inner) inner

namespace Engine

variable (E : Engine) (title : String) (location : Location) (c : Context)

/-- Run a `handler` for a value, with the names of its pattern. -/
def takeUp (handler : Stmt) (v : Value) (matched : Matched) : Eval Value := do
  let child ← Eval.derive (c.hold v) title location
  E.stmt handler (child.bindAll matched)

/-- What a `Trap` makes of the `Outcome` of the statement inside of it. -/
def caught (t : Trap) : Outcome × Machine → Outcome × Machine
  | (.error (.exit v raised), m) =>
    match m.heap.match? t.pattern v with
    | some matched => E.takeUp title location c t.handler v matched m
    | none => (.error (.exit v raised), m)
  | out => out

/-- What traps make of an `Outcome`, one after another. -/
def settle (traps : List Trap) (out : Outcome × Machine) : Outcome × Machine :=
  traps.foldl (fun out t => E.caught title location c t out) out

section Settle

variable {E title location c} {t : Trap} {traps : List Trap} {v : Value} {raised : Location}
  {m : Machine} {out : Outcome × Machine}

theorem caught_of_ne_exit (hout : Outcome.isExit out.1 = false) :
    E.caught title location c t out = out := by
  unfold caught
  split
  · cases hout
  · rfl

theorem caught_of_none (hnone : m.heap.match? t.pattern v = none) :
    E.caught title location c t (.error (.exit v raised), m) = (.error (.exit v raised), m) := by
  unfold caught
  dsimp only
  rw [hnone]

theorem caught_of_some (hmatched : m.heap.match? t.pattern v = some matched) :
    E.caught title location c t (.error (.exit v raised), m) =
      E.takeUp title location c t.handler v matched m := by
  unfold caught
  dsimp only
  rw [hmatched]

theorem settle_cons : E.settle title location c (t :: traps) out =
    E.settle title location c traps (E.caught title location c t out) :=
  rfl

theorem settle_append (traps' : List Trap) : E.settle title location c (traps ++ traps') out =
    E.settle title location c traps' (E.settle title location c traps out) :=
  List.foldl_append

theorem settle_of_ne_exit (hout : Outcome.isExit out.1 = false) :
    E.settle title location c traps out = out := by
  induction traps with
  | nil => rfl
  | cons t rest ih => rw [settle_cons, caught_of_ne_exit hout, ih]

theorem settle_of_none (hnone : ∀ t ∈ traps, m.heap.match? t.pattern v = none) :
    E.settle title location c traps (.error (.exit v raised), m) =
      (.error (.exit v raised), m) := by
  induction traps with
  | nil => rfl
  | cons t rest ih =>
    rw [settle_cons, caught_of_none (hnone t List.mem_cons_self)]
    exact ih fun u hu => hnone u (List.mem_cons_of_mem t hu)

/-- The first `handler` that matches gets the value, and the traps after it what the handler ends
with. -/
theorem settle_of_first (hbefore : ∀ u ∈ before, m.heap.match? u.pattern v = none)
    (hmatched : m.heap.match? t.pattern v = some matched) :
    E.settle title location c (before ++ t :: after) (.error (.exit v raised), m) =
      E.settle title location c after (E.takeUp title location c t.handler v matched m) := by
  rw [settle_append, settle_of_none hbefore, settle_cons, caught_of_some hmatched]

end Settle

/-! ### Statements with handlers -/

variable {E location c} {traps : List Trap} {v : Value} {m m₁ : Machine}

theorem bindValue_pattern (p : Pattern) (code : Code) :
    E.bindValue (.pattern p) v code location c m = (.ok (m.heap.match? p v), m) :=
  rfl

theorem trap_apply (t : Trap) (inner : Stmt) :
    E.trap (.pattern t.pattern) t.handler inner location c m =
      E.caught "trap" location c t (E.stmt inner c m) := by
  unfold trap
  -- Nothing but an exit is looked at, and everything else passes through on both sides.
  rcases hrun : E.stmt inner c m with ⟨halt | a, m₁⟩
  · cases halt with
    | exhausted => rw [bind_of_error (outcome_of_exhausted hrun), caught_of_ne_exit rfl]
    | exit v raised =>
      rw [bind_of_ok (outcome_of_error hrun (by rintro ⟨⟩))]
      dsimp only
      rw [bind_of_ok (bindValue_pattern t.pattern _)]
      cases hmatch : m₁.heap.match? t.pattern v with
      | none =>
        rw [caught_of_none hmatch]
        rfl
      | some matched =>
        rw [caught_of_some hmatch]
        rfl
    | _ =>
      rw [bind_of_ok (outcome_of_error hrun (by rintro ⟨⟩)), caught_of_ne_exit rfl]
      rfl
  · rw [bind_of_ok (outcome_of_ok hrun), caught_of_ne_exit rfl]
    rfl

theorem outcome_of_ne_exhausted {x : Eval Value} {r : Outcome} (hrun : x m = (r, m₁))
    (hr : r ≠ .error .exhausted) : x.outcome m = (.ok r, m₁) := by
  cases r with
  | ok a => exact outcome_of_ok hrun
  | error halt => exact outcome_of_error hrun fun hh => hr (hh ▸ rfl)

/-- Either no `pattern` matches a value, or there is a first one that does. -/
theorem first_match (traps : List Trap) (h : Heap) (v : Value) :
    (∀ t ∈ traps, h.match? t.pattern v = none) ∨
      ∃ before t after matched, traps = before ++ t :: after ∧
        (∀ u ∈ before, h.match? u.pattern v = none) ∧ h.match? t.pattern v = some matched := by
  induction traps with
  | nil => exact .inl fun t ht => absurd ht List.not_mem_nil
  | cons t rest ih =>
    cases hmatch : h.match? t.pattern v with
    | some matched =>
      exact .inr ⟨[], t, rest, matched, rfl, fun u hu => absurd hu List.not_mem_nil, hmatch⟩
    | none =>
      rcases ih with hnone | ⟨before, u, after, matched, rfl, hbefore, hmatched⟩
      · exact .inl (List.forall_mem_cons.2 ⟨hmatch, hnone⟩)
      · exact .inr ⟨t :: before, u, after, matched, rfl,
          List.forall_mem_cons.2 ⟨hmatch, hbefore⟩, hmatched⟩

theorem firstHandler_append (E : Engine) (location : Location) (c : Context) (after : List Trap)
    (hbefore : ∀ t ∈ before, m.heap.match? t.pattern v = none) :
    E.firstHandler v location (c.hold v) ((before ++ after).map Trap.alternative) m =
      E.firstHandler v location (c.hold v) (after.map Trap.alternative) m := by
  induction before with
  | nil => rfl
  | cons t rest ih =>
    obtain ⟨hnone, hrest⟩ := List.forall_mem_cons.1 hbefore
    have hbind : E.bindValue t.alternative.bind v .trapBindFailed location (c.hold v) m =
        (.ok none, m) := hnone ▸ bindValue_pattern t.pattern _
    rw [List.cons_append, List.map_cons, firstHandler, bind_of_ok hbind]
    exact ih hrest

theorem firstHandler_of_none (E : Engine) (location : Location) (c : Context)
    (hnone : ∀ t ∈ traps, m.heap.match? t.pattern v = none) :
    E.firstHandler v location (c.hold v) (traps.map Trap.alternative) m = (.ok none, m) := by
  have happend := E.firstHandler_append location c [] hnone
  rwa [List.append_nil] at happend

theorem firstHandler_of_first (E : Engine) (location : Location) (c : Context) {t : Trap}
    (htraps : traps = before ++ t :: after)
    (hbefore : ∀ u ∈ before, m.heap.match? u.pattern v = none)
    (hmatched : m.heap.match? t.pattern v = some matched) :
    E.firstHandler v location (c.hold v) (traps.map Trap.alternative) m =
      (do return some (← (E.takeUp "tixe" location c t.handler v matched).outcome)) m := by
  have hbind : E.bindValue t.alternative.bind v .trapBindFailed location (c.hold v) m =
      (.ok (some matched), m) := hmatched ▸ bindValue_pattern t.pattern _
  rw [htraps, E.firstHandler_append location c _ hbefore, List.map_cons, firstHandler,
    bind_of_ok hbind]
  rfl

/-- What becomes of a value: no `pattern` matches, or the first `handler` whose pattern does is cut
off, or that handler comes to its end. -/
theorem firstHandler_cases (E : Engine) (location : Location) (c : Context) (traps : List Trap)
    (v : Value) (m : Machine) :
    let first := E.firstHandler v location (c.hold v) (traps.map Trap.alternative) m
    (∀ t ∈ traps, m.heap.match? t.pattern v = none) ∧ first = (.ok none, m) ∨
      ∃ before t after matched r m₁, traps = before ++ t :: after ∧
        (∀ u ∈ before, m.heap.match? u.pattern v = none) ∧
        m.heap.match? t.pattern v = some matched ∧
        E.takeUp "tixe" location c t.handler v matched m = (r, m₁) ∧
        (r = .error .exhausted ∧ first = (.error .exhausted, m₁) ∨ first = (.ok (some r), m₁)) := by
  intro first
  obtain hnone | ⟨before, t, after, matched, htraps, hbefore, hmatched⟩ :=
    first_match traps m.heap v
  · exact .inl ⟨hnone, E.firstHandler_of_none location c hnone⟩
  · have hfirst := E.firstHandler_of_first location c htraps hbefore hmatched
    rcases htaken : E.takeUp "tixe" location c t.handler v matched m with ⟨r, m₁⟩
    refine .inr ⟨before, t, after, matched, r, m₁, htraps, hbefore, hmatched, htaken, ?_⟩
    by_cases hr : r = .error .exhausted
    · subst hr
      exact .inl ⟨rfl, hfirst.trans (bind_of_error (outcome_of_exhausted htaken))⟩
    · exact .inr (hfirst.trans (bind_of_ok (outcome_of_ne_exhausted htaken hr)))

/-- If the `handler` that is run does not end in an `exit` then nothing is left for the traps after
it.
-/
theorem settle_eq_takeUp {t : Trap}
    {raised : Location} (htraps : traps = before ++ t :: after)
    (hbefore : ∀ u ∈ before, m.heap.match? u.pattern v = none)
    (hmatched : m.heap.match? t.pattern v = some matched)
    (hends : ∀ r m₁, E.firstHandler v location (c.hold v) (traps.map Trap.alternative) m =
      (.ok (some r), m₁) → Outcome.isExit r = false) :
    E.settle "tixe" location c traps (.error (.exit v raised), m) =
      E.takeUp "tixe" location c t.handler v matched m := by
  have hfirst := E.firstHandler_of_first location c htraps hbefore hmatched
  rw [htraps, settle_of_first hbefore hmatched]
  rcases htaken : E.takeUp "tixe" location c t.handler v matched m with ⟨r, m₁⟩
  refine settle_of_ne_exit ?_
  by_cases hr : r = .error .exhausted
  · rw [hr]
    rfl
  · exact hends r m₁ (hfirst.trans (bind_of_ok (outcome_of_ne_exhausted htaken hr)))

theorem match?_of_handleExits {rounds : Nat} {raised again : Location} {w : Value} {m' : Machine}
    (hrun : E.handleExits (traps.map Trap.alternative) location c rounds v raised m =
      (.error (.exit w again), m')) : ∀ t ∈ traps, m'.heap.match? t.pattern w = none := by
  -- Each round either ends with its own value, or goes on with that of a handler.
  induction rounds generalizing v raised m with
  | zero => cases hrun
  | succ rounds ih =>
    unfold handleExits at hrun
    obtain ⟨hnone, hfirst⟩ | ⟨before, t, after, matched, r, m₁, -, -, -, -, ⟨-, hfirst⟩ | hfirst⟩ :=
      E.firstHandler_cases location c traps v m
    · rw [bind_of_ok hfirst] at hrun
      cases hrun
      exact hnone
    · rw [bind_of_error hfirst] at hrun
      cases hrun
    · rw [bind_of_ok hfirst] at hrun
      rcases r with halt | a
      · cases halt with
        | exit next later => exact ih hrun
        | _ => cases hrun
      · cases hrun

theorem match?_of_tixe {body : Stmt} {raised : Location}
    (hrun : E.tixe (traps.map Trap.alternative) body location c m =
      (.error (.exit v raised), m₁)) : ∀ t ∈ traps, m₁.heap.match? t.pattern v = none := by
  unfold tixe at hrun
  rcases hbody : E.stmt body c m with ⟨halt | a, m₂⟩
  · cases halt with
    | exhausted =>
      rw [bind_of_error (outcome_of_exhausted hbody)] at hrun
      cases hrun
    | exit =>
      rw [bind_of_ok (outcome_of_error hbody (by rintro ⟨⟩))] at hrun
      exact match?_of_handleExits hrun
    | _ =>
      rw [bind_of_ok (outcome_of_error hbody (by rintro ⟨⟩))] at hrun
      cases hrun
  · rw [bind_of_ok (outcome_of_ok hbody)] at hrun
    cases hrun

/-- A statement with several handlers, once its body has come to its end, if no handler ends in an
`exit`. -/
theorem tixe_eq_settle {body : Stmt}
    (hrounds : ∀ v raised m₁, E.stmt body c m = (.error (.exit v raised), m₁) → E.rounds ≠ 0)
    (hends : ∀ v raised m₁ r m₂, E.stmt body c m = (.error (.exit v raised), m₁) →
      E.firstHandler v location (c.hold v) (traps.map Trap.alternative) m₁ = (.ok (some r), m₂) →
      Outcome.isExit r = false) :
    E.tixe (traps.map Trap.alternative) body location c m =
      E.settle "tixe" location c traps (E.stmt body c m) := by
  unfold tixe
  rcases hrun : E.stmt body c m with ⟨halt | a, m₁⟩
  · cases halt with
    | exhausted => rw [bind_of_error (outcome_of_exhausted hrun), settle_of_ne_exit rfl]
    | exit v raised =>
      rw [bind_of_ok (outcome_of_error hrun (by rintro ⟨⟩))]
      dsimp only
      -- One round is enough, since no handler ends in an exit.
      obtain ⟨rounds, hsucc⟩ := Nat.exists_eq_succ_of_ne_zero (hrounds v raised m₁ hrun)
      rw [hsucc, handleExits]
      have hexits : ∀ r m₂, _ → Outcome.isExit r = false := fun r m₂ => hends v raised m₁ r m₂ hrun
      obtain ⟨hnone, hfirst⟩ |
        ⟨before, t, after, matched, r, m₂, htraps, hbefore, hmatched, htaken, hcases⟩ :=
          E.firstHandler_cases location c traps v m₁
      · rw [bind_of_ok hfirst, settle_of_none hnone]
        rfl
      · rw [settle_eq_takeUp htraps hbefore hmatched hexits, htaken]
        rcases hcases with ⟨rfl, hfirst⟩ | hfirst
        · exact bind_of_error hfirst
        · rw [bind_of_ok hfirst]
          rcases r with halt | a
          · cases halt with
            | exit => cases hexits _ m₂ hfirst
            | _ => rfl
          · rfl
    | _ =>
      rw [bind_of_ok (outcome_of_error hrun (by rintro ⟨⟩)), settle_of_ne_exit rfl]
      rfl
  · rw [bind_of_ok (outcome_of_ok hrun), settle_of_ne_exit rfl]
    rfl

end Engine

end Animator
