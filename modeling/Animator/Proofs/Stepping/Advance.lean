import Animator.Proofs.Effect.Drift
import Animator.Proofs.Effect.Frame
import Animator.Proofs.Logic.Entry
import Mathlib.Algebra.Order.BigOperators.Group.List
import Mathlib.Algebra.Order.Ring.Nat

/-!
# What is never taken back

An evaluation may end in any way, but some things only become more: the threads that are known, the
stops that were shown, the breakpoints that were met, the events that happened and the numbers that
were given to scopes.
-/

namespace Animator

def BreakpointTable.met (t : BreakpointTable) : Nat :=
  (t.entries.map (·.hits)).sum

theorem Breakpoint.hits_le_countHit (b : Breakpoint) (number : Nat) :
    b.hits ≤ (b.countHit number).hits := by
  unfold countHit
  split
  · exact Nat.le_succ _
  · exact Nat.le_refl _

theorem BreakpointTable.met_hit {t : BreakpointTable} {b : Breakpoint} (hb : b ∈ t.entries) :
    t.met < (t.hit b.number).met := by
  rw [met, met, entries_hit, List.map_map]
  refine List.sum_lt_sum _ _ (fun a _ => a.hits_le_countHit _) ⟨b, hb, ?_⟩
  rw [Function.comp_apply, Breakpoint.countHit, if_pos (beq_self_eq_true _)]
  exact Nat.lt_succ_self _

theorem BreakpointTable.met_le_hit (t : BreakpointTable) (number : Nat) :
    t.met ≤ (t.hit number).met := by
  rw [met, met, entries_hit, List.map_map]
  exact List.sum_le_sum fun a _ => a.hits_le_countHit number

/-- Nothing is forgotten. -/
structure Machine.Advances (m m' : Machine) : Prop where
  known {id : ThreadId} : m.Has id → m'.Has id
  stops : m.stops.toList <+: m'.stops.toList
  met : m.breakpoints.met ≤ m'.breakpoints.met
  history : m.history <:+ m'.history
  contexts : m.nextContext ≤ m'.nextContext

namespace Machine

variable {P : Program} {o : Origin} {T : ThreadId → Prop} {Made : ObjectRef → Prop}
  {m m₁ m' : Machine}

namespace Advances

theorem refl : m.Advances m :=
  ⟨id, List.prefix_refl _, Nat.le_refl _, List.suffix_refl _, Nat.le_refl _⟩

theorem trans (h : m.Advances m₁) (h' : m₁.Advances m') : m.Advances m' :=
  ⟨fun hid => h'.known (h.known hid), h.stops.trans h'.stops, Nat.le_trans h.met h'.met,
    h.history.trans h'.history, Nat.le_trans h.contexts h'.contexts⟩

theorem ofUnseen (h : m.Unseen m') (hknown : ∀ id, m.Has id → m'.Has id)
    (hcontexts : m.nextContext ≤ m'.nextContext) : m.Advances m' :=
  ⟨hknown _, h.stops ▸ List.prefix_refl _, h.breakpoints ▸ Nat.le_refl _,
    h.history ▸ List.suffix_refl _, hcontexts⟩

theorem modifyRecord {id : ThreadId} {f : ThreadRecord → ThreadRecord}
    (hf : ∀ r, (f r).thread.id = r.thread.id) : m.Advances (m.modifyRecord id f) :=
  ⟨fun hm => hm.modifyRecord hf, List.prefix_refl _, Nat.le_refl _, List.suffix_refl _,
    Nat.le_refl _⟩

theorem event (event : Event) : m.Advances { m with history := event :: m.history } :=
  ⟨id, List.prefix_refl _, Nat.le_refl _, List.suffix_cons _ _, Nat.le_refl _⟩

theorem counted (node : Node) : m.Advances (m.counted node) :=
  ⟨id, List.prefix_refl _, Nat.le_refl _, List.suffix_cons _ _, Nat.le_refl _⟩

theorem taken : m.Advances m.taken :=
  ⟨id, List.prefix_refl _, Nat.le_refl _, List.suffix_refl _, Nat.le_refl _⟩

theorem hit (number : Nat) :
    m.Advances { m with breakpoints := m.breakpoints.hit number } :=
  ⟨id, List.prefix_refl _, BreakpointTable.met_le_hit _ number, List.suffix_refl _, Nat.le_refl _⟩

theorem reported (link : Link) (stop : Stop) : m.Advances (m.reported link stop) := by
  refine ⟨id, ?_, Nat.le_refl _, List.suffix_refl _, Nat.le_refl _⟩
  rw [Machine.reported, Array.toList_push]
  exact List.prefix_append _ _

theorem enter (g : Guard) (id : ThreadId) : m.Advances (g.enter id m) :=
  g.enter_eq ▸ modifyRecord fun r => (g.keeps_switchOn r).1

theorem leave (g : Guard) (id : ThreadId) : m.Advances (g.leave id m) :=
  g.leave_eq ▸ modifyRecord fun r => (g.keeps_switchOff r).1

end Advances

theorem Step.advances (hs : m.Step P o T Made m') : m.Advances m' := by
  refine .ofUnseen hs.unseen (fun id hm => (hs.frame hm).1.has) ?_
  cases hs with
  | context => exact Nat.le_succ _
  | _ => exact Nat.le_refl _

theorem ObeyStep.advances (hs : m.ObeyStep T m') : m.Advances m' := by
  cases hs with
  | returned => exact .event _
  | request => exact .taken
  | breakpoint number => exact .hit number
  | yieldPoint => exact .modifyRecord fun _ => rfl

theorem Happens.advances (h : m.Happens P o T Made m') : m.Advances m' := by
  cases h with
  | step hs => exact hs.advances
  | visit node => exact .counted node
  | obey hs => exact hs.advances
  | charge | stepTo => exact .modifyRecord fun _ => rfl
  | report link stop => exact .reported link stop
  | unwound => exact .event _

end Machine

def advanceDrift (P : Program) : Drift P .all where
  Rel := Machine.Advances
  delegates := P.delegates_from_all
  refl := .refl
  trans h h' := h.trans h'
  moves _ h := h.advances
  guard g _ _ h := (Machine.Advances.enter g _).trans (h.trans (.leave g _))

namespace advanceDrift

variable {P : Program} {E : Engine} {α : Type} {Q : α → α → Prop} {x : Eval α}

theorem sound (P : Program) (bound : Nat) : (advanceDrift P).effect.Sound (P.engine bound) :=
  (advanceDrift P).sound Origin.closed_all bound

theorem reacts (P : Program) (bound : Nat) : (advanceDrift P).effect.Reacts (P.engine bound) :=
  Drift.reacts (sound P bound)

theorem suspend (P : Program) (bound : Nat) (reason : StopReason) (location : Location)
    (c : Context) :
    (advanceDrift P).effect.Does Eq ((P.engine bound).suspend reason location c) :=
  ((advanceDrift P).reports.stops (sound P bound)).suspend c.from_all trivial

theorem fail (P : Program) (bound : Nat) (code : Code) (message : String) (location : Location)
    (c : Context) :
    (advanceDrift P).effect.Does Q ((P.engine bound).fail code message location c) :=
  Effect.Obeys.fail (reacts P bound).toCatches c.from_all trivial

theorem reaction (P : Program) (bound : Nat) (c : Context) :
    Reaction (advanceDrift P).effect.Holds (P.engine bound) (P.engine bound) c c fun _ =>
      True ∧ True :=
  (advanceDrift P).inspects.reaction (sound P bound) c.from_all trivial fun code message location =>
    fail P bound code message location c

theorem takeEffect (P : Program) (bound : Nat) (b : Breakpoint) (location : Location)
    (c : Context) :
    (advanceDrift P).effect.Does Eq ((P.engine bound).takeEffect b location c) :=
  (reaction P bound c).takeEffect (fun _ _ => ⟨trivial, trivial⟩) (suspend P bound _ location c)

theorem takeTurn (P : Program) (bound : Nat) (stopped : Bool) (location : Location)
    (c : Context) :
    (advanceDrift P).effect.Does Eq ((P.engine bound).takeTurn stopped location c) :=
  (advanceDrift P).checks.takeTurn (reacts P bound) c.from_all trivial

theorem advances (h : (advanceDrift P).effect.Holds Q x x) (m : Machine) : m.Advances (x m).2 :=
  (h m m.from_all trivial).rel

theorem advances_obey (P : Program) (bound : Nat) (node : Node) (c : Context) (m : Machine) :
    m.Advances ((P.engine bound).obey node.id node.location c .none m).2 :=
  advances (.bindEq (Effect.Obeys.meetBreakpoint (reacts P bound) c.from_all trivial)
    fun stopped => takeTurn P bound stopped node.location c) m

theorem advances_resume (command : Command) (location : Location) (c : Context) (m : Machine) :
    m.Advances (Engine.resume command location c m).2 :=
  ((advanceDrift default).reports.resume trivial m m.from_all trivial).rel

end advanceDrift

/-! ### Numbers of scopes -/

/-- The `scopes` of a context have numbers that were given out before, inner scopes later ones than
the scopes around them. -/
def Context.Numbered (m : Machine) (c : Context) : Prop :=
  ((m.nextContext :: c.scopes.map (·.id)).Pairwise (· > ·))

namespace Context.Numbered

variable {m m' : Machine} {c : Context}

theorem nodup (h : c.Numbered m) : (c.scopes.map (·.id)).Nodup :=
  (List.pairwise_cons.1 h).2.imp Nat.ne_of_gt

theorem nest (h : c.Numbered m) {s : Scope} (hs : s.id = m.nextContext) :
    ({ c with inner := s, outer := c.scopes } : Context).Numbered
      { m with nextContext := m.nextContext + 1 } := by
  obtain ⟨hall, hscopes⟩ := List.pairwise_cons.1 h
  have hnew : ((c.scopes.map (·.id)).cons s.id).Pairwise (· > ·) := hs ▸ h
  refine List.pairwise_cons.2 ⟨fun id hid => ?_, hnew⟩
  rcases List.mem_cons.1 hid with rfl | hid
  · exact hs ▸ Nat.lt_succ_self _
  · exact Nat.lt_succ_of_lt (hall id hid)

theorem entry {kind : RootKind} {title : String} {location : Location} {id : ThreadId}
    (hrun : Eval.entry kind title location id m = (.ok c, m')) : c.Numbered m' := by
  cases hrun
  exact List.pairwise_pair.2 (Nat.lt_succ_self _)

theorem frame {caller : Context} (h : caller.Numbered m) {root : Root} {title : String}
    {location : Location} (hrun : Eval.frame caller root title location m = (.ok c, m')) :
    c.Numbered m' := by
  cases hrun
  exact h.nest rfl

theorem derive {outer : Context} (h : outer.Numbered m) {title : String} {location : Location}
    (hrun : Eval.derive outer title location m = (.ok c, m')) : c.Numbered m' := by
  cases hrun
  exact h.nest rfl

end Context.Numbered

end Animator
