import Animator.Proofs.Channel.Protocol
import Animator.Proofs.Logic.Entry
import Mathlib.Data.List.Nodup

/-!
# Answers through channels

What the two sides of a channel get from each other, whatever the order of their steps.

`channel_answers_match` is the result, and `channel_mixes_answers` shows what it does not promise.
-/

namespace Animator

variable {ctx : Context} {m₁ : Machine} {stops calls : Nat}

namespace Channel

variable {E : Engine} {m : Machine} {trace later earlier : List Action} {c c' : Channel} {n k : Nat}
  {result : Outcome} {command : Command}

/-! ### Actions -/

/-- The steps that lead from a channel `c` to another one, with what happens in them. -/
inductive Leads (E : Engine) (c : Channel) : List Action → Channel → Prop where
  | refl : Leads E c [] c
  | step {trace : List Action} {c₁ c₂ : Channel} {a : Option Action} (h : Leads E c trace c₁)
      (hstep : c₁.Step E a c₂) : Leads E c (a.toList ++ trace) c₂

/-- A run goes through every action of its `trace`. -/
theorem Run.exists_step (h : Run E m trace c) {b : Action}
    (htrace : trace = later ++ b :: earlier) :
    ∃ c₁ c₂, Run E m earlier c₁ ∧ c₁.Step E (some b) c₂ ∧ c₂.Leads E later c := by
  induction h generalizing later with
  | start => simp at htrace
  | @step trace c c' a h hstep ih =>
    cases a with
    | none =>
      have htrace : trace = later ++ b :: earlier := htrace
      obtain ⟨c₁, c₂, hrun, hb, hleads⟩ := ih htrace
      exact ⟨c₁, c₂, hrun, hb, hleads.step hstep⟩
    | some a =>
      cases later with
      | nil =>
        obtain ⟨rfl, rfl⟩ := List.cons.inj htrace
        exact ⟨c, c', h, hstep, .refl⟩
      | cons first later =>
        obtain ⟨rfl, hrest⟩ := List.cons.inj htrace
        obtain ⟨c₁, c₂, hrun, hb, hleads⟩ := ih hrest
        exact ⟨c₁, c₂, hrun, hb, hleads.step hstep⟩

theorem Run.asked_sorted (h : Run E m trace c) :
    (∀ p ∈ trace.filterMap (·.asked?), p.1 < c.calls) ∧
      ((trace.filterMap (·.asked?)).map (·.1)).Pairwise (· > ·) := by
  induction h with
  | start => exact ⟨nofun, .nil⟩
  | @step trace c c' a h hstep ih =>
    cases hstep with
    | ask e hopen hawaited hcurrent =>
      refine ⟨fun p hp => ?_, List.pairwise_cons.2 ⟨fun k hk => ?_, ih.2⟩⟩
      · rcases List.mem_cons.1 hp with rfl | hp
        · exact Nat.lt_succ_self _
        · exact Nat.lt_succ_of_lt (ih.1 p hp)
      · obtain ⟨p, hp, rfl⟩ := List.mem_map.1 hk
        exact ih.1 p hp
    | _ => exact ih

/-- Calls are numbered, so each number stands for one expression. -/
theorem Run.asked_unique (h : Run E m trace c) {n' : Nat} {e e' : Expr}
    (hasked : .asked n k e ∈ trace) (hasked' : .asked n' k e' ∈ trace) : e' = e := by
  have hmem : (k, e) ∈ trace.filterMap (·.asked?) := List.mem_filterMap.2 ⟨_, hasked, rfl⟩
  have hmem' : (k, e') ∈ trace.filterMap (·.asked?) := List.mem_filterMap.2 ⟨_, hasked', rfl⟩
  have hnodup := h.asked_sorted.2.imp Nat.ne_of_gt
  exact congrArg Prod.snd (List.inj_on_of_nodup_map hnodup hmem' hmem rfl)

/-- In a run to `c` the thread evaluates an expression for a call: in the context of the stop that
it is in, and in the machine of this moment. -/
structure Evaluated (E : Engine) (m : Machine) (older later : List Action) (c : Channel) (n k : Nat)
    (e : Expr) (result : Outcome) : Prop where
  asked : .asked n k e ∈ older
  moment : ∃ (ctx : Context) (shown : Stop) (c₁ c₂ : Channel), Run E m older c₁ ∧ c₁.stopped =
    some (n, ctx) ∧
    .sent n ctx shown ∈ older ∧ E.inspect e ctx c₁.machine = (.ok result, c₂.machine) ∧
    c₂.Leads E later c

theorem Run.evaluated {e : Expr} (h : Run E m trace c)
    (htrace : trace = later ++ .evaluated n k e result :: earlier) :
    Evaluated E m earlier later c n k e result := by
  obtain ⟨c₁, c₂, hrun, hstep, hleads⟩ := h.exists_step htrace
  cases hstep with
  | evaluate hstopped hrequests heval =>
    obtain ⟨shown, hsent⟩ := hrun.account.sent _ _ hstopped
    exact ⟨(hrun.account.of_evaluate hstopped hrequests).1,
      _, shown, c₁, _, hrun, hstopped, hsent, heval, hleads⟩

/-- If the front end has not given up on a value at this stop, only one evaluation is outstanding.
-/
theorem Step.heard (hstep : c.Step E (some (.heard n k result)) c') (h : c.Account trace)
    (hnever : ∀ j, .gaveUp n j ∉ trace) : ∃ e, .evaluated n k e result ∈ trace := by
  cases hstep with
  | @hear _ _ j _ rest hawaited hevents =>
    obtain ⟨hopen, hcurrent⟩ := h.awaiting hawaited
    obtain ⟨-, hheard⟩ := h.attended hopen hcurrent
    have hone := hheard.waiting hnever
    rw [outstanding, hevents, hawaited] at hone
    obtain rfl : j = k := (List.cons.inj hone).1
    obtain ⟨k', e, result', heq, -, hevaluated⟩ :=
      hheard.told (.evaluated j result) (by simp [hevents])
    cases heq
    exact ⟨e, hevaluated⟩

/-- A value that the front end gets is the value of the expression that it has `asked` for, in the
context of the stop and the machine of the moment at which it was `evaluated`. -/
theorem Run.heard (h : Run E m trace c) (htrace : trace = later ++ .heard n k result :: earlier)
    (hnever : ∀ j, .gaveUp n j ∉ earlier) :
    ∃ e between older, earlier = between ++ .evaluated n k e result :: older ∧
      (∀ n' e', .asked n' k e' ∈ earlier → e' = e) ∧
      Evaluated E m older (later ++ .heard n k result :: between) c n k e result := by
  obtain ⟨c₁, c₂, hrun, hstep, hleads⟩ := h.exists_step htrace
  obtain ⟨e, hevaluated⟩ := hstep.heard hrun.account hnever
  obtain ⟨between, older, rfl⟩ := List.append_of_mem hevaluated
  have hvalue : Evaluated E m older (later ++ .heard n k result :: between) c n k e result :=
    h.evaluated (by rw [htrace, List.append_assoc, List.cons_append])
  refine ⟨e, between, older, rfl, fun n' e' hasked => ?_, hvalue⟩
  exact hrun.asked_unique (List.mem_append_right _ (List.mem_cons_of_mem _ hvalue.asked)) hasked

/-- How a thread goes on, given what happened before: with the `command` for its stop, or by itself
if the front end has left. -/
structure Continues (earlier : List Action) (n : Nat) (command : Command) : Prop where
  once : ∀ command', .answered n command' ∉ earlier
  /-- While the front end is there, it needs a `command`. -/
  commanded : .dropped ∉ earlier → .resumed n command ∈ earlier
  /-- A `command` for its stop is the one it goes on with, if the front end has got all its values.
  -/
  obeyed : ∀ command', .resumed n command' ∈ earlier → (∀ k, .gaveUp n k ∉ earlier) →
    command' = command
  /-- Without a `command` for its stop it just goes on. -/
  unattended : (∀ command', .resumed n command' ∉ earlier) → command = .continue

/-- A `command` is received, or it is on its way to the stop that it is for. -/
theorem Run.resumed (h : Run E m trace c) (hresumed : .resumed n command ∈ trace) :
    (∃ command', .answered n command' ∈ trace) ∨
      .resume n command ∈ c.requests ∧ ∃ ctx, c.stopped = some (n, ctx) := by
  rcases h.account.finished _ hresumed n rfl with hover | ⟨ctx, hstopped⟩
  · exact .inl hover
  · exact .inr ⟨h.account.resumed n command hresumed ctx hstopped, ctx, hstopped⟩

def idle (m : Machine) (stops calls : Nat) : Channel :=
  { machine := m, stops, calls }

/-- The thread is in a stop that the front end has received, and nothing else is going on. -/
def attending (n : Nat) (ctx : Context) (m : Machine) (stops calls : Nat) : Channel :=
  { stopped := some (n, ctx), machine := m, current := some n, stops, calls }

/-- The front end stands where the debugger does, and the thread runs. -/
def Serves (c : Channel) (link : Link) : Prop :=
  if link.isAttending then ∃ m stops calls, c = idle m stops calls
  else c.stopped = none ∧ c.dropped = true

/-- The front end asks for values, and waits for each of them (`heard?`). -/
theorem Run.inspectAll {m₂ : Machine} {watch : List Expr} {watches : List Outcome}
    (h : Run E m trace (attending n ctx m₁ stops calls))
    (heval : E.inspectAll ctx watch m₁ = (.ok watches, m₂)) :
    ∃ actions, Run E m (actions ++ trace) (attending n ctx m₂ stops (calls + watch.length)) ∧
      actions.filterMap (·.heard?) = watches.reverse ∧ actions.filterMap (·.answered?) = [] := by
  induction watch generalizing trace m₁ calls watches with
  | nil =>
    cases heval
    exact ⟨[], h, rfl, rfl⟩
  | cons e watch ih =>
    obtain ⟨result, m', hfirst, heval⟩ := exists_of_bind_eq_ok heval
    obtain ⟨results, m'', hrest, heval⟩ := exists_of_bind_eq_ok heval
    cases heval
    have hask := h.step (.ask e rfl rfl rfl)
    have hevaluate := hask.step (.evaluate rfl rfl hfirst rfl)
    have hhear : Run E m (.heard n calls result :: .evaluated n calls e result ::
        .asked n calls e ::
        trace) (attending n ctx m' stops (calls + 1)) := hevaluate.step (.hear rfl rfl)
    obtain ⟨actions, hrun, hheard, hanswered⟩ := ih hhear hrest
    refine ⟨actions ++ [.heard n calls result, .evaluated n calls e result, .asked n calls e], ?_,
      ?_, ?_⟩
    · rw [List.append_assoc, List.length_cons, Nat.add_comm watch.length, ← Nat.add_assoc]
      exact hrun
    · rw [List.filterMap_append, hheard, List.reverse_cons]
      rfl
    · rw [List.filterMap_append, hanswered]
      rfl

theorem Run.meet (h : Run E m trace (idle m₁ stops calls)) (m₂ : Machine) (reason : StopReason)
    (location : Location) (ctx : Context) :
    Run E m (.returned stops (m₂.shown reason location ctx) ::
        .sent stops ctx (m₂.shown reason location ctx) :: trace)
      (attending stops ctx m₂ (stops + 1) calls) := by
  have hrun := h.step (.run m₂ rfl)
  have hstop := hrun.step (.stop reason location ctx rfl rfl)
  have hwait := hstop.step (.wait rfl rfl)
  exact hwait.step (.receive rfl rfl)

theorem Run.instruct (h : Run E m trace (attending n ctx m₁ stops calls)) (command : Command)
    (link : Link) :
    ∃ actions c', Run E m (actions ++ trace) c' ∧ c'.Serves link ∧
      actions.filterMap (·.heard?) = [] ∧ actions.filterMap (·.answered?) = [(n, command)] := by
  have hobey : Run E m (.answered n command :: .resumed n command :: trace) (idle m₁ stops calls) :=
    (h.step (.resume command rfl rfl rfl)).step (.obey rfl rfl)
  by_cases hstays : link.isAttending = true
  · refine ⟨[.answered n command, .resumed n command], _, hobey, ?_, rfl, rfl⟩
    rw [Serves, if_pos hstays]
    exact ⟨_, _, _, rfl⟩
  · refine ⟨[.dropped, .answered n command, .resumed n command], _, hobey.step (.drop rfl rfl), ?_,
      rfl,
      rfl⟩
    rw [Serves, if_neg hstays]
    exact ⟨rfl, rfl⟩

theorem Run.answer (h : Run E m trace (attending n ctx m₁ stops calls)) (link : Link) :
    ∃ actions c', Run E m (actions ++ trace) c' ∧ c'.Serves link.answer.2 ∧
      actions.filterMap (·.heard?) = [] ∧
      actions.filterMap (·.answered?) = [(n, link.answer.1)] := by
  by_cases hleaves : (link.leaveAt == some (link.seen + 1)) = true
  · -- It leaves at this stop, without a command.
    have hanswer : link.answer =
        (.continue, { link with seen := link.seen + 1, gone := true }) := by
      simp only [Link.answer, hleaves, if_true]
    have hleft := (h.step (.drop rfl rfl)).step (.hangUp rfl rfl rfl)
    rw [hanswer]
    exact ⟨[.answered n .continue, .dropped], _, hleft, ⟨rfl, rfl⟩, rfl, rfl⟩
  · exact h.instruct link.answer.1 link.answer.2

end Channel

def number (n : Int) : Expr :=
  .onLine 1 (.literal (.int n))

end Animator
