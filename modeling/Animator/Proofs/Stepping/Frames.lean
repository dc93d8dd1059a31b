import Animator.Proofs.Effect.Frame

/-!
# Frames and steps

A debugger that steps over or out does not want to stop in calls. Where the step ends is said by the
number of a scope: that of the frame that is stepped over, or of the frame of the caller.

A frame is known by the numbers of its root scope and of the scopes around it (`Context.frameIds`).
It is further inside than another one if the numbers of the other one are the end of its own.
-/

namespace Animator

/-! ### Frames -/

namespace Scope

theorem fromRoot_outer {s s' : Scope} (hroot : s'.root = s.root) (rest : List Scope) :
    (s'.fromRoot rest).2 = (s.fromRoot rest).2 := by
  cases rest with
  | nil => rfl
  | cons next rest =>
    rw [fromRoot, fromRoot, hroot]
    split <;> rfl

/-- The nearest root (`fromRoot`) is one of the scopes, with those that are around it. -/
theorem fromRoot_suffix (s : Scope) (rest : List Scope) :
    (s.fromRoot rest).1 :: (s.fromRoot rest).2 <:+ s :: rest := by
  induction rest generalizing s with
  | nil => exact List.suffix_refl _
  | cons next rest ih =>
    rw [fromRoot]
    split
    · exact List.suffix_refl _
    · exact (ih next).trans (List.suffix_cons _ _)

end Scope

namespace Context

variable {c r : Context} {x : ContextId} {id : ThreadId}

theorem rootOf_suffix (c : Context) : c.rootOf.scopes <:+ c.scopes :=
  c.inner.fromRoot_suffix c.outer

/-- The numbers by which a frame is known: that of its root scope, then those of the `scopes` around
it. -/
def frameIds (c : Context) : List ContextId :=
  c.rootOf.scopes.map (·.id)

theorem hasAncestor_rootOf : c.rootOf.hasAncestor x = true ↔ x ∈ c.frameIds.tail := by
  simp only [hasAncestor, frameIds, scopes, List.map_cons, List.tail_cons, List.any_eq_true,
    List.mem_map, beq_iff_eq]

theorem frameIds_around {caller : Context} (h : r.rootOf.around = some caller) :
    caller.frameIds <:+ r.frameIds.tail := by
  have houter : caller.scopes = r.rootOf.outer := by
    unfold around at h
    split at h
    · cases h
    · next houter =>
      rw [← Option.some.inj h, houter]
      rfl
  have hsuffix := caller.rootOf_suffix
  rw [houter] at hsuffix
  exact hsuffix.map _

theorem tail_suffix_tail (h : c.frameIds <:+ r.frameIds) : c.frameIds.tail <:+ r.frameIds.tail := by
  rcases List.suffix_cons_iff.1 h with heq | hsuffix
  · rw [heq]
    exact List.suffix_refl _
  · exact (List.tail_suffix _).trans hsuffix

/-- A frame that has its own number in `frameIds` is not around a frame further out. -/
theorem not_mem_tail_of_suffix (h : c.frameIds <:+ r.frameIds) (hr : r.frameIds.Nodup) :
    r.rootOf.inner.id ∉ c.frameIds.tail :=
  fun hmem => (List.nodup_cons.1 hr).1 ((tail_suffix_tail h).subset hmem)

/-- What is around a frame is around the frame of every `Scope` inside. -/
theorem hasAncestor_nest (s : Scope) (h : c.rootOf.hasAncestor x = true) :
    ({ c with inner := s, outer := c.scopes } : Context).rootOf.hasAncestor x = true := by
  have hroot : s.fromRoot c.scopes =
      if s.root.isSome then (s, c.scopes) else c.inner.fromRoot c.outer := rfl
  have houter : ({ c with inner := s, outer := c.scopes } : Context).rootOf.outer =
      (s.fromRoot c.scopes).2 := rfl
  rw [hasAncestor, houter, hroot]
  split
  · -- The scope begins a frame, and everything before it is around it.
    obtain ⟨t, ht, hid⟩ := List.any_eq_true.1 h
    exact List.any_eq_true.2 ⟨t, c.rootOf_suffix.subset (List.mem_cons_of_mem _ ht), hid⟩
  · exact h

/-- The contexts of a thread whose frame has a scope with a number around it. -/
def Beneath (id : ThreadId) (x : ContextId) (c : Context) : Prop :=
  c.thread = id ∧ c.rootOf.hasAncestor x = true

/-- An evaluation does not leave these contexts, since new scopes are inside. -/
instance : Region (· = id) (Beneath id x) where
  thread h := h.1
  holdAll _ h := h
  bindAll {c} matched h := by
    have houter : (c.bindAll matched).rootOf.outer = c.rootOf.outer :=
      @Scope.fromRoot_outer c.inner (c.bindAll matched).inner rfl c.outer
    refine ⟨h.1, ?_⟩
    rw [hasAncestor, houter]
    exact h.2
  nest s h := ⟨h.1, hasAncestor_nest s h.2⟩

end Context

/-! ### Where steps end -/

/-- The frames in which a step does not end: those of calls from the frame where it began, and when
stepping out also that frame itself. -/
def Command.PassesOver (command : Command) (r c : Context) : Prop :=
  match command with
  | .stepOver => r.frameIds <:+ c.frameIds.tail
  | .stepOut => r.frameIds <:+ c.frameIds
  | _ => False

/-- The frames in which a step ends: those of the caller and further out, and when stepping over
also the frame where it began. -/
def Command.EndsIn (command : Command) (r c : Context) : Prop :=
  match command with
  | .stepOver => c.frameIds <:+ r.frameIds
  | .stepOut => ∃ caller, r.rootOf.around = some caller ∧ c.frameIds <:+ caller.frameIds
  | _ => False

section Steps

variable {command : Command} {r c : Context} {m : Machine}

theorem Machine.step_stepTo (hm : m.Has c.thread) (step : StepTarget) :
    ((m.modifyThread c.thread (·.stepTo step)).thread c.thread).step = step := by
  obtain ⟨record, hrecord⟩ := Option.isSome_iff_exists.1 hm
  have hmodified := Machine.record?_modifyRecord c.thread
    (f := fun r => { r with thread := r.thread.stepTo step }) (fun _ => rfl) hrecord
  unfold thread modifyThread
  rw [show (m.scheduler.modify c.thread fun r => { r with thread := r.thread.stepTo step }).record?
    c.thread = _ from hmodified, if_pos rfl]
  rfl

/-- The number by which it is known where a step ends: that of the frame that is stepped over, or of
the frame of the caller. -/
def Command.Marks (command : Command) (r : Context) (mark : ContextId) : Prop :=
  (command = .stepOver ∧ mark = r.rootOf.inner.id) ∨
    (command = .stepOut ∧ ∃ caller, r.rootOf.around = some caller ∧ mark = caller.rootOf.inner.id)

theorem Command.exists_marks (hcommand : command = .stepOver ∨ command = .stepOut)
    (hcaller : r.rootOf.around.isSome) : ∃ mark, command.Marks r mark := by
  rcases hcommand with rfl | rfl
  · exact ⟨_, .inl ⟨rfl, rfl⟩⟩
  · obtain ⟨caller, hcaller⟩ := Option.isSome_iff_exists.1 hcaller
    exact ⟨_, .inr ⟨rfl, caller, hcaller, rfl⟩⟩

namespace Command.Marks

variable {mark : ContextId} (h : command.Marks r mark)

include h

/-- The thread goes on, and stops on another line, if the frame with the `mark` is not around it. -/
theorem resume (location : Location) (hm : m.Has r.thread) :
    (Engine.resume command location r m).1 = .ok () ∧
      ∀ line c, ((Engine.resume command location r m).2.thread r.thread).step.stopsAt line c =
        (!decide (line = location.line) && !c.rootOf.hasAncestor mark) := by
  rcases h with ⟨rfl, rfl⟩ | ⟨rfl, caller, hcaller, rfl⟩
  · refine ⟨rfl, fun line c => ?_⟩
    have hstep := Machine.step_stepTo hm
      { line := some location.line, next := some r.rootOf.inner.id }
    refine (congrArg (StepTarget.stopsAt · line c) hstep).trans ?_
    by_cases hline : line = location.line <;> simp [StepTarget.stopsAt, hline]
  · have hresume : Engine.resume .stepOut location r m =
        (.ok (), m.modifyThread r.thread
          (·.stepTo { line := some location.line, out := some caller.rootOf.inner.id })) := by
      unfold Engine.resume
      dsimp only
      rw [hcaller]
      rfl
    rw [hresume]
    refine ⟨rfl, fun line c => ?_⟩
    rw [Machine.step_stepTo hm]
    by_cases hline : line = location.line <;> simp [StepTarget.stopsAt, hline]

/-- The frame with the `mark` is around all frames that are passed over. -/
theorem hasAncestor_of_passesOver (hc : command.PassesOver r c) :
    c.rootOf.hasAncestor mark = true := by
  rw [Context.hasAncestor_rootOf]
  rcases h with ⟨rfl, rfl⟩ | ⟨rfl, caller, hcaller, rfl⟩
  · exact hc.subset List.mem_cons_self
  · have htail : r.frameIds.tail <:+ c.frameIds.tail := Context.tail_suffix_tail hc
    exact htail.subset ((Context.frameIds_around hcaller).subset List.mem_cons_self)

/-- It is around none (`hasAncestor`) of the frames in which the step ends. -/
theorem hasAncestor_of_endsIn (hr : r.frameIds.Nodup) (hc : command.EndsIn r c) :
    c.rootOf.hasAncestor mark = false := by
  rw [← Bool.not_eq_true, Context.hasAncestor_rootOf]
  rcases h with ⟨rfl, rfl⟩ | ⟨rfl, caller, hcaller, rfl⟩
  · exact Context.not_mem_tail_of_suffix hc hr
  · obtain ⟨caller', hcaller', hsuffix⟩ := hc
    obtain rfl := Option.some.inj (hcaller'.symm.trans hcaller)
    have hnodup : caller'.frameIds.Nodup :=
      (hr.sublist (List.tail_sublist _)).sublist (Context.frameIds_around hcaller).sublist
    exact Context.not_mem_tail_of_suffix hsuffix hnodup

end Command.Marks

end Steps

end Animator
