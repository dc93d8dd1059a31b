import Animator.Eval.Start
import Mathlib.Data.List.Nodup
import Mathlib.Logic.Relation

/-!
# Objects and their threads

An object has the number of its thread, as a mark, from the moment when the thread is given to the
scheduler until the thread comes to its end. The scheduler knows on its own which threads are
running and what their objects are. `Machine.Solo` says that the two agree, so that no object has
more than one running thread.

Only two things happen to marks and running threads, in whatever order the threads take turns: a
thread is given to the scheduler, and a running thread comes to its end (`Machine.ThreadStep`). The
second one keeps a machine solo. The first one does exactly if the object has no thread yet
(`Machine.solo_spawn_iff`). The scheduler remembers of each thread whether its object had none when
it was started, so a machine is solo as long as all threads were alone (`Machine.ThreadSteps.solo`).
-/

namespace Animator

/-! ### Marks -/

namespace Heap

variable {h : Heap} {oid id : ObjectId}

theorem object?_modifyObject {f : Object → Object} :
    (h.modifyObject id f).object? oid =
      if oid = id then (h.object? oid).map f else h.object? oid := by
  cases id with
  | zero =>
    cases oid with
    | zero => rfl
    | succ n => rfl
  | succ k =>
    cases oid with
    | zero => rfl
    | succ n =>
      simp only [object?, modifyObject, Array.getElem?_modify, Nat.succ.injEq, eq_comm]

def mark (h : Heap) (oid : ObjectId) : Option ThreadId :=
  (h.object? oid).bind (·.thread)

theorem thread?_eq_mark (ref : ObjectRef) : h.thread? ref = h.mark ref.id :=
  rfl

theorem mark_modifyObject {f : Object → Object} (hf : ∀ object, (f object).thread = object.thread) :
    (h.modifyObject id f).mark oid = h.mark oid := by
  rw [mark, object?_modifyObject, mark]
  split
  · cases h.object? oid with
    | none => rfl
    | some object => exact hf object
  · rfl

theorem mark_newObject (className : String) : (h.newObject className).2.mark oid = h.mark oid := by
  cases oid with
  | zero => rfl
  | succ n =>
    simp only [mark, object?, newObject, Array.getElem?_push]
    split
    · next hn => simp [hn]
    · rfl

theorem mark_setThread {ref : ObjectRef} {thread : Option ThreadId} :
    (h.setThread ref thread).mark oid =
      if oid = ref.id then (h.object? oid).bind fun _ => thread else h.mark oid := by
  rw [mark, setThread, object?_modifyObject, mark]
  split
  · cases h.object? oid <;> rfl
  · rfl

end Heap

/-! ### Threads -/

structure Tenure where
  id : ThreadId
  object : Option ObjectId
  /-- Whether it has not come to its end. -/
  running : Bool
  /-- Whether the object had no thread when this one was started. -/
  alone : Bool
  deriving DecidableEq

def ThreadRecord.tenure (r : ThreadRecord) : Tenure :=
  ⟨r.thread.id, r.object.map (·.id), r.running, r.alone⟩

namespace Tenure

def runs (t : Tenure) (oid : ObjectId) : Bool :=
  t.running && t.object == some oid

def ended (id : ThreadId) (t : Tenure) : Tenure :=
  if t.id = id then { t with running := false } else t

@[simp]
theorem id_ended (id : ThreadId) (t : Tenure) : (t.ended id).id = t.id := by
  unfold ended
  split <;> rfl

@[simp]
theorem alone_ended (id : ThreadId) (t : Tenure) : (t.ended id).alone = t.alone := by
  unfold ended
  split <;> rfl

end Tenure

namespace Machine

def tenures (m : Machine) : List Tenure :=
  m.scheduler.records.map (·.tenure)

def threadsOf (m : Machine) (oid : ObjectId) : List ThreadId :=
  (m.tenures.filter (·.runs oid)).map (·.id)

/-- Whether an object is there and has no thread. -/
def isFree (m : Machine) (ref : ObjectRef) : Bool :=
  (m.heap.object? ref.id).any (·.thread.isNone)

/-- Every object has the running threads that it is marked with: one or none. -/
def Solo (m : Machine) : Prop :=
  ∀ oid, m.threadsOf oid = (m.heap.mark oid).toList

/-- Every thread was started when its object had none. -/
def Alone (m : Machine) : Prop :=
  ∀ t ∈ m.tenures, t.alone = true

/-- Numbers of threads are given once. -/
structure Numbered (m : Machine) : Prop where
  nodup : (m.tenures.map (·.id)).Nodup
  fresh : ∀ t ∈ m.tenures, t.id < m.scheduler.nextId

/-- Nothing happens to threads and `marks`. -/
structure Rests (m m' : Machine) : Prop where
  tenures : m'.tenures = m.tenures
  nextId : m'.scheduler.nextId = m.scheduler.nextId
  marks : ∀ oid, m'.heap.mark oid = m.heap.mark oid

/-- What may happen to threads and marks. -/
inductive ThreadStep (m : Machine) : Machine → Prop where
  /-- A thread is given to the scheduler. -/
  | spawn (name : String) (ref : ObjectRef) (time : Nat) (job : Job) :
    ThreadStep m (m.spawn name (some ref) time job).2
  /-- A `running` thread comes to its end. -/
  | finish (id : ThreadId) (outcome : Outcome)
      (hrunning : ∃ t ∈ m.tenures, t.id = id ∧ t.running = true) :
    ThreadStep m (m.finish id outcome)
  | rest {m' : Machine} (h : m.Rests m') : ThreadStep m m'

/-- Threads take turns in any order. -/
def ThreadSteps : Machine → Machine → Prop :=
  Relation.ReflTransGen ThreadStep

variable {m m' : Machine} {oid : ObjectId} {id : ThreadId}

theorem threadsOf_eq (htenures : m'.tenures = m.tenures) : m'.threadsOf oid = m.threadsOf oid := by
  rw [threadsOf, threadsOf, htenures]

theorem mem_threadsOf : id ∈ m.threadsOf oid ↔
    ∃ t ∈ m.tenures, t.id = id ∧ t.running = true ∧ t.object = some oid := by
  simp only [threadsOf, Tenure.runs, List.mem_map, List.mem_filter, Bool.and_eq_true, beq_iff_eq]
  refine exists_congr fun t => ⟨?_, ?_⟩
  · rintro ⟨⟨ht, hrunning, hobject⟩, hid⟩
    exact ⟨ht, hid, hrunning, hobject⟩
  · rintro ⟨ht, hid, hrunning, hobject⟩
    exact ⟨⟨ht, hrunning, hobject⟩, hid⟩

theorem Solo.mark_eq_iff (hm : m.Solo) : m.heap.mark oid = some id ↔ id ∈ m.threadsOf oid := by
  rw [hm oid, Option.mem_toList]

theorem Numbered.eq_of_id (hm : m.Numbered) {t t' : Tenure} (ht : t ∈ m.tenures)
    (ht' : t' ∈ m.tenures) (hid : t.id = t'.id) : t = t' :=
  List.inj_on_of_nodup_map hm.nodup ht ht' hid

/-! ### A new thread -/

section Spawn

variable {name : String} {ref : ObjectRef} {time : Nat} {job : Job}

theorem tenures_spawn : (m.spawn name (some ref) time job).2.tenures =
    m.tenures ++ [⟨m.scheduler.nextId, some ref.id, true, m.isFree ref⟩] := by
  simp only [tenures, spawn, Scheduler.spawn, List.map_append, List.map_singleton]
  rfl

theorem threadsOf_spawn : (m.spawn name (some ref) time job).2.threadsOf oid =
    m.threadsOf oid ++ if oid = ref.id then [m.scheduler.nextId] else [] := by
  rw [threadsOf, tenures_spawn, List.filter_append, List.map_append, threadsOf]
  congr 1
  by_cases hoid : oid = ref.id
  · simp [Tenure.runs, hoid]
  · simp [Tenure.runs, hoid, Ne.symm hoid]

theorem mark_spawn : (m.spawn name (some ref) time job).2.heap.mark oid =
    if oid = ref.id then (m.heap.object? oid).map fun _ => m.scheduler.nextId
    else m.heap.mark oid := by
  refine Heap.mark_setThread.trans ?_
  split
  · cases m.heap.object? oid <;> rfl
  · rfl

theorem isFree_iff :
    m.isFree ref = true ↔ (m.heap.object? ref.id).isSome = true ∧ m.heap.mark ref.id = none := by
  unfold isFree Heap.mark
  cases m.heap.object? ref.id with
  | none => simp
  | some object => simp

theorem solo_spawn_iff (hm : m.Solo) :
    (m.spawn name (some ref) time job).2.Solo ↔ m.isFree ref = true := by
  rw [isFree_iff]
  constructor
  · intro hsolo
    -- The new thread is the only one of its object.
    have hobject := hsolo ref.id
    rw [threadsOf_spawn, mark_spawn, if_pos rfl, if_pos rfl] at hobject
    cases hfound : m.heap.object? ref.id with
    | none =>
      rw [hfound] at hobject
      simp at hobject
    | some object =>
      rw [hfound] at hobject
      refine ⟨rfl, ?_⟩
      cases hmark : m.heap.mark ref.id with
      | none => rfl
      | some id =>
        rw [hm ref.id, hmark] at hobject
        cases hobject
  · rintro ⟨hobject, hmark⟩ oid
    rw [threadsOf_spawn, mark_spawn, hm oid]
    split
    · next hoid =>
      subst hoid
      obtain ⟨object, hobject⟩ := Option.isSome_iff_exists.1 hobject
      rw [hmark, hobject]
      rfl
    · exact List.append_nil _

theorem Numbered.spawn (hm : m.Numbered) : (m.spawn name (some ref) time job).2.Numbered := by
  refine ⟨?_, fun t ht => ?_⟩
  · rw [tenures_spawn, List.map_append, List.nodup_append]
    refine ⟨hm.nodup, List.nodup_singleton _, ?_⟩
    rintro _ hold _ hnew rfl
    obtain ⟨t, ht, hid⟩ := List.mem_map.1 hold
    have hlt := hm.fresh t ht
    rw [List.mem_singleton.1 hnew] at hid
    exact absurd hid (Nat.ne_of_lt hlt)
  · rw [tenures_spawn] at ht
    change t.id < m.scheduler.nextId + 1
    rcases List.mem_append.1 ht with ht | ht
    · exact Nat.lt_succ_of_lt (hm.fresh t ht)
    · rw [List.mem_singleton.1 ht]
      exact Nat.lt_succ_self _

end Spawn

/-! ### The end of a thread -/

section Finish

variable {outcome : Outcome}

theorem tenures_finish : (m.finish id outcome).tenures = m.tenures.map (·.ended id) := by
  simp only [tenures, finish, Scheduler.finish, Scheduler.modify, List.map_map]
  refine List.map_congr_left fun r _ => ?_
  simp only [Function.comp_apply, Tenure.ended, ThreadRecord.tenure, beq_iff_eq]
  split <;> rfl

theorem threadsOf_finish :
    (m.finish id outcome).threadsOf oid = (m.threadsOf oid).filter (· ≠ id) := by
  rw [threadsOf, threadsOf, tenures_finish]
  induction m.tenures with
  | nil => rfl
  | cons t rest ih =>
    by_cases hid : t.id = id
    · -- Whether it was running or not, it is not running now.
      have hended : (t.ended id).runs oid = false := by simp [Tenure.ended, Tenure.runs, hid]
      rw [List.map_cons, List.filter_cons_of_neg (by simp [hended]), ih]
      by_cases hruns : t.runs oid = true
      · simp [hruns, hid]
      · simp [hruns]
    · have hended : t.ended id = t := if_neg hid
      rw [List.map_cons, hended]
      by_cases hruns : t.runs oid = true
      · simp [hruns, hid, ih]
      · simp [hruns, ih]

theorem mark_finish : (m.finish id outcome).heap.mark oid =
    if ((m.scheduler.record? id).bind (·.object)).map (·.id) = some oid then none
    else m.heap.mark oid := by
  unfold finish
  dsimp only
  cases (m.scheduler.record? id).bind (·.object) with
  | none => rfl
  | some ref =>
    refine Heap.mark_setThread.trans ?_
    by_cases hoid : oid = ref.id
    · simp [hoid]
    · simp [hoid, Ne.symm hoid]

/-- No object has two threads after a thread has come to its end. -/
theorem Solo.finish (hm : m.Solo) (hnumbered : m.Numbered)
    (hrunning : ∃ t ∈ m.tenures, t.id = id ∧ t.running = true) : (m.finish id outcome).Solo := by
  obtain ⟨t, ht, hid, hrunning⟩ := hrunning
  have hobject : ((m.scheduler.record? id).bind (·.object)).map (·.id) = t.object := by
    obtain ⟨r, hr, rfl⟩ := List.mem_map.1 ht
    have hsome : (m.scheduler.record? id).isSome = true :=
      List.find?_isSome.2 ⟨r, hr, beq_iff_eq.2 hid⟩
    obtain ⟨found, hfound⟩ := Option.isSome_iff_exists.1 hsome
    -- The record that is found has the number, so it is the same thread.
    have hnumber : found.thread.id = id := by simpa using List.find?_some hfound
    have hsame : found.tenure = r.tenure := hnumbered.eq_of_id
      (List.mem_map_of_mem (List.mem_of_find?_eq_some hfound)) ht (hnumber.trans hid.symm)
    rw [hfound, ← hsame]
    rfl
  intro oid
  rw [threadsOf_finish, mark_finish, hobject]
  by_cases hoid : t.object = some oid
  · -- It was the only thread of the object.
    have hmark : m.heap.mark oid = some id :=
      hm.mark_eq_iff.2 (mem_threadsOf.2 ⟨t, ht, hid, hrunning, hoid⟩)
    rw [if_pos hoid, hm oid, hmark]
    simp
  · -- It is not a thread of the object.
    have hmark : id ∉ m.threadsOf oid := by
      intro hmem
      obtain ⟨t', ht', hid', -, hobject'⟩ := mem_threadsOf.1 hmem
      exact hoid (hnumbered.eq_of_id ht ht' (hid.trans hid'.symm) ▸ hobject')
    rw [if_neg hoid, ← hm oid]
    exact List.filter_eq_self.2 fun id' hid' => by
      have hne : id' ≠ id := by
        rintro rfl
        exact hmark hid'
      simpa using hne

theorem Numbered.finish (hm : m.Numbered) : (m.finish id outcome).Numbered := by
  have hids : (m.finish id outcome).tenures.map (·.id) = m.tenures.map (·.id) := by
    rw [tenures_finish, List.map_map]
    exact List.map_congr_left fun t _ => t.id_ended id
  refine ⟨hids ▸ hm.nodup, fun t ht => ?_⟩
  rw [tenures_finish] at ht
  obtain ⟨old, hold, rfl⟩ := List.mem_map.1 ht
  rw [Tenure.id_ended]
  exact hm.fresh old hold

end Finish

/-! ### Any number of steps -/

theorem ThreadStep.numbered (hs : m.ThreadStep m') (hm : m.Numbered) : m'.Numbered := by
  cases hs with
  | spawn => exact hm.spawn
  | finish => exact hm.finish
  | rest h =>
    refine ⟨h.tenures ▸ hm.nodup, fun t ht => ?_⟩
    rw [h.nextId]
    exact hm.fresh t (h.tenures ▸ ht)

theorem ThreadStep.alone (hs : m.ThreadStep m') (hm : m'.Alone) : m.Alone := by
  intro t ht
  cases hs with
  | spawn =>
    refine hm t ?_
    rw [tenures_spawn]
    exact List.mem_append_left _ ht
  | finish id outcome =>
    have halone := hm (t.ended id) (by rw [tenures_finish]; exact List.mem_map_of_mem ht)
    rwa [Tenure.alone_ended] at halone
  | rest h => exact hm t (h.tenures ▸ ht)

theorem ThreadStep.solo (hs : m.ThreadStep m') (hnumbered : m.Numbered) (hm : m.Solo)
    (halone : m'.Alone) : m'.Solo := by
  cases hs with
  | spawn name ref time job =>
    refine (solo_spawn_iff hm).2 ?_
    refine halone ⟨m.scheduler.nextId, some ref.id, true, m.isFree ref⟩ ?_
    rw [tenures_spawn]
    exact List.mem_append_right _ (List.mem_singleton.2 rfl)
  | finish id outcome hrunning => exact hm.finish hnumbered hrunning
  | rest h =>
    intro oid
    rw [threadsOf_eq h.tenures, h.marks, hm oid]

theorem ThreadSteps.numbered (hs : m.ThreadSteps m') (hm : m.Numbered) : m'.Numbered := by
  induction hs with
  | refl => exact hm
  | tail _ hlast ih => exact hlast.numbered ih

/-- As long as all threads were `Alone`, no object has more than one running thread. -/
theorem ThreadSteps.solo (hs : m.ThreadSteps m') (hnumbered : m.Numbered) (hm : m.Solo)
    (halone : m'.Alone) : m'.Solo := by
  induction hs with
  | refl => exact hm
  | tail hfirst hlast ih =>
    have hsolo := ih (hlast.alone halone)
    exact hlast.solo (ThreadSteps.numbered hfirst hnumbered) hsolo halone

end Machine

end Animator
