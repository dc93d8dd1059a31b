import Animator.Proofs.Success

/-!
# Assignments, seen from the machine

An assignment remembers what it stores, it stores that, and it may write a line into the log. All of
this is known from the machine that it begins with (`Machine.wrote`), also if storing the value
fails (`Engine.write_apply`).
-/

namespace Animator

namespace LogRecord

variable {r : LogRecord}

def isChange (r : LogRecord) : Bool :=
  "instance variable ".toList.isPrefixOf r.text.toList

theorem isChange_of_change (h : ∃ rest, r.text = "instance variable " ++ rest) :
    r.isChange = true := by
  obtain ⟨rest, h⟩ := h
  rw [isChange, h, String.toList_append]
  exact List.isPrefixOf_iff_prefix.2 (List.prefix_append _ _)

theorem isChange_of_trace (h : ∃ rest, r.text = "trace [" ++ rest) : r.isChange = false := by
  obtain ⟨rest, h⟩ := h
  rw [isChange, h, String.toList_append]
  rfl

end LogRecord

namespace Machine

/-- The stores of an assignment (`changesOf`) depend on the heap, and on whether the thread is in a
pure section. -/
theorem changesOf_congr {m m' : Machine} {id : ThreadId} (hheap : m'.heap = m.heap)
    (hpure : (m'.thread id).isPure = (m.thread id).isPure) (c : CellId) (path : List Segment)
    (v : Value) : m'.changesOf id c path v = m.changesOf id c path v := by
  have hby : m'.changeBy id = m.changeBy id := by
    funext isNested store
    rw [changeBy, hpure]
    rfl
  simp only [changesOf, hheap, hby]

def line? (m : Machine) (settings : Settings) (id : ThreadId) (c : CellId) (path : List Segment)
    (v : Value) : Option String :=
  let stored := Heap.storeAt c path v m.heap
  if settings.logInstanceChanges && !(m.thread id).isPure && stored.1.isOk then stored.2.change? c
  else none

def wrote (m : Machine) (settings : Settings) (id : ThreadId) (c : CellId) (path : List Segment)
    (v : Value) : Machine :=
  { m with
    heap := (Heap.storeAt c path v m.heap).2
    log := (m.line? settings id c path v).elim m.log fun text =>
      m.log.push { time := m.scheduler.time id, thread := id, text }
    changes := (m.changesOf id c path v).reverse ++ m.changes }

end Machine

namespace Engine

variable {E : Engine} {c : CellId} {path : List Segment} {v : Value} {location : Location}
  {inner ctx : Context} {m : Machine}

theorem logChange_apply :
    E.logChange c ctx m = (.ok (), { m with
      log := (if E.settings.logInstanceChanges && !(m.thread ctx.thread).isPure then m.heap.change?
        c
        else none).elim m.log fun text =>
          m.log.push { time := m.scheduler.time ctx.thread, thread := ctx.thread, text } }) := by
  rw [logChange, Eval.thread, reads_bind]
  by_cases hlogs : (E.settings.logInstanceChanges && !(m.thread ctx.thread).isPure) = true
  · rw [if_pos hlogs, if_pos hlogs, Eval.heap, reads_bind]
    cases m.heap.change? c <;> rfl
  · rw [if_neg hlogs, if_neg hlogs]
    rfl

/-- A `write` is a store, and what is logged and remembered of it. -/
theorem write_apply :
    E.write c path v location inner ctx m =
      E.lift (Heap.storeAt c path v m.heap).1 location inner
        (m.wrote E.settings ctx.thread c path v) := by
  rcases hstore : Heap.storeAt c path v m.heap with ⟨result, heap⟩
  let changes := (m.changesOf ctx.thread c path v).reverse ++ m.changes
  have hupdate : E.updateHeap (Heap.storeAt c path v) location inner { m with changes } =
      E.lift result location inner { m with heap, changes } := by
    refine bind_of_ok ?_
    dsimp only
    rw [hstore]
  have hwrite : E.write c path v location inner ctx m =
      (E.updateHeap (Heap.storeAt c path v) location inner >>= fun _ => E.logChange c ctx)
        { m with changes } :=
    bind_of_ok rfl
  rw [hwrite, Machine.wrote, Machine.line?, hstore]
  cases result with
  | ok =>
    rw [bind_of_ok hupdate, logChange_apply]
    simp only [Except.isOk, Except.toBool, Bool.and_true]
    rfl
  | error fault =>
    simp only [Except.isOk, Except.toBool, Bool.and_false, Bool.false_eq_true, if_false,
      Option.elim_none]
    -- Nothing comes after the failure.
    rcases hfail : (E.lift (.error fault) location inner : Eval Unit) { m with heap, changes } with
      ⟨halt | a, m'⟩
    · exact bind_of_error (hupdate.trans hfail)
    · exact absurd hfail fail_ne_ok

end Engine

end Animator
