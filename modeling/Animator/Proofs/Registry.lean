import Animator.Debug.Breakpoint
import Mathlib.Data.List.Induction
import Mathlib.Data.List.Nodup

/-!
# The table of breakpoints as a registry

Breakpoints are set and cleared in any order. Whether a breakpoint is there can be told from the
requests alone (`BreakpointTable.Stands`): it was set, and no later request has cleared its number
or set another one on its node. A request does to the table what it does to that
(`BreakpointTable.mem_entries_perform`, `BreakpointTable.stands_append`), so the two agree after any
number of requests.

The table keeps the breakpoints of nodes apart from the catchpoints, and both get their numbers from
one counter. That a number finds the right one depends on all of what is known of tables
(`BreakpointTable.Valid`), so the requests have to be followed one by one from the empty table.

`breakpoint_table_faithful` puts this together with the numbers and the order of the list.
-/

namespace Animator

namespace BreakpointTable

/-- What a debugger can ask of the table. -/
inductive Request where
  | stop (node : NodeId) (location : Location) (condition : StopCondition)
  | trace (node : NodeId) (location : Location) (exprs : List Expr)
  | catch (filter : Option String)
  | clear (number : Nat)

namespace Request

/-- The `Breakpoint` that is set with a number, if one is set. -/
def setting? (number : Nat) : Request → Option Breakpoint
  | .stop node location condition =>
    some { number, target := some (node, location), kind := .stop condition }
  | .trace node location exprs =>
    some { number, target := some (node, location), kind := .trace exprs }
  | .catch filter => some { number, target := none, kind := .catch filter }
  | .clear _ => none

/-- Whether a breakpoint is set. -/
def sets (r : Request) : Bool :=
  (r.setting? 0).isSome

/-- The `Request` clears the `Breakpoint`, or replaces it. -/
def Removes (b : Breakpoint) : Request → Prop
  | .stop node _ _ | .trace node _ _ => b.node? = some node
  | .catch _ => False
  | .clear number => b.number = number

end Request

/-- The table after a `Request`. -/
def perform (t : BreakpointTable) : Request → BreakpointTable
  | .stop node location condition => (t.setStop node location condition).2
  | .trace node location exprs => (t.setTrace node location exprs).2
  | .catch filter => (t.setCatch filter).2
  | .clear number => (t.clear number).2

/-- The table after some `requests`. -/
def ofRequests (requests : List Request) : BreakpointTable :=
  requests.foldl perform {}

/-- How many breakpoints were set. -/
def settings (requests : List Request) : Nat :=
  requests.countP (·.sets)

/-- The `Breakpoint` was set, and it has neither been cleared nor replaced since. -/
def Stands (requests : List Request) (b : Breakpoint) : Prop :=
  ∃ before r after, requests = before ++ r :: after ∧
    r.setting? (settings before + 1) = some b ∧ ∀ q ∈ after, ¬q.Removes b

/-! ### What stands -/

/-- A breakpoint `Stands` if the last request sets it, or does not remove it. -/
theorem stands_append (requests : List Request) (r : Request) (b : Breakpoint) :
    Stands (requests ++ [r]) b ↔
      Stands requests b ∧ ¬r.Removes b ∨ r.setting? (settings requests + 1) = some b := by
  constructor
  · rintro ⟨before, q, after, hsplit, hset, hafter⟩
    -- Either the breakpoint was set by the last request, or that one comes after it.
    rcases List.eq_nil_or_concat after with rfl | ⟨after, last, rfl⟩
    · obtain ⟨rfl, hlast⟩ := List.append_inj' hsplit rfl
      obtain rfl := List.singleton_inj.1 hlast
      exact .inr hset
    · have hsplit' : requests ++ [r] = (before ++ q :: after) ++ [last] := by simp [hsplit]
      obtain ⟨rfl, hlast⟩ := List.append_inj' hsplit' rfl
      obtain rfl := List.singleton_inj.1 hlast
      refine .inl ⟨⟨before, q, after, rfl, hset, fun p hp => hafter p ?_⟩, hafter r ?_⟩
      · simp [hp]
      · simp
  · rintro (⟨⟨before, q, after, rfl, hset, hafter⟩, hlast⟩ | hset)
    · refine ⟨before, q, after ++ [r], by simp, hset, fun p hp => ?_⟩
      rcases List.mem_append.1 hp with hp | hp
      · exact hafter p hp
      · rwa [List.mem_singleton.1 hp]
    · exact ⟨requests, r, [], rfl, hset, fun p hp => absurd hp List.not_mem_nil⟩

/-! ### Tables -/

/-- Numbers are given in order, a node has one breakpoint at most, and `catchpoints` have no node.
-/
structure Valid (t : BreakpointTable) : Prop where
  numbers : (t.entries.map (·.number)).Nodup
  le_count : ∀ b ∈ t.entries, b.number ≤ t.count
  nodes : (t.points.map (·.node?)).Nodup
  attached : ∀ b ∈ t.points, b.node? ≠ none
  unattached : ∀ b ∈ t.catchpoints, b.node? = none

theorem Valid.empty : Valid {} where
  numbers := .nil
  le_count := List.forall_mem_nil _
  nodes := .nil
  attached := List.forall_mem_nil _
  unattached := List.forall_mem_nil _

section Valid

variable {t : BreakpointTable} {a b : Breakpoint} {node : NodeId} (ht : t.Valid)

include ht

theorem Valid.eq_of_number (ha : a ∈ t.entries) (hb : b ∈ t.entries) (h : a.number = b.number) :
    a = b :=
  List.inj_on_of_nodup_map ht.numbers ha hb h

theorem Valid.eq_of_node? (ha : a ∈ t.points) (hb : b ∈ t.points) (h : a.node? = b.node?) : a = b :=
  List.inj_on_of_nodup_map ht.nodes ha hb h

/-- Only breakpoints in `points` have a node. -/
theorem Valid.mem_points (hb : b ∈ t.entries) (hnode : b.node? = some node) : b ∈ t.points := by
  refine (List.mem_append.1 hb).resolve_right fun hcatch => ?_
  rw [ht.unattached b hcatch] at hnode
  cases hnode

theorem Valid.at?_eq_some_iff (node : NodeId) (b : Breakpoint) :
    t.at? node = some b ↔ b ∈ t.entries ∧ b.node? = some node := by
  constructor
  · intro h
    exact ⟨List.mem_append_left _ (List.mem_of_find?_eq_some h), by simpa using List.find?_some h⟩
  · rintro ⟨hb, hnode⟩
    have hpoint : b ∈ t.points := ht.mem_points hb hnode
    have hfound : (t.at? node).isSome = true :=
      List.find?_isSome.2 ⟨b, hpoint, by simp [hnode]⟩
    obtain ⟨a, ha⟩ := Option.isSome_iff_exists.1 hfound
    have hnode' : a.node? = some node := by simpa using List.find?_some ha
    rw [ha, ht.eq_of_node? (List.mem_of_find?_eq_some ha) hpoint (hnode'.trans hnode.symm)]

/-- The `list` has the breakpoints of both containers, by increasing number. -/
theorem Valid.pairwise_list : t.list.Pairwise (·.number < ·.number) := by
  have hperm : t.list.Perm t.entries := List.mergeSort_perm _ _
  have hle : t.list.Pairwise (·.number ≤ ·.number) := by
    refine (List.pairwise_mergeSort ?_ ?_ t.entries).imp of_decide_eq_true
    · intro a b c hab hbc
      exact decide_eq_true (Nat.le_trans (of_decide_eq_true hab) (of_decide_eq_true hbc))
    · intro a b
      simpa using Nat.le_total a.number b.number
  have hne : t.list.Pairwise (·.number ≠ ·.number) :=
    List.pairwise_map.1 ((hperm.map _).nodup_iff.2 ht.numbers)
  exact (hle.and hne).imp fun h => Nat.lt_of_le_of_ne h.1 h.2

end Valid

theorem mem_list {t : BreakpointTable} {b : Breakpoint} : b ∈ t.list ↔ b ∈ t.entries :=
  List.mem_mergeSort

/-! ### Clearing -/

/-- Clearing by `clear` leaves the other breakpoints, in either container. -/
theorem Valid.clear {t : BreakpointTable} (ht : t.Valid) (number : Nat) :
    (t.clear number).2.points.Sublist t.points ∧
    (t.clear number).2.catchpoints.Sublist t.catchpoints ∧
    (t.clear number).2.count = t.count ∧
    (∀ b, b ∈ (t.clear number).2.entries ↔ b ∈ t.entries ∧ b.number ≠ number) ∧
    ((t.clear number).1 = true ↔ ∃ b ∈ t.entries, b.number = number) ∧
    ((t.clear number).1 = false → (t.clear number).2 = t) := by
  unfold BreakpointTable.clear
  split
  · next a hfound =>
    have ha : a ∈ t.points := List.mem_of_find?_eq_some hfound
    have hentry : a ∈ t.entries := List.mem_append_left _ ha
    have hnumber : a.number = number := by simpa using List.find?_some hfound
    -- Those of its node and those of its number are one and the same.
    have hpoint : ∀ b ∈ t.points, b.node? = a.node? ↔ b.number = number := fun b hb =>
      ⟨fun h => ht.eq_of_node? hb ha h ▸ hnumber,
        fun h => congrArg _
          (ht.eq_of_number (List.mem_append_left _ hb) hentry (h.trans hnumber.symm))⟩
    have hcatch : ∀ b ∈ t.catchpoints, b.number ≠ number := by
      intro b hb h
      obtain rfl := ht.eq_of_number (List.mem_append_right _ hb) hentry (h.trans hnumber.symm)
      exact ht.attached b ha (ht.unattached b hb)
    refine ⟨List.filter_sublist, .refl _, rfl, fun b => ?_, ?_, nofun⟩
    · simp only [entries, List.mem_append, List.mem_filter, bne_iff_ne]
      grind
    · exact iff_of_true rfl ⟨a, hentry, hnumber⟩
  · next hnone =>
    have hpoint : ∀ b ∈ t.points, b.number ≠ number := by simpa using hnone
    refine ⟨.refl _, List.filter_sublist, rfl, fun b => ?_, ?_, fun h => ?_⟩
    · simp only [entries, List.mem_append, List.mem_filter, bne_iff_ne]
      grind
    · rw [bne_iff_ne, ne_eq, List.length_filter_eq_length_iff]
      simp only [entries, List.mem_append, bne_iff_ne]
      grind
    · rw [bne_eq_false_iff_eq, List.length_filter_eq_length_iff] at h
      rw [List.filter_eq_self.2 h]

/-! ### Requests -/

section Perform

variable {t t' : BreakpointTable} {r : Request} {b : Breakpoint}

theorem Valid.of_sublist (ht : t.Valid) (hpoints : t'.points.Sublist t.points)
    (hcatchpoints : t'.catchpoints.Sublist t.catchpoints) (hcount : t'.count = t.count) :
    t'.Valid where
  numbers := ht.numbers.sublist ((hpoints.append hcatchpoints).map _)
  le_count b hb := hcount ▸ ht.le_count b ((hpoints.append hcatchpoints).subset hb)
  nodes := ht.nodes.sublist (hpoints.map _)
  attached b hb := ht.attached b (hpoints.subset hb)
  unattached b hb := ht.unattached b (hcatchpoints.subset hb)

/-- A breakpoint with a new number can be added to either container, `points` or `catchpoints`. -/
theorem Valid.of_perm (ht : t.Valid) (hnew : t.count < b.number)
    (hentries : t'.entries.Perm (b :: t.entries)) (hcount : t'.count = b.number)
    (hnodes : (t'.points.map (·.node?)).Nodup) (hattached : ∀ a ∈ t'.points, a.node? ≠ none)
    (hunattached : ∀ a ∈ t'.catchpoints, a.node? = none) : t'.Valid where
  numbers := by
    refine (hentries.map _).nodup_iff.2 (List.nodup_cons.2 ⟨?_, ht.numbers⟩)
    intro hmem
    obtain ⟨a, ha, hnumber⟩ := List.mem_map.1 hmem
    exact Nat.not_le.2 hnew (Nat.le_trans (Nat.le_of_eq hnumber.symm) (ht.le_count a ha))
  le_count a ha := by
    rw [hcount]
    rcases List.mem_cons.1 (hentries.mem_iff.1 ha) with rfl | ha
    · exact Nat.le_refl _
    · exact Nat.le_trans (ht.le_count a ha) (Nat.le_of_lt hnew)
  nodes := hnodes
  attached := hattached
  unattached := hunattached

theorem Valid.attach (ht : t.Valid) (hnext : t.nextNumber = t.count + 1) (node : NodeId)
    (location : Location) (kind : BreakpointKind) : (t.attach node location kind).2.Valid := by
  have hothers : ∀ a ∈ t.points.filter (·.node? != some node), a ∈ t.points ∧ a.node? ≠ some node :=
    fun a ha => by simpa using ha
  have hkept : Valid { t with points := t.points.filter (·.node? != some node) } :=
    ht.of_sublist List.filter_sublist (.refl _) rfl
  refine hkept.of_perm (b := ⟨t.nextNumber, some (node, location), kind, 0⟩)
    (hnext ▸ Nat.lt_succ_self _) ?_ rfl ?_ ?_ ht.unattached
  · simp [BreakpointTable.attach, entries]
  · refine (List.map_append ..).symm ▸ List.nodup_append.2 ⟨hkept.nodes, List.nodup_singleton _, ?_⟩
    rintro x hx y hy rfl
    obtain ⟨a, ha, rfl⟩ := List.mem_map.1 hx
    exact (hothers a ha).2 (List.mem_singleton.1 hy)
  · intro a ha
    rcases List.mem_append.1 ha with ha | ha
    · exact ht.attached a (hothers a ha).1
    · rw [List.mem_singleton.1 ha]
      exact Option.some_ne_none _

theorem Valid.perform (ht : t.Valid) (hnext : r.sets = true → t.nextNumber = t.count + 1) :
    (t.perform r).Valid := by
  cases r with
  | stop node location condition => exact ht.attach (hnext rfl) node location _
  | trace node location exprs => exact ht.attach (hnext rfl) node location _
  | «catch» filter =>
    refine ht.of_perm (b := ⟨t.nextNumber, none, .catch filter, 0⟩)
      (hnext rfl ▸ Nat.lt_succ_self _) ?_ rfl ht.nodes ht.attached ?_
    · simp [BreakpointTable.perform, setCatch, entries, ← List.append_assoc]
    · refine fun a ha => (List.mem_append.1 ha).elim (ht.unattached a) fun ha => ?_
      rw [List.mem_singleton.1 ha]
      rfl
  | clear number =>
    obtain ⟨hpoints, hcatchpoints, hcount, -⟩ := ht.clear number
    exact ht.of_sublist hpoints hcatchpoints hcount

/-- A `Request` leaves what it does not remove, and adds what it sets. -/
theorem mem_entries_perform (ht : t.Valid) (r : Request) (b : Breakpoint) :
    b ∈ (t.perform r).entries ↔
      b ∈ t.entries ∧ ¬r.Removes b ∨ r.setting? t.nextNumber = some b := by
  have hcatch : ∀ node, b ∈ t.catchpoints → b.node? ≠ some node := fun node hb => by
    simp [ht.unattached b hb]
  cases r with
  | clear number =>
    simp [BreakpointTable.perform, (ht.clear number).2.2.2.1, Request.Removes, Request.setting?]
  | «catch» filter =>
    simp [BreakpointTable.perform, setCatch, entries, Request.Removes, Request.setting?, eq_comm,
      or_assoc]
  | stop node | trace node =>
    simp only [BreakpointTable.perform, setStop, setTrace, BreakpointTable.attach, entries,
      List.mem_append, List.mem_filter, List.mem_singleton, Request.Removes, Request.setting?,
        bne_iff_ne,
      Option.some.injEq]
    grind

theorem count_perform (ht : t.Valid) :
    (t.perform r).count = if r.sets then t.nextNumber else t.count := by
  cases r with
  | clear number => exact (ht.clear number).2.2.1
  | _ => rfl

end Perform

theorem settings_append (requests : List Request) (r : Request) :
    settings (requests ++ [r]) = settings requests + if r.sets then 1 else 0 := by
  rw [settings, settings, List.countP_append, List.countP_singleton]

theorem ofRequests_append (requests : List Request) (r : Request) :
    ofRequests (requests ++ [r]) = (ofRequests requests).perform r :=
  List.foldl_append

/-- As long as the numbers last, the table is `Valid`, the last number is how many breakpoints were
set, and those that stand are in it. -/
theorem ofRequests_valid {requests : List Request} (h : settings requests < Word.size32) :
    (ofRequests requests).Valid ∧ (ofRequests requests).count = settings requests ∧
      ∀ b, b ∈ (ofRequests requests).entries ↔ Stands requests b := by
  induction requests using List.reverseRecOn with
  | nil =>
    refine ⟨.empty, rfl, fun b => iff_of_false List.not_mem_nil ?_⟩
    rintro ⟨before, r, after, hsplit, -⟩
    simp at hsplit
  | append_singleton requests r ih =>
    rw [settings_append] at h
    obtain ⟨hvalid, hcount, hmem⟩ := ih (Nat.lt_of_le_of_lt (Nat.le_add_right _ _) h)
    have hnext : r.sets = true → (ofRequests requests).nextNumber = settings requests + 1 := by
      intro hsets
      rw [if_pos hsets] at h
      rw [nextNumber, hcount, Nat.mod_eq_of_lt h]
    rw [ofRequests_append]
    refine ⟨hvalid.perform fun hsets => hcount.symm ▸ hnext hsets, ?_, fun b => ?_⟩
    · rw [count_perform hvalid, settings_append]
      split
      · next hsets => exact hnext hsets
      · exact hcount
    · rw [mem_entries_perform hvalid, stands_append, hmem]
      cases r with
      | clear number => exact Iff.rfl
      | _ => rw [hnext rfl]

end BreakpointTable

/-- Fewer than 2³² breakpoints of a `BreakpointTable` have been set, and any have been cleared. The
next one gets the next number. The list has the breakpoints that stand, by increasing number. The
breakpoint of a node is the one that is listed for it, if there is one. Clearing a number takes the
breakpoint with that number out, and nothing else, and it tells whether there is one. -/
theorem breakpoint_table_faithful (requests : List BreakpointTable.Request)
    (hsettings : BreakpointTable.settings requests < Word.size32) :
    let t := BreakpointTable.ofRequests requests
    let number := BreakpointTable.settings requests + 1
    (number < Word.size32 →
      (∀ node location condition, (t.setStop node location condition).1 = number) ∧
      (∀ node location exprs, (t.setTrace node location exprs).1 = number) ∧
      ∀ filter, (t.setCatch filter).1 = number) ∧
    t.list.Pairwise (·.number < ·.number) ∧
    (∀ b, b ∈ t.list ↔ BreakpointTable.Stands requests b) ∧
    (∀ node b, t.at? node = some b ↔ b ∈ t.list ∧ b.node? = some node) ∧
    ∀ n, ((t.clear n).1 = true ↔ ∃ b ∈ t.list, b.number = n) ∧
      ((t.clear n).1 = false → (t.clear n).2 = t) ∧
      ∀ b, b ∈ (t.clear n).2.list ↔ b ∈ t.list ∧ b.number ≠ n := by
  intro t number
  obtain ⟨hvalid, hcount, hmem⟩ := BreakpointTable.ofRequests_valid hsettings
  simp only [BreakpointTable.mem_list]
  refine ⟨fun hlt => ?_, hvalid.pairwise_list, hmem, hvalid.at?_eq_some_iff, fun n => ?_⟩
  · have hnext : t.nextNumber = number := by
      rw [BreakpointTable.nextNumber, hcount, Nat.mod_eq_of_lt hlt]
    exact ⟨fun _ _ _ => hnext, fun _ _ _ => hnext, fun _ => hnext⟩
  · obtain ⟨-, -, -, hcleared, hfound, hnone⟩ := hvalid.clear n
    exact ⟨hfound, hnone, hcleared⟩

/-- A `Breakpoint` is replaced, and its number finds nothing any more. What is collected is not in
the order of the numbers, but what is listed is. -/
theorem breakpoint_table_faithful_replaced :
    let requests : List BreakpointTable.Request :=
      [.stop 7 default .always, .catch none, .trace 7 default []]
    let t := BreakpointTable.ofRequests requests
    BreakpointTable.settings requests < Word.size32 ∧ t.entries.map (·.number) = [3, 2] ∧
      t.list.Pairwise (·.number < ·.number) ∧ (t.clear 1).1 = false ∧ (t.clear 1).2 = t := by
  intro requests t
  have hsettings : BreakpointTable.settings requests < Word.size32 := by decide
  obtain ⟨-, hlist, -, -, hclear⟩ := breakpoint_table_faithful requests hsettings
  have hnone : (t.clear 1).1 = false := by decide
  exact ⟨hsettings, by decide, hlist, hnone, (hclear 1).2.1 hnone⟩

end Animator
