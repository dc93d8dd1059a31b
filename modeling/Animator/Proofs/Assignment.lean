import Animator.Proofs.Effect.Session
import Animator.Proofs.Quiet
import Animator.Proofs.Store.Place

/-!
# Assignments

A designator leads to a place (`Designator.Leads`), and an assignment to it stores the value there
(`Engine.assign_spec`). So no cell changes but that of the place, and nothing in it but what the
designator leads to. An expression of the same form reads what is at the place (`Engine.read_spec`).
That is the assigned value, unless the cell of the place is also one of those on the way to it: then
the assignment itself may make the designator lead elsewhere.

`assignment_updates_one_place` is both together.
-/

namespace Animator

/-! ### Designators -/

namespace Designator

/-- A `Designator` leads to a place. Its indices are integer literals. -/
inductive Leads (look : Name → Option Value) (h : Heap) : Designator → Place → Prop where
  /-- A name leads to the cell of a variable. -/
  | name {name : Name} {c : CellId} (hc : look name = some (.updatable c)) :
    Leads look h (.name name) ⟨[], c, []⟩
  /-- A field leads to a component of a record, or to the cell of a member. -/
  | field {d : Designator} {name : Name} {p q : Place} (hd : Leads look h d p)
      (hq : h.Goes p (.field name) q) : Leads look h (.field d name) q
  /-- An `index` leads to a component of a sequence. -/
  | index {d : Designator} {index : Expr} {i : Int} {p q : Place} (hd : Leads look h d p)
      (hi : index.kind = .literal (.int i)) (hq : h.Goes p (.index i) q) :
    Leads look h (.index d index) q

/-- The place that a `Designator` leads to, computed. -/
def place? (look : Name → Option Value) (h : Heap) : Designator → Option Place
  | .name n =>
    match look n with
    | some (.updatable c) => some ⟨[], c, []⟩
    | _ => none
  | .field d n => (d.place? look h).bind (h.step? · (.field n))
  | .index d e =>
    match e.kind with
    | .literal (.int i) => (d.place? look h).bind (h.step? · (.index i))
    | _ => none

theorem Leads.place?_eq {look : Name → Option Value} {h : Heap} {d : Designator} {p : Place}
    (hd : d.Leads look h p) : d.place? look h = some p := by
  induction hd with
  | name hc => simp only [Designator.place?, hc]
  | field _ hq ih =>
    rw [Designator.place?, ih]
    exact hq.step?_eq
  | index _ hi hq ih =>
    simp only [Designator.place?, hi, ih]
    exact hq.step?_eq

def HasLiteralIndices : Designator → Prop
  | .name _ => True
  | .field d _ => d.HasLiteralIndices
  | .index d e => d.HasLiteralIndices ∧ ∃ i, e.kind = .literal (.int i)

/-- The number of steps after the name. -/
def depth : Designator → Nat
  | .name _ => 0
  | .field d _ => d.depth + 1
  | .index d _ => d.depth + 1

/-- An expression that has the form of a `Designator`. -/
inductive Reading : Designator → Expr → Prop where
  | name {name : Name} {e : Expr} (he : e.kind = .name name) : Reading (.name name) e
  | field {d : Designator} {name : Name} {e object : Expr} (he : e.kind = .field object name)
      (hobject : Reading d object) : Reading (.field d name) e
  | index {d : Designator} {e root index arg : Expr} (he : e.kind = .apply root [arg])
      (hroot : Reading d root) (harg : arg.kind = index.kind) : Reading (.index d index) e

/-- Such an expression, all on one line. -/
def toExpr : Designator → Expr
  | .name n => .onLine 9 (.name n)
  | .field d n => .onLine 9 (.field d.toExpr n)
  | .index d e => .onLine 9 (.apply d.toExpr [e])

theorem reading_toExpr (d : Designator) : d.Reading d.toExpr := by
  induction d with
  | name => exact .name rfl
  | field _ _ ih => exact .field rfl ih
  | index _ _ ih => exact .index rfl ih rfl

/-- A cell and a path for a `Designator`. The cells before that one have been left as a whole, and
the path does not begin with a member of an object. -/
structure Resolved (look : Name → Option Value) (h : Heap) (d : Designator)
    (before : List (CellId × List Segment)) (c : CellId) (path : List Segment) : Prop where
  whole : ∀ left ∈ before, left.2 = []
  first : ∀ {name rest ref}, path = .field name :: rest → h.content c ≠ .object ref
  leads : ∀ {q}, h.Walk ⟨before, c, []⟩ path q → d.Leads look h q

section Resolved

variable {look : Name → Option Value} {h : Heap} {d : Designator} {name : Name} {c c' : CellId}
  {before : List (CellId × List Segment)} {path : List Segment}

theorem Resolved.ofName (hc : look name = some (.updatable c)) :
    Resolved look h (.name name) [] c [] where
  whole _ hleft := absurd hleft List.not_mem_nil
  first hpath := absurd hpath (List.cons_ne_nil _ _).symm
  leads hwalk := hwalk ▸ .name hc

theorem Resolved.member {ref : ObjectRef} (hd : Resolved look h d before c [])
    (hobject : h.content c = .object ref) (hmember : h.field ref name = .ok (.updatable c')) :
    Resolved look h (.field d name) (before ++ [(c, [])]) c' [] where
  whole left hleft := by
    rcases List.mem_append.1 hleft with hleft | hleft
    · exact hd.whole left hleft
    · rw [List.mem_singleton.1 hleft]
  first hpath := absurd hpath (List.cons_ne_nil _ _).symm
  leads hwalk := by
    have hp : d.Leads look h ⟨before, c, []⟩ := hd.leads rfl
    have hread : h.read? ⟨before, c, []⟩ = some (.object ref) := congrArg some hobject
    exact hwalk ▸ .field hp (.member hread hmember)

theorem Resolved.step {s : Segment} {d' : Designator} (hd : Resolved look h d before c path)
    (hs : ∀ {name ref}, path = [] → s = .field name → h.content c ≠ .object ref)
    (hleads : ∀ {p q}, d.Leads look h p → h.Goes p s q → d'.Leads look h q) :
    Resolved look h d' before c (path ++ [s]) where
  whole := hd.whole
  first {name rest ref} hpath := by
    cases path with
    | nil => exact hs rfl (List.cons.inj hpath).1
    | cons s' rest' => exact hd.first (congrArg (· :: rest') (List.cons.inj hpath).1)
  leads hwalk := by
    obtain ⟨p, hp, q, hq, rfl⟩ := Heap.Walk.append.1 hwalk
    exact hleads (hd.leads hp) hq

end Resolved

end Designator

namespace Engine

open Designator

variable {P : Program} {n : Nat} {e : Expr} {i j : Int} {d : Designator} {v : Value} {p : Place}
  {location : Location} {c : Context} {m m' : Machine} {cell : CellId} {path : List Segment}

/-! ### Literals -/

theorem expr_of_literal (hm : m.Quiet c.thread) (he : e.kind = .literal (.int i)) :
    ∃ m', m.Unmoved c.thread m' ∧ (P.engine (n + 1)).expr e c m = (.ok (.int i), m') := by
  obtain ⟨m', hunmoved, hexpr⟩ := expr_of_quiet (P := P) (n := n) (e := e) hm
  rw [he] at hexpr
  exact ⟨m', hunmoved, hexpr⟩

theorem int_of_literal (hm : m.Quiet c.thread) (he : e.kind = .literal (.int i))
    (hrun : (P.engine n).int e c m = (.ok j, m')) : j = i ∧ m.Unmoved c.thread m' := by
  obtain ⟨v, m₁, hexpr, hrun⟩ := exists_of_bind_eq_ok hrun
  obtain ⟨hint, rfl⟩ := eq_ok_of_consultHeap hrun
  cases n with
  | zero => cases hexpr
  | succ n =>
    obtain ⟨m₂, hunmoved, hexpr'⟩ := expr_of_literal (P := P) (n := n) hm he
    rw [hexpr'] at hexpr
    cases hexpr
    exact ⟨(Except.ok.inj hint).symm, hunmoved⟩

/-! ### Targets -/

/-- What `target` finds, for a designator with literal indices. -/
theorem target_spec (hd : d.HasLiteralIndices) (hm : m.Quiet c.thread) (hplain : m.heap.IsPlain)
    (hrun : (P.engine n).target location c d m = (.ok (cell, path), m')) :
    m.Unmoved c.thread m' ∧
      ∃ before, Resolved (c.lookup m.globals m.heap) m.heap d before cell path := by
  induction d generalizing cell path m' with
  | name name =>
    obtain ⟨found, m₁, hfound, hrun⟩ := exists_of_bind_eq_ok hrun
    cases hfound
    dsimp only at hrun
    cases hv : c.lookup m.globals m.heap name with
    | none =>
      rw [hv] at hrun
      exact absurd hrun fail_ne_ok
    | some v =>
      rw [hv] at hrun
      obtain ⟨c', m₂, hlift, hpure⟩ := exists_of_bind_eq_ok hrun
      obtain ⟨hcell, rfl⟩ := eq_ok_of_lift hlift
      cases hpure
      exact ⟨.refl, [], .ofName (Heap.eq_updatable_of_cell hcell ▸ hv)⟩
  | field d name ih =>
    obtain ⟨⟨c₁, path₁⟩, m₁, htarget, hrun⟩ := exists_of_bind_eq_ok hrun
    obtain ⟨hunmoved, before, hresolved⟩ := ih hd htarget
    obtain ⟨h, m₂, hheap, hrun⟩ := exists_of_bind_eq_ok hrun
    cases hheap
    dsimp only at hrun
    rw [hunmoved.heap, Heap.deref_eq_self (hplain c₁)] at hrun
    -- Only with an empty path is an object entered at once. Later ones are left to the store.
    cases path₁ with
    | cons s rest =>
      cases hrun
      refine ⟨hunmoved, before, hresolved.step (fun hpath => ?_) .field⟩
      exact absurd hpath (List.cons_ne_nil s rest)
    | nil =>
      cases hcontent : m.heap.content c₁ with
      | object ref =>
        rw [hcontent] at hrun
        obtain ⟨c₂, m₂, hlift, hpure⟩ := exists_of_bind_eq_ok hrun
        obtain ⟨hcell, rfl⟩ := eq_ok_of_lift hlift
        cases hpure
        exact ⟨hunmoved, _, hresolved.member hcontent (Heap.field_of_cell hcell)⟩
      | _ =>
        rw [hcontent] at hrun
        cases hrun
        refine ⟨hunmoved, before, hresolved.step (fun _ _ hobject => ?_) .field⟩
        cases hcontent.symm.trans hobject
  | index d index ih =>
    obtain ⟨hd, i, hi⟩ := hd
    obtain ⟨⟨c₁, path₁⟩, m₁, htarget, hrun⟩ := exists_of_bind_eq_ok hrun
    obtain ⟨hunmoved, before, hresolved⟩ := ih hd htarget
    obtain ⟨j, m₂, hint, hrun⟩ := exists_of_bind_eq_ok hrun
    obtain ⟨rfl, hunmoved'⟩ :=
      int_of_literal (c := c.hold (.updatable c₁)) (hunmoved.quiet hm) hi hint
    cases hrun
    refine ⟨hunmoved.trans hunmoved', before, hresolved.step ?_ fun hp hq => .index hp hi hq⟩
    exact fun _ hs => Segment.noConfusion hs

/-- An assignment stores the value (`Stored`) at the place that the designator leads to. -/
theorem assign_spec (hd : d.HasLiteralIndices) (hm : m.Quiet c.thread) (hplain : m.heap.IsPlain)
    (hv : v.isPlain = true)
    (hrun : (P.engine n).assign d v location c m = (.ok (), m')) :
    ∃ p, d.Leads (c.lookup m.globals m.heap) m.heap p ∧
      m.heap.Stored v p p.rewritten m'.heap ∧ m'.globals = m.globals ∧ m'.Quiet c.thread := by
  obtain ⟨⟨cell, path⟩, m₁, htarget, hrun⟩ := exists_of_bind_eq_ok hrun
  obtain ⟨hunmoved, before, hresolved⟩ := target_spec (c := c.hold v) hd hm hplain htarget
  dsimp only at hrun
  rw [write_apply] at hrun
  obtain ⟨hok, rfl⟩ := eq_ok_of_lift hrun
  have hstore : Heap.storeAt cell path v m.heap =
      (.ok (), (Heap.storeAt cell path v m₁.heap).2) := by
    rw [← hunmoved.heap, ← hok]
    rfl
  obtain ⟨p, later, hwalk, hthrough, hstored⟩ := Heap.storeAt_spec hplain hv before hstore
  rw [← hwalk.rewritten hresolved.whole hresolved.first hthrough] at hstored
  exact ⟨p, hresolved.leads hwalk, hstored, hunmoved.globals, { hunmoved.quiet hm with }⟩

/-! ### Reading back -/

theorem select_of_goes {h : Heap} {w : Value} {name : Name} {p q : Place}
    (hplain : h.IsPlain) (hw : h.read? p = some w) (hgoes : h.Goes p (.field name) q) :
    ∃ member, h.select w name = .ok member ∧ h.read? q = some (h.deref member) := by
  have hderef : h.deref w = w := Heap.deref_eq_self (Value.isPlain_at (hplain p.cell) hw)
  cases hgoes with
  | @inside _ x hx =>
    refine ⟨x, ?_, by rw [hx, Heap.deref_eq_self (Value.isPlain_at (hplain p.cell) hx)]⟩
    rw [Heap.read?_append hw] at hx
    rw [Heap.select, hderef]
    cases w with
    | record tag fields =>
      obtain ⟨f, hf, rfl⟩ := Option.map_eq_some_iff.1 hx
      dsimp only
      rw [hf]
    | _ => cases hx
  | @member ref _ cell hobject hmember =>
    obtain rfl : w = .object ref := Option.some.inj (hw.symm.trans hobject)
    refine ⟨.updatable cell, hmember, ?_⟩
    rw [Heap.deref_updatable (hplain cell)]
    rfl

theorem itemAt_of_goes {h : Heap} {w : Value} {p q : Place} (hw : h.read? p = some w)
    (hgoes : h.Goes p (.index i) q) :
    ∃ items x, w = .seq items ∧ itemAt items i = .ok x ∧ h.read? q = some x := by
  cases hgoes with
  | @inside _ x hx =>
    have hitem := hx
    rw [Heap.read?_append hw] at hitem
    cases w with
    | seq items =>
      refine ⟨items, x, rfl, ?_, hx⟩
      rw [Value.component?] at hitem
      rw [itemAt, hitem]
    | _ => cases hitem

theorem apply_seq {E : Engine} {items : List Value} {x : Value} (hx : itemAt items i = .ok x) :
    E.apply (.seq items) [.int i] location c m = (.ok x, m) := by
  have hint : m.heap.integer (.int i) = .ok i := rfl
  refine (bind_of_ok (consultHeap_of_ok hint)).trans ?_
  rw [hx]
  rfl

/-- An expression of the form of a designator reads what is at the place (`read?`). -/
theorem read_spec (hleads : d.Leads (c.lookup m.globals m.heap) m.heap p) (hreading : d.Reading e)
    (hn : d.depth ≤ n) (hm : m.Quiet c.thread) (hplain : m.heap.IsPlain)
    (hunmoved : m.Unmoved c.thread m') :
    ∃ w m'', m.heap.read? p = some w ∧ (P.engine (n + 1)).expr e c m' = (.ok w, m'') ∧
      m.Unmoved c.thread m'' := by
  -- Evaluating the parts moves the machine, so the induction is for all machines like the first.
  induction hleads generalizing e n m' with
  | @name name cell hc =>
    cases hreading with
    | name he =>
      obtain ⟨m₁, hunmoved₁, hexpr⟩ := expr_of_quiet (P := P) (n := n) (e := e) (hunmoved.quiet hm)
      have hunmoved₁ := hunmoved.trans hunmoved₁
      have hlookup : Eval.lookup c name m₁ = (.ok (some (.updatable cell)), m₁) := by
        rw [← hc, ← hunmoved₁.globals, ← hunmoved₁.heap]
        rfl
      -- The name stands for the cell, and evaluating it gives the content.
      refine ⟨_, m₁, rfl, ?_, hunmoved₁⟩
      rw [hexpr, he, exprKind, bind_of_ok hlookup]
      rw [← Heap.deref_updatable (hplain cell), ← hunmoved₁.heap]
      rfl
  | field hd hq ih =>
    cases n with
    | zero => exact absurd hn (Nat.not_succ_le_zero _)
    | succ n =>
      cases hreading with
      | field he hobject =>
        obtain ⟨m₁, hunmoved₁, hexpr⟩ :=
          expr_of_quiet (P := P) (n := n + 1) (e := e) (hunmoved.quiet hm)
        obtain ⟨w, m₂, hw, hobject, hunmoved₂⟩ :=
          ih hobject (Nat.le_of_succ_le_succ hn) (hunmoved.trans hunmoved₁)
        obtain ⟨member, hselect, hread⟩ := select_of_goes hplain hw hq
        refine ⟨_, m₂, hread, ?_, hunmoved₂⟩
        rw [← hunmoved₂.heap] at hselect ⊢
        rw [hexpr, he, exprKind, bind_of_ok hobject, bind_of_ok (consultHeap_of_ok hselect)]
        rfl
  | index hd hi hq ih =>
    cases n with
    | zero => exact absurd hn (Nat.not_succ_le_zero _)
    | succ n =>
      cases hreading with
      | index he hroot harg =>
        obtain ⟨m₁, hunmoved₁, hexpr⟩ :=
          expr_of_quiet (P := P) (n := n + 1) (e := e) (hunmoved.quiet hm)
        obtain ⟨w, m₂, hw, hroot, hunmoved₂⟩ :=
          ih hroot (Nat.le_of_succ_le_succ hn) (hunmoved.trans hunmoved₁)
        obtain ⟨items, x, rfl, hitem, hread⟩ := itemAt_of_goes hw hq
        obtain ⟨m₃, hunmoved₃, hliteral⟩ := expr_of_literal (P := P) (n := n)
          (c := c.hold (.seq items)) (hunmoved₂.quiet hm) (harg.trans hi)
        refine ⟨x, m₃, hread, ?_, hunmoved₂.trans hunmoved₃⟩
        have hargs : (P.engine (n + 1)).exprs (c.hold (.seq items)) [_] m₂ = (.ok [.int _], m₃) :=
          bind_of_ok hliteral
        rw [hexpr, he, exprKind, bind_of_ok hroot, bind_of_ok hargs]
        exact apply_seq hitem

end Engine

/-! ### Assignments -/

section Store

variable {g : Globals} {h : Heap} {name : Name} {c : Context} {cell : CellId} {x : Value}
  {look : Name → Option Value} {d : Designator} {p : Place}

theorem Scope.lookup_store {scopes : List Scope} :
    Scope.lookup g (h.store cell x) name scopes = Scope.lookup g h name scopes := by
  induction scopes with
  | nil => rfl
  | cons s rest ih =>
    rw [Scope.lookup, Scope.lookup, ih]
    rfl

/-- What names stand for (`lookup`) does not depend on the contents of cells. -/
theorem Context.lookup_store : c.lookup g (h.store cell x) = c.lookup g h :=
  funext fun _ => Scope.lookup_store

namespace Designator

theorem Leads.exists_read? (hd : d.Leads look h p) : ∃ w, h.read? p = some w := by
  cases hd with
  | name => exact ⟨_, rfl⟩
  | field _ hq => exact hq.exists_read?
  | index _ _ hq => exact hq.exists_read?

/-- A designator `Leads` to the same place after a cell has been written that is not on the way. -/
theorem Leads.store (hd : d.Leads look h p) (hcell : cell ∉ p.visited)
    (hread : ((h.store cell x).read? p).isSome = true) : d.Leads look (h.store cell x) p := by
  induction hd with
  | name hc => exact .name hc
  | field _ hq ih =>
    obtain ⟨hgoes, hcell, hread⟩ := hq.store hcell hread
    exact .field (ih hcell hread) hgoes
  | index _ hi hq ih =>
    obtain ⟨hgoes, hcell, hread⟩ := hq.store hcell hread
    exact .index (ih hcell hread) hi hgoes

end Designator

end Store

/-- An assignment changes no cell but that of the place which the `Designator` leads to, and in that
cell nothing beside the place. If the cell is not written again, then the value is put there; if it
is not on the way at all, then the designator reads as the value. -/
theorem assignment_updates_one_place (P : Program) (bound : Nat) (d : Designator) (v : Value)
    (location : Location) (c : Context) (m m' : Machine) (hd : d.HasLiteralIndices)
    (hm : m.Quiet c.thread) (hplain : m.heap.IsPlain) (hv : v.isPlain = true)
    (hrun : (P.engine bound).assign d v location c m = (.ok (), m')) :
    ∃ p : Place, d.Leads (c.lookup m.globals m.heap) m.heap p ∧
      (∀ cell, cell ≠ p.cell → m'.heap.content cell = m.heap.content cell) ∧
      (∀ path, Value.Diverge p.inside path →
        (m'.heap.content p.cell).at? path = (m.heap.content p.cell).at? path) ∧
      (p.cell ∉ p.rewritten →
        m'.heap.content p.cell = Value.put v (m.heap.content p.cell) p.inside) ∧
      (p.cell ∉ p.visited → ∀ e n, d.Reading e → d.depth < n →
        ((P.engine n).expr e c m').1 = .ok v) := by
  obtain ⟨p, hleads, hstored, hglobals, hquiet⟩ := Engine.assign_spec hd hm hplain hv hrun
  have hcontent : p.cell ∉ p.rewritten →
      m'.heap.content p.cell = Value.put v (m.heap.content p.cell) p.inside := by
    intro hrewritten
    obtain ⟨hexists, hheap⟩ := hstored.eq_store hrewritten
    rw [hheap, Heap.content_store hexists]
  refine ⟨p, hleads, fun _ => hstored.content_of_ne, fun _ => hstored.at?_of_diverge, hcontent, ?_⟩
  -- A cell that is not on the way is not written again either.
  intro hvisited e n hreading hn
  have hrewritten : p.cell ∉ p.rewritten := fun hmem => hvisited (Place.rewritten_subset hmem)
  -- The value is at the place, and the designator still leads there.
  obtain ⟨old, hold⟩ := hleads.exists_read?
  have hread : m'.heap.read? p = some v := by
    rw [Heap.read?, hcontent hrewritten]
    exact Value.at?_put hold
  have hleads' : d.Leads (c.lookup m'.globals m'.heap) m'.heap p := by
    obtain ⟨-, hheap⟩ := hstored.eq_store hrewritten
    rw [hheap] at hread ⊢
    rw [hglobals, Context.lookup_store]
    exact hleads.store hvisited (Option.isSome_iff_exists.2 ⟨v, hread⟩)
  obtain ⟨n, rfl⟩ := Nat.exists_eq_add_of_lt hn
  obtain ⟨w, _, hw, hexpr, -⟩ := Engine.read_spec (P := P) hleads' hreading
    (Nat.le_add_right d.depth n) hquiet (hstored.isPlain hv hplain) .refl
  rw [hexpr]
  exact congrArg Except.ok (Option.some.inj (hw.symm.trans hread))

def ringName (text : String) : Name :=
  { module := "Ring", text }

def ringVariable (text : String) (ty : Ty) : InstanceVarDef :=
  { name := ringName text, ty, init := none, isStatic := false, location := .onLine 1 }

def ringAssign (line : Nat) (text : String) (value : ExprKind) : Stmt :=
  .onLine line (.assign ⟨.name (ringName text), .onLine line value, .onLine line⟩)

def ringIndex (i : Int) : Expr :=
  .onLine 8 (.literal (.int i))

/-- A class whose objects refer to themselves, by a variable and in a sequence. -/
def ringClass : ClassDef :=
  { name := "Ring", location := .onLine 1
    instanceVars := [ringVariable "next" .unknown, ringVariable "items" .unknown,
      ringVariable "voids" (.seq .void), ringVariable "ints" (.set .int),
      ringVariable "own" (.product [.unknown])]
    values := [], functions := [], invariants := [], thread := none
    operations := [
      .plain "Ring" "Ring" (.onLine 2 (.block []
        [ringAssign 3 "next" .selfRef,
          ringAssign 4 "items" (.seqEnum
            [.onLine 4 .selfRef, .onLine 4 (.mkRecord "Pair" [("x", ringIndex 0)])])])),
      { OperationDef.plain "Ring" "cut" (.onLine 5 (.block []
        [ringAssign 6 "next" (.literal .nil),
          .onLine 7 (.return (some (.onLine 7 (.literal (.bool false)))))])) with result :=
            .bool }] }

def ringProgram : Program :=
  { model := { classes := [ringClass] } }

def ringMachine : Machine :=
  ((Entry.newInstance "Ring" []).run (ringProgram.engine 19)
    ((ringProgram.engine 19).initialise (Machine.initial ringProgram {})).2).2

def ringContext : Context :=
  { inner :=
      { id := 0, title := "", location := .onLine 9, root := some { kind := .object ⟨1, "Ring"⟩ } }
    thread := mainThread }

def ringNumber : Designator :=
  .field (.index (.field (.name (ringName "next")) (ringName "items")) (ringIndex 2)) (ringName "x")

/-- The `ringNumber` is assigned in the sequence of the `ringMachine` and read back. -/
theorem assignment_updates_one_place_ring :
    let out := (ringProgram.engine 19).assign ringNumber (.int 7) (.onLine 9) ringContext
      ringMachine
    ringMachine.Quiet mainThread ∧ ringMachine.heap.IsPlain ∧
      (∀ cell, cell ≠ 1 → out.2.heap.content cell = ringMachine.heap.content cell) ∧
      out.2.heap.content 1 = Value.put (.int 7) (ringMachine.heap.content 1)
        [.index 2, .field (ringName "x")] ∧
      ((ringProgram.engine 4).expr ringNumber.toExpr ringContext out.2).1 = .ok (.int 7) := by
  intro out
  have hquiet : ringMachine.Quiet mainThread := by decide +kernel
  have hplain : ringMachine.heap.IsPlain := by decide +kernel
  have hok : out.1.toOption = some () := by decide +kernel
  have hrun : (ringProgram.engine 19).assign ringNumber (.int 7) (.onLine 9) ringContext
      ringMachine = (.ok (), out.2) := eq_ok_of_toOption hok
  -- From here on only the theorem is used, and the run is not looked into.
  clear_value out
  have hplace : ringNumber.place? (ringContext.lookup ringMachine.globals ringMachine.heap)
      ringMachine.heap = some ⟨[(0, [])], 1, [.index 2, .field (ringName "x")]⟩ := by
    decide +kernel
  obtain ⟨p, hleads, hframe, -, hput, hread⟩ := assignment_updates_one_place ringProgram 19
    ringNumber (.int 7) (.onLine 9) ringContext ringMachine out.2 ⟨trivial, 2, rfl⟩ hquiet hplain
    rfl hrun
  obtain rfl := Option.some.inj (hleads.place?_eq.symm.trans hplace)
  exact ⟨hquiet, hplain, hframe, hput (by decide),
    hread (by decide) _ 4 ringNumber.reading_toExpr (by decide)⟩

/-- Reading a `Designator` right after an assignment to it gives a value equal to the assigned one.
-/
def ReadsBack (P : Program) (bound : Nat) (c : Context) (m : Machine) (d : Designator)
    (v : Value) : Prop :=
  ∀ m', (P.engine bound).assign d v (.onLine 9) c m = (.ok (), m') →
    ∃ w, ((P.engine bound).expr d.toExpr c m').1 = .ok w ∧ m'.heap.compare w v = .eq

theorem not_readsBack {P : Program} {bound : Nat} {c : Context} {m : Machine} {d : Designator}
    {v : Value}
    (hassign : ((P.engine bound).assign d v (.onLine 9) c m).1.toOption = some ())
    (hread : (let m' := ((P.engine bound).assign d v (.onLine 9) c m).2
      ((P.engine bound).expr d.toExpr c m').1.toOption.all (m'.heap.compare · v != .eq)) = true) :
    ¬ReadsBack P bound c m d v := by
  intro h
  obtain ⟨w, hw, hcompare⟩ := h _ (eq_ok_of_toOption hassign)
  simp only [hw, Except.toOption, Option.all_some, hcompare] at hread
  cases hread

def ringStopping (condition : StopCondition) (link : Option Link) : Machine :=
  { ringMachine with
    breakpoints := (BreakpointTable.setStop {} 9 (.onLine 9) condition).2, link }

/-- In the `ringMachine` it is not true that what has been assigned is always read back. A cell on
the way may be the one that changes, or be written again. Values may be converted when they are
stored: returns without a value in them, sets that are not in order, and cells. The debugger may
change a variable before it is read, or end the execution. -/
theorem not_assignment_reads_back :
    ringMachine.Reachable ringProgram .all ∧
      (∀ condition link, (ringStopping condition link).Reachable ringProgram .all) ∧
      ringMachine.heap.IsPlain ∧
      ¬ReadsBack ringProgram 19 ringContext ringMachine
        (.field (.name (ringName "next")) (ringName "next")) .nil ∧
      ¬ReadsBack ringProgram 19 ringContext ringMachine
        (.field (.index (.field (.index (.name (ringName "items")) (ringIndex 1))
          (ringName "items"))
          (ringIndex 2)) (ringName "x")) (.int 7) ∧
      ¬ReadsBack ringProgram 19 ringContext ringMachine (.name (ringName "voids"))
        (.seq [.voidReturn]) ∧
      ¬ReadsBack ringProgram 19 ringContext ringMachine (.name (ringName "ints"))
        (.set [.int 2, .int 1]) ∧
      ¬ReadsBack ringProgram 19 ringContext ringMachine (.name (ringName "own"))
        (.tuple [.updatable 4]) ∧
      ¬ReadsBack ringProgram 19 ringContext
        (ringStopping (.expr (.onLine 8 (.apply (.onLine 8 (.name (ringName "cut"))) []))) none)
        (.name (ringName "next")) (.object ⟨1, "Ring"⟩) ∧
      ¬ReadsBack ringProgram 19 ringContext
        (ringStopping .always (some { fallback := .terminate })) (.name (ringName "next"))
          .nil := by
  have hreachable : ringMachine.Reachable ringProgram .all :=
    .run _ 19 (Entry.from_all _) (.create {} [] 19 (Heap.from_all _))
  have hstopping : ∀ condition link, (ringStopping condition link).Reachable ringProgram .all :=
    fun _ _ => .debug _ _ _ (fun _ _ _ _ => trivial) (fun _ _ _ _ => trivial) hreachable
  refine ⟨hreachable, hstopping, by decide +kernel, ?_, ?_, ?_, ?_, ?_, ?_, ?_⟩
  all_goals exact not_readsBack (by decide +kernel) (by decide +kernel)

end Animator
