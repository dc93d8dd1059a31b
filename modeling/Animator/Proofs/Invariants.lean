import Animator.Proofs.Abreast.Traps
import Animator.Proofs.Abreast.Methods
import Animator.Proofs.Initialisation.Stages

/-!
# Class invariants

The invariant of an object's class is checked when an operation of the object has come to its end,
and when the object has been made. If evaluating its clauses has no effects, then all of them are
true on the machine that the check leaves behind, which is the last thing that happens to it
(`Engine.invariantHolds_of_check`).

Operations that are pure are not followed by a check. That goes for constructors, too: an object
that a pure constructor has made need not satisfy the invariant (`unchecked_construction`).
-/

namespace Animator

/-! ### Members of objects -/

namespace Bindings

variable {b : Bindings} {n name : Name} {v : Value}

theorem get?_cons (first : Name × Value) (rest : Bindings) :
    get? (first :: rest) n = if n = first.1 then some first.2 else rest.get? n := by
  by_cases h : first.1 = n
  · simp [get?, h]
  · simp [get?, h, Ne.symm h]

theorem get?_insert : (b.insert name v).get? n = if n = name then some v else b.get? n := by
  induction b with
  | nil => exact get?_cons _ _
  | cons first rest ih =>
    unfold insert
    split
    · exact get?_cons _ _
    · next heq =>
      obtain rfl := (Name.compare_eq_iff _ _).1 heq
      simp only [get?_cons]
      split <;> rfl
    · next hgt =>
      -- The name comes later, so it is not the first one.
      have hne : first.1 ≠ name := by
        rintro rfl
        rw [(Name.compare_eq_iff _ _).2 rfl] at hgt
        cases hgt
      rw [get?_cons, get?_cons, ih]
      by_cases hfirst : n = first.1
      · simp [hfirst, hne]
      · simp [hfirst]

end Bindings

namespace Heap

variable {h : Heap} {ref other : ObjectRef} {n name : Name} {v : Value}

theorem member?_setMember_of_ne (hne : ¬(n = name ∧ other.id = ref.id)) :
    (h.setMember ref name v).member? other n = h.member? other n := by
  unfold member? members setMember
  rw [object?_modifyObject]
  by_cases hid : other.id = ref.id
  · rw [if_pos hid]
    cases h.object? other.id with
    | none => rfl
    | some object =>
      have hname : n ≠ name := fun hname => hne ⟨hname, hid⟩
      simp only [Option.map_some, Bindings.get?_insert, if_neg hname]
  · rw [if_neg hid]

theorem size_setMember : (h.setMember ref name v).objects.size = h.objects.size := by
  unfold setMember modifyObject
  cases ref.id with
  | zero => rfl
  | succ n => simp

end Heap

/-! ### Clauses -/

namespace Program

variable (P : Program)

/-- Where the expression gives a value it has changed nothing, apart from what is counted and
remembered on the way. -/
def SideEffectFree (e : Expr) : Prop :=
  ∀ n c m v m', m.Lulled .complete → (P.engine n).expr e c m = (.ok v, m') → m.gist = m'.gist

/-- Each `clause` of the invariant of an object's class is true in a `frame` of the object. -/
def InvariantHolds (n : Nat) (o : ObjectRef) (c : Context) (m : Machine) : Prop :=
  ∀ scope, m.globals.class? o.className = some scope →
    ∀ clause ∈ scope.definition.invariants, ∃ m',
      (do
        let frame ← Eval.frame (c.hold (.object o)) { kind := .object o }
          (scope.definition.name ++ " invariant") scope.definition.location
        (P.engine n).condition clause frame) m = (.ok true, m')

end Program

theorem Root.from_all (r : Root) : r.From .all :=
  ⟨fun _ _ => Bindings.from_all _, fun _ _ => Values.from_all _⟩

theorem Program.lulled_of_ok {α : Type} {P : Program} {n : Nat} {L : Lull} {Q : α → α → Prop}
    {x y : Eval α} {m m₁ : Machine} {a : α} (hxy : (P.abreast L n).Holds Q x y) (hm : m.Lulled L)
    (hrun : x m = (.ok a, m₁)) : m₁.Lulled L := by
  have hboth : _ ∨ _ := hxy m m (.refl hm)
  rw [hrun] at hboth
  rcases hboth with ⟨-, hcut⟩ | ⟨-, hm₁⟩
  · cases hcut
  · exact hm₁.lulled

namespace Engine

variable {P : Program} {n : Nat} {o : ObjectRef} {location : Location} {c : Context}
  {m m' : Machine}

/-! ### The check -/

theorem abreast_of_condition {e : Expr} {b : Bool} (he : P.SideEffectFree e)
    (hm : m.Lulled .complete) (hrun : (P.engine n).condition e c m = (.ok b, m')) :
    m.Abreast .complete m' := by
  obtain ⟨v, m₁, hexpr, hrun⟩ := exists_of_bind_eq_ok hrun
  obtain ⟨-, rfl⟩ := eq_ok_of_consultHeap hrun
  exact ⟨hm, he n c m v m' hm hexpr, False.elim⟩

/-- Clauses without effects that were true (`condition`) one after another are still true after the
last one. -/
theorem invariant_true {clauses : List Expr} (hfree : ∀ e ∈ clauses, P.SideEffectFree e)
    (hm : m.Lulled .complete) (hrun : (P.engine n).invariant c clauses m = (.ok true, m')) :
    m.Abreast .complete m' ∧
      ∀ e ∈ clauses, ∃ m₁, (P.engine n).condition e c m' = (.ok true, m₁) := by
  induction clauses generalizing m with
  | nil =>
    cases hrun
    exact ⟨.refl hm, fun _ he => absurd he List.not_mem_nil⟩
  | cons e rest ih =>
    obtain ⟨he, hrest⟩ := List.forall_mem_cons.1 hfree
    obtain ⟨b, m₁, hfirst, hrun⟩ := exists_of_bind_eq_ok hrun
    have hm₁ := abreast_of_condition he hm hfirst
    cases b with
    | false => cases hrun
    | true =>
      obtain ⟨hm', htrue⟩ := ih hrest hm₁.right hrun
      refine ⟨hm₁.trans hm', List.forall_mem_cons.2 ⟨?_, htrue⟩⟩
      have hagain : Abreast .complete Eq ((P.engine n).condition e c)
          ((P.engine n).condition e c) :=
        (P.abreast .complete n).condition trivial (Context.Retitled.refl c)
      obtain ⟨m₂, hsecond, -⟩ := hagain.of_ok (hm₁.trans hm') hfirst
      exact ⟨m₂, hsecond⟩

/-- After `checkInvariants` the clauses are true. -/
theorem invariantHolds_of_check (hon : P.settings.invChecks = true) (hm : m.Lulled .complete)
    (hfree : ∀ scope, m'.globals.class? o.className = some scope →
      ∀ e ∈ scope.definition.invariants, P.SideEffectFree e)
    (hrun : (P.engine n).checkInvariants o location c m = (.ok (), m')) :
    P.InvariantHolds n o c m' := by
  have hkept := (Eval.DefinesNothing.of_drifts fun D : Drift P .all =>
    (Effect.logic (D.leaves Origin.closed_all n)).checkInvariants
      (Logic.calls _ ⟨rfl, c.from_all, trivial⟩)).idles hrun
  intro scope hscope clause hclause
  have hclauses := hfree scope hscope
  rw [hkept.globals] at hscope
  have hon' : (P.engine n).settings.invChecks = true :=
    (Abreast.engine_self .complete P n).program ▸ hon
  unfold Engine.checkInvariants at hrun
  rw [if_pos hon'] at hrun
  obtain ⟨found, m₁, hfound, hrun⟩ := exists_of_bind_eq_ok hrun
  cases hfound
  dsimp only at hrun
  rw [hscope] at hrun
  dsimp only at hrun
  have hsome : scope.definition.invariants.isEmpty = false := by
    cases hall : scope.definition.invariants with
    | nil => rw [hall] at hclause; cases hclause
    | cons => rfl
  rw [hsome] at hrun
  obtain ⟨frame, m₁, hframe, hrun⟩ := exists_of_bind_eq_ok hrun
  obtain ⟨b, m₂, hinvariant, hrun⟩ := exists_of_bind_eq_ok hrun
  cases b with
  | false => exact absurd hrun fail_ne_ok
  | true =>
    cases hrun
    cases hframe
    have hframed : Machine.Lulled .complete { m with nextContext := m.nextContext + 1 } :=
      hm.of_aside rfl rfl
    obtain ⟨hm', htrue⟩ := invariant_true hclauses hframed hinvariant
    obtain ⟨m₁, hrun⟩ := htrue clause hclause
    -- The frame of the check and a new one differ in their numbers only.
    have hagain : Abreast .complete Eq ((P.engine n).condition clause _)
        ((P.engine n).condition clause _) :=
      (P.abreast .complete n).condition trivial
        ((Context.Retitled.refl (c.hold (.object o))).nest m.nextContext m'.nextContext
          (scope.definition.name ++ " invariant") scope.definition.location
            (some { kind := .object o }))
    have hnumbers : m'.Abreast .complete { m' with nextContext := m'.nextContext + 1 } :=
      ⟨hm'.right, rfl, False.elim⟩
    obtain ⟨m₂, hrun', -⟩ := hagain.of_ok hnumbers hrun
    exact ⟨m₂, hrun'⟩

/-! ### Calls -/

section Call

variable {L : Lull} {op : OperationValue} {args : List Value} {v : Value}

/-- The last thing that happens in a call of an operation that is not pure is `checkInvariants`. -/
theorem exists_check_of_callOperation (hself : op.self = some o)
    (hpure : op.definition.isPure = false)
    (halive : P.keeps (c.holdAll args) m o = true)
    (hm : m.Lulled L) (hrun : (P.engine n).callOperation op args location c m = (.ok v, m')) :
    ∃ held m₁, m₁.Lulled L ∧
      (P.engine n).checkInvariants o location (c.holdAll held) m₁ = (.ok (), m') := by
  let A := P.abreast L n
  have hc := Context.Retitled.refl (c.holdAll args)
  obtain ⟨_, m₁, harity, hrun⟩ := exists_of_bind_eq_ok hrun
  obtain ⟨self, m₂, hliving, hrun⟩ := exists_of_bind_eq_ok hrun
  obtain ⟨kind, m₃, hkind, hrun⟩ := exists_of_bind_eq_ok hrun
  obtain ⟨call, m₄, hframe, hrun⟩ := exists_of_bind_eq_ok hrun
  obtain ⟨call', m₅, hparams, hrun⟩ := exists_of_bind_eq_ok hrun
  obtain ⟨_, m₆, hpre, hrun⟩ := exists_of_bind_eq_ok hrun
  obtain rfl : m₁ = m := by
    unfold checkArity at harity
    split at harity
    · cases harity
      rfl
    · exact absurd harity fail_ne_ok
  rw [hself] at hliving
  obtain ⟨rfl, hm₂⟩ : self = some o ∧ m₂.Lulled L := by
    refine ⟨?_, Program.lulled_of_ok (A.living hc) hm hliving⟩
    obtain ⟨alive, m₃, hread, hliving⟩ := exists_of_bind_eq_ok hliving
    cases hread
    cases hliving
    rw [(Abreast.engine_self L P n).program]
    exact if_pos halive
  have hm₃ := Program.lulled_of_ok A.routineKind hm₂ hkind
  have hm₄ := Program.lulled_of_ok (A.frame (.refl c) (Root.from_all _)) hm₃ hframe
  have hm₅ := Program.lulled_of_ok (A.bindParams (.refl call) (Values.from_all args)) hm₄ hparams
  have hm₆ := Program.lulled_of_ok (A.checkPre (.refl call') fun _ _ => trivial) hm₅ hpre
  rw [hpure] at hrun
  obtain ⟨result, m₇, hbody, hrun⟩ := exists_of_bind_eq_ok hrun
  obtain ⟨_, m₈, hcheck, hresult⟩ := exists_of_bind_eq_ok hrun
  have hm₇ := Program.lulled_of_ok (A.stmt trivial (.refl call')) hm₆ hbody
  -- The result is converted after the check, but that does nothing to the machine.
  obtain rfl : m' = m₈ := by
    unfold resultValue at hresult
    split at hresult
    · cases hresult
      rfl
    · cases hresult
      rfl
    · split at hresult
      · cases hresult
        rfl
      · cases hresult
        rfl
      · exact (eq_ok_of_consultHeap hresult).2
  exact ⟨_, m₇, hm₇, hcheck⟩

end Call

end Engine

/-! ### New objects -/

theorem Heap.member?_of_setMember {h : Heap} {o : ObjectRef} {name n : Name} {v w : Value}
    (hw : (h.setMember o name v).member? o n = some w) :
    n = name ∧ w = v ∨ h.member? o n = some w := by
  by_cases hn : n = name
  · refine .inl ⟨hn, ?_⟩
    unfold member? members setMember at hw
    rw [object?_modifyObject, if_pos rfl] at hw
    cases hobject : h.object? o.id with
    | none =>
      rw [hobject] at hw
      cases hw
    | some object =>
      rw [hobject, Option.map_some, Bindings.get?_insert, if_pos hn] at hw
      exact (Option.some.inj hw).symm
  · rw [member?_setMember_of_ne fun hne => hn hne.1] at hw
    exact .inr hw

/-- The object is there, and its operations are some of the given ones, on this object. -/
structure Machine.Staffs (o : ObjectRef) (ops : List OperationDef) (m : Machine) : Prop where
  made : o.id ≤ m.heap.objects.size
  staff : ∀ {name op}, m.heap.member? o name = some (.operation op) →
    op.self = some o ∧ op.definition ∈ ops ∧ op.definition.name = name

namespace Machine.Staffs

variable {P : Program} {n : Nat} {o : ObjectRef} {c : Context} {ops : List OperationDef}
  {m m' : Machine}

theorem newObject {className : String} (hnew : Eval.newObject className m = (.ok o, m')) :
    m'.Staffs o ops := by
  cases hnew
  refine ⟨Nat.le_of_eq (Array.size_push _).symm, fun hop => ?_⟩
  simp [Heap.member?, Heap.members, Heap.object?, Bindings.get?] at hop

theorem setMember (h : m.Staffs o ops) {name : Name} {v : Value}
    (hv : ∀ op, v = .operation op →
      op.self = some o ∧ op.definition ∈ ops ∧ op.definition.name = name) :
    Machine.Staffs o ops { m with heap := m.heap.setMember o name v } where
  made := Nat.le_trans h.made (Nat.le_of_eq Heap.size_setMember.symm)
  staff {n op} hop := by
    rcases Heap.member?_of_setMember hop with ⟨rfl, hvalue⟩ | hop
    · exact hv op hvalue.symm
    · exact h.staff hop

theorem addOperations (h : m.Staffs o ops) {ds : List OperationDef} (hds : ∀ d ∈ ds, d ∈ ops)
    (hrun : Engine.addOperations o ds m = (.ok (), m')) : m'.Staffs o ops := by
  induction ds generalizing m with
  | nil =>
    cases hrun
    exact h
  | cons d rest ih =>
    obtain ⟨hd, hrest⟩ := List.forall_mem_cons.1 hds
    unfold Engine.addOperations at hrun
    cases hstatic : d.isStatic with
    | true =>
      rw [hstatic] at hrun
      exact ih h hrest hrun
    | false =>
      rw [hstatic] at hrun
      refine ih (h.setMember ?_) hrest hrun
      rintro _ ⟨⟩
      exact ⟨rfl, hd, rfl⟩

theorem addFunctions (h : m.Staffs o ops) {ds : List FunctionDef}
    (hrun : Engine.addFunctions o ds m = (.ok (), m')) : m'.Staffs o ops := by
  induction ds generalizing m with
  | nil =>
    cases hrun
    exact h
  | cons d rest ih => exact ih (h.setMember (by rintro _ ⟨⟩)) hrun

theorem addVariables (h : m.Staffs o ops) {ds : List InstanceVarDef}
    (hrun : (P.engine n).addVariables o c ds m = (.ok (), m')) : m'.Staffs o ops := by
  induction ds generalizing m with
  | nil =>
    cases hrun
    exact h
  | cons d rest ih =>
    unfold Engine.addVariables at hrun
    cases hstatic : d.isStatic with
    | true =>
      rw [hstatic] at hrun
      exact ih h hrun
    | false =>
      rw [hstatic] at hrun
      obtain ⟨v, m₁, hvariable, hrun⟩ := exists_of_bind_eq_ok hrun
      have hidles := (Eval.DefinesNothing.newVariable P n c _ _ _ _).idles hvariable
      have hkept : m₁.Staffs o ops := by
        refine ⟨Nat.le_trans h.made hidles.heap.size, fun hop => h.staff ?_⟩
        rwa [hidles.member? h.made] at hop
      obtain ⟨value, m₂, -, hcell⟩ := exists_of_bind_eq_ok hvariable
      cases hcell
      exact ih (hkept.setMember (by rintro _ ⟨⟩)) hrun

end Machine.Staffs

theorem Heap.isAlive_of_held {h : Heap} {isHeld : HeapNode → Bool} {o : ObjectRef}
    (ho : isHeld (.object o.id) = true) : h.isAlive isHeld o = true := by
  simp [isAlive, reachedFrom, ho]

theorem Context.holds_held (c : Context) (o : ObjectRef) (values : List Value) :
    ((c.hold (.object o)).holdAll values).holds (.object o.id) = true := by
  simp [holds, hold, holdAll, Value.refersTo, Value.references]

theorem Eval.DefinesNothing.newInstance (P : Program) (n : Nat) (c : Context) {className : String}
    {args : List Value} {location : Location} :
    ((P.engine n).newObject className args location c).DefinesNothing :=
  .of_drifts fun D => (Effect.logic (D.leaves Origin.closed_all n)).newInstance
    (Values.from_all args)
    ⟨rfl, c.from_all, trivial⟩

namespace Engine

variable {P : Program} {n : Nat} {o : ObjectRef} {location : Location} {c : Context}
  {m m' : Machine} {L : Lull} {args : List Value} {className : String}

/-- The last thing that happens when an object is made is `checkInvariants`, unless a pure
constructor makes it. -/
theorem exists_check_of_instantiate {d : ClassDef}
    (hpure : ∀ op ∈ d.operations, op.name.text = className → op.isPure = false) (hm : m.Lulled L)
    (hrun : (P.engine n).instantiate d className args location c m = (.ok o, m')) :
    ∃ held m₁, m₁.Lulled L ∧
      (P.engine n).checkInvariants o location (c.holdAll held) m₁ = (.ok (), m') := by
  let A := P.abreast L n
  obtain ⟨o', m₁, hnew, hrun⟩ := exists_of_bind_eq_ok hrun
  obtain ⟨_, m₂, hoperations, hrun⟩ := exists_of_bind_eq_ok hrun
  obtain ⟨_, m₃, hfunctions, hrun⟩ := exists_of_bind_eq_ok hrun
  obtain ⟨frame, m₄, hframe, hrun⟩ := exists_of_bind_eq_ok hrun
  obtain ⟨_, m₅, hvariables, hrun⟩ := exists_of_bind_eq_ok hrun
  obtain ⟨h, m₆, hheap, hrun⟩ := exists_of_bind_eq_ok hrun
  cases hheap
  have hm₁ := Program.lulled_of_ok A.newObject hm hnew
  have hm₂ := Program.lulled_of_ok (A.addOperations trivial fun _ _ =>
      Origin.whole_all.operation _) hm₁
    hoperations
  have hm₃ := Program.lulled_of_ok (A.addFunctions trivial fun _ _ _ _ => trivial) hm₂ hfunctions
  have hm₄ := Program.lulled_of_ok (A.frame (.refl _) (Root.from_all _)) hm₃ hframe
  have hm₅ := Program.lulled_of_ok (A.addVariables trivial (fun _ _ _ _ => trivial)
    (fun _ _ => trivial) (.refl frame)) hm₄ hvariables
  have hstaffs : m₃.Staffs o' d.operations :=
    ((Machine.Staffs.newObject hnew).addOperations (fun _ => id) hoperations).addFunctions
      hfunctions
  have hstaffs' : m₅.Staffs o' d.operations := by
    cases hframe
    refine Machine.Staffs.addVariables ?_ hvariables
    exact ⟨hstaffs.made, hstaffs.staff⟩
  generalize hfound : (d.operations.find? (isConstructor m₅.heap className args)).bind
    (fun op => m₅.heap.member? o' op.name) = found at hrun
  split at hrun
  · next op =>
    obtain ⟨_, m₆, hcall, hrun⟩ := exists_of_bind_eq_ok hrun
    cases hrun
    obtain ⟨constructor, hconstructor, hmember⟩ := Option.bind_eq_some_iff.1 hfound
    obtain ⟨hself, hmem, hname⟩ := hstaffs'.staff hmember
    have htext : constructor.name.text = className := by
      have hfits := List.find?_some hconstructor
      simp only [isConstructor, Bool.and_eq_true, beq_iff_eq] at hfits
      exact hfits.1.1.2
    -- Whatever holds the object during its construction keeps it alive.
    obtain ⟨held, m₇, hm₇, hcheck⟩ := exists_check_of_callOperation hself
      (hpure op.definition hmem (hname ▸ htext))
        (Heap.isAlive_of_held (by simp [Context.holds_held]))
      hm₅ hcall
    refine ⟨held ++ [.object o], m₇, hm₇, ?_⟩
    simpa [Context.holdAll, Context.hold] using hcheck
  · split at hrun
    · obtain ⟨_, m₆, hcheck, hrun⟩ := exists_of_bind_eq_ok hrun
      cases hrun
      exact ⟨[.object o], m₅, hm₅, hcheck⟩
    · exact absurd hrun fail_ne_ok

/-- The invariant of a new object holds, unless its constructor is pure. -/
theorem invariantHolds_of_newObject (hon : P.settings.invChecks = true) (hm : m.Lulled .complete)
    (hfree : ∀ scope, m.globals.class? o.className = some scope →
      ∀ e ∈ scope.definition.invariants, P.SideEffectFree e)
    (hpure : ∀ scope, m.globals.class? className = some scope →
      ∀ d ∈ scope.definition.operations, d.name.text = className → d.isPure = false)
    (hrun : (P.engine n).newObject className args location c m = (.ok o, m')) :
    ∃ held, P.InvariantHolds n o (c.holdAll held) m' := by
  have hkept := ((Eval.DefinesNothing.newInstance P n c).idles hrun).globals
  obtain ⟨found, m₁, hfound, hrun⟩ := exists_of_bind_eq_ok hrun
  cases hfound
  cases hclass : m.globals.class? className with
  | some scope =>
    dsimp only at hrun
    rw [hclass] at hrun
    obtain ⟨held, m₁, hm₁, hcheck⟩ := exists_check_of_instantiate (hpure scope hclass) hm hrun
    exact ⟨held, invariantHolds_of_check hon hm₁ (hkept ▸ hfree) hcheck⟩
  | none =>
    dsimp only at hrun
    rw [hclass] at hrun
    by_cases hcpu : className == cpuClass
    · rw [if_pos hcpu] at hrun
      obtain ⟨o', m₁, hnew, hrun⟩ := exists_of_bind_eq_ok hrun
      obtain ⟨answer, m₂, -, hrun⟩ := exists_of_bind_eq_ok hrun
      cases answer with
      | none => exact absurd hrun fail_ne_ok
      | some v =>
        -- There is no class whose invariant the processor would have to satisfy.
        cases hrun
        cases hnew
        refine ⟨[], fun scope hscope => ?_⟩
        rw [hkept, ← beq_iff_eq.1 hcpu, hclass] at hscope
        cases hscope
    · rw [if_neg hcpu] at hrun
      exact absurd hrun fail_ne_ok

end Engine

/-- An operation of an object that is not pure has returned, or an object has been made, without a
debugger. If `invariants` are checked, and if the clauses of the object's class have no effects,
then each of them is true for the object on the machine that is left, as long as what the call has
held is held. For an object that was made this needs that its class has no pure constructor. -/
theorem invariants_hold_after (P : Program) (n : Nat) (o : ObjectRef) (location : Location)
    (c : Context) (m m' : Machine) (hon : P.settings.invChecks = true) (hm : m.Lulled .complete)
    (hfree : ∀ scope, m.globals.class? o.className = some scope →
      ∀ e ∈ scope.definition.invariants, P.SideEffectFree e) :
    (∀ op args v, op.self = some o → op.definition.isPure = false →
      P.keeps (c.holdAll args) m o = true →
      (P.engine n).callOperation op args location c m = (.ok v, m') →
      ∃ held, P.InvariantHolds n o (c.holdAll held) m') ∧
    ∀ className args,
      (∀ scope, m.globals.class? className = some scope →
        ∀ d ∈ scope.definition.operations, d.name.text = className → d.isPure = false) →
      (P.engine n).newObject className args location c m = (.ok o, m') →
      ∃ held, P.InvariantHolds n o (c.holdAll held) m' := by
  refine ⟨fun op args v hself hpure halive hrun => ?_, fun className args hpure hrun => ?_⟩
  · have hidles := (Eval.DefinesNothing.of_drifts fun D : Drift P .all =>
      (Effect.logic (D.leaves Origin.closed_all n)).callOperation
        (Logic.calls _ ⟨rfl, c.from_all, trivial⟩) (Origin.whole_all.operation _)
        (Values.from_all args)).idles hrun
    obtain ⟨held, m₁, hm₁, hcheck⟩ :=
      Engine.exists_check_of_callOperation hself hpure halive hm hrun
    exact ⟨held, Engine.invariantHolds_of_check hon hm₁ (hidles.globals ▸ hfree) hcheck⟩
  · exact Engine.invariantHolds_of_newObject hon hm hfree hpure hrun

/-! ### A gate that has to be shut -/

/-- Reading a variable has no effects. -/
theorem Program.SideEffectFree.name {P : Program} {e : Expr} {name : Name}
    (he : e.kind = .name name) :
    P.SideEffectFree e := by
  intro n c m v m' hm hrun
  cases n with
  | zero => cases hrun
  | succ n =>
    change (P.engine n).evalExpr e c m = _ at hrun
    rw [Engine.evalExpr_eq_arrive, he] at hrun
    obtain ⟨_, m₁, harrive, hrun⟩ := exists_of_bind_eq_ok hrun
    rcases (P.engine n).arrive_unseen (.expr e) hm (.inr (hm.request trivial)) trivial with
      ⟨m₂, harrive', hm₂⟩ | ⟨hdebugging, hstop⟩
    · cases harrive'.symm.trans harrive
      obtain ⟨found, m₃, hfound, hrun⟩ := exists_of_bind_eq_ok hrun
      cases hfound
      dsimp only at hrun
      cases hlookup : c.lookup m₁.globals m₁.heap name with
      | none =>
        rw [hlookup] at hrun
        exact absurd hrun Engine.fail_ne_ok
      | some w =>
        rw [hlookup] at hrun
        cases hrun
        exact hm₂.gist
    · obtain ⟨m₂, hstopped, -⟩ := (P.engine n).arrive_stopped (.expr e) hm hdebugging hstop
      cases hstopped.symm.trans harrive

def gateClause : Expr :=
  .onLine 2 (.name { module := "Gate", text := "shut" })

def gateConstructor (isPure : Bool) : OperationDef :=
  { OperationDef.plain "Gate" "Gate" (.onLine 3 .skip) with isPure }

/-- A class with a variable that has to be true. Its constructor leaves it as it is. -/
def gateProgram (isPure shut : Bool) : Program :=
  { model := { classes := [{
      name := "Gate", location := .onLine 1, values := [], functions := [], thread := none
      instanceVars := [{
        name := { module := "Gate", text := "shut" }, ty := .bool, isStatic := false
        init := some (.onLine 2 (.literal (.bool shut))), location := .onLine 2 }]
      operations := [gateConstructor isPure], invariants := [gateClause] }] } }

def gateRun (isPure shut : Bool) : Except Halt ObjectRef × Machine :=
  ((gateProgram isPure shut).engine 9).newObject "Gate" [] (.onLine 5) (.binding [])
    (Machine.initial (gateProgram isPure shut) {})

theorem globals_gateRun (isPure shut : Bool) :
    (gateRun isPure shut).2.globals = (Machine.initial (gateProgram isPure shut) {}).globals :=
  (Eval.DefinesNothing.newInstance (gateProgram isPure shut) 9 (.binding []) _).globals

theorem sideEffectFree_gate {isPure shut : Bool} {m : Machine} {scope : ClassScope}
    (hm : m.globals = (Machine.initial (gateProgram isPure shut) {}).globals)
    (hscope : m.globals.class? "Gate" = some scope) :
    ∀ e ∈ scope.definition.invariants, (gateProgram isPure shut).SideEffectFree e := by
  rw [hm] at hscope
  cases hscope
  exact List.forall_mem_singleton.2 (.name rfl)

def gateContext : Context :=
  (Context.binding []).hold (.object ⟨1, "Gate"⟩)

def gateOperation : OperationValue :=
  { definition := gateConstructor false, className := some "Gate", self := some ⟨1, "Gate"⟩ }

def gateCall : Except Halt Value × Machine :=
  ((gateProgram false true).engine 9).callOperation gateOperation [] (.onLine 6) gateContext
    (gateRun false true).2

/-- A gate that is made shut is shut, as its `gateClause` says. It still is after another call of
its constructor. -/
theorem invariants_hold_after_gate :
    let P := gateProgram false true
    let o : ObjectRef := ⟨1, "Gate"⟩
    (gateRun false true).1.toOption = some o ∧ gateCall.1.toOption.isSome = true ∧
      (∃ held, P.InvariantHolds 9 o ((Context.binding []).holdAll held) (gateRun false true).2) ∧
      ∃ held, P.InvariantHolds 9 o (gateContext.holdAll held) gateCall.2 := by
  intro P o
  have hmade : (gateRun false true).1.toOption = some o := by decide +kernel
  have hcalled : gateCall.1.toOption.isSome = true := by decide +kernel
  have halive : P.keeps (gateContext.holdAll []) (gateRun false true).2 o = true := by
    decide +kernel
  have hm : (Machine.initial P {}).Lulled .complete := ⟨rfl, fun _ => rfl, fun _ _ => rfl⟩
  have hlulled : (gateRun false true).2.Lulled .complete := Program.lulled_of_ok
    ((P.abreast .complete 9).newInstance (Values.from_all []) (.refl (.binding []))) hm
    (eq_ok_of_toOption hmade)
  obtain ⟨v, hv⟩ := Option.isSome_iff_exists.1 hcalled
  refine ⟨hmade, hcalled, ?_, ?_⟩
  · refine (invariants_hold_after P 9 o (.onLine 5) (.binding []) (Machine.initial P {}) _ rfl hm
      fun scope => sideEffectFree_gate rfl).2 "Gate" [] ?_
      (eq_ok_of_toOption hmade)
    rintro scope ⟨⟩
    exact List.forall_mem_singleton.2 fun _ => rfl
  · exact (invariants_hold_after P 9 o (.onLine 6) gateContext _ _ rfl hlulled
      fun scope => sideEffectFree_gate (globals_gateRun false true)).1 gateOperation [] v rfl rfl
        halive (eq_ok_of_toOption hv)

/-- A gate that is made open by a pure constructor is not checked, and is not shut
(`InvariantHolds`). -/
theorem unchecked_construction :
    let P := gateProgram true false
    let o : ObjectRef := ⟨1, "Gate"⟩
    P.settings.invChecks = true ∧ P.SideEffectFree gateClause ∧
      (gateRun true false).1.toOption = some o ∧
      ¬P.InvariantHolds 9 o (.binding []) (gateRun true false).2 := by
  intro P o
  refine ⟨rfl, .name rfl, by decide +kernel, fun hholds => ?_⟩
  obtain ⟨m', hrun⟩ :=
    hholds _ (congrArg (·.class? "Gate") (globals_gateRun true false) :) gateClause
    (List.mem_singleton_self gateClause)
  have hfalse : ((do
      let frame ← Eval.frame ((Context.binding []).hold (.object o)) { kind := .object o }
        ("Gate" ++ " invariant") (.onLine 1)
      (P.engine 9).condition gateClause frame) (gateRun true false).2).1.toOption = some false := by
    decide +kernel
  rw [hrun] at hfalse
  cases hfalse

end Animator
