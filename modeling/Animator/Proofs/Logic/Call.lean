import Animator.Proofs.Logic.Basic

/-!
# Definitions, binds and calls

The rules of a logic carried through everything that expressions and statements share.
-/

namespace Animator.Logic

variable {v : Value} {location : Location} {code : Code} {ref : ObjectRef} {args : List Value}

variable {o : Origin} {E E' : Engine} (L : Logic o E E') {c c' : Context}

section Contexts

variable (hc : L.Ctx c c')

include hc

/-! ### Several expressions -/

theorem exprs {es : List Expr} (hes : ∀ e ∈ es, o.expr e) :
    L.Keeps c c' (Same (Values.From o)) (·.exprs · es) := by
  induction es generalizing c c' with
  | nil => exact L.pureSame (by simp [Values.From])
  | cons e rest ih =>
    refine L.bindSame (L.expr (hes e List.mem_cons_self) hc) fun v hv => ?_
    refine L.bindSame (ih (L.hold hc v) fun e he => hes e (List.mem_cons_of_mem _ he))
      fun vs hvs => ?_
    exact L.pureSame (List.forall_mem_cons.2 ⟨hv, hvs⟩)

theorem fields {es : List (String × Expr)} (hes : ∀ e ∈ es, o.expr e.2) :
    L.Keeps c c' (Same fun fs => ∀ f ∈ fs, f.2.From o) (·.fields · es) := by
  induction es generalizing c c' with
  | nil => exact L.pureSame (by simp)
  | cons e rest ih =>
    refine L.bindSame (L.expr (hes e List.mem_cons_self) hc) fun v hv => ?_
    refine L.bindSame (ih (L.hold hc v) fun e he => hes e (List.mem_cons_of_mem _ he))
      fun vs hvs => ?_
    exact L.pureSame (List.forall_mem_cons.2 ⟨hv, hvs⟩)

/-! ### Definitions -/

theorem matchOrFail {p : Pattern} (hv : v.Bound o) :
    L.Keeps c c' (Same (Bindings.From o)) (·.matchOrFail p v location ·) := by
  refine L.bindSame L.heap fun h hh => ?_
  cases hmatch : h.match? p v with
  | some matched => exact L.pureSame (hh.match? hv hmatch).bindings
  | none => exact L.fail (L.hold hc v)

theorem addDefinition {d : Definition} (hd : ∀ e ∈ d.exprs, o.expr e) :
    L.Keeps c c' L.Ctx (·.addDefinition d ·) := by
  obtain ⟨location, kind⟩ := d
  cases kind with
  | value pattern ty e =>
    refine L.bindSame (L.expr (hd e List.mem_cons_self) hc) fun v hv => ?_
    cases ty with
    | none =>
      refine L.bindSame (L.pureSame hv) fun w hw => ?_
      refine L.bindSame (L.matchOrFail hc hw.bound) fun matched hmatched => ?_
      exact L.pure (L.bindAll hc hmatched)
    | some ty =>
      refine L.bindSame (P := (·.From o)) (L.consultHeap (L.hold hc v) fun h hh w hw => ?_)
        fun w hw => ?_
      · exact hh.convert ty hv.bound hw
      · refine L.bindSame (L.matchOrFail hc hw.bound) fun matched hmatched => ?_
        exact L.pure (L.bindAll hc hmatched)
  | function definition =>
    have halike := L.alike hc
    -- Related contexts see the same names, so they give the same function.
    have hvalue : Engine.localFunction definition c = Engine.localFunction definition c' := by
      simp only [Engine.localFunction, halike.visible, halike.self]
    have hfrom : (Engine.localFunction definition c).From o := by
      refine Value.from_function_iff.2 ⟨hd, fun b hb => ?_⟩
      cases hb
      exact halike.bindings
    refine L.pure ?_
    rw [← hvalue]
    exact L.bindName hc _ hfrom.bound

theorem addDefinitions {defs : List Definition} (hdefs : ∀ e ∈ defs.flatMap (·.exprs), o.expr e) :
    L.Keeps c c' L.Ctx (·.addDefinitions defs ·) := by
  induction defs generalizing c c' with
  | nil => exact L.pure hc
  | cons d rest ih =>
    simp only [List.flatMap_cons, List.forall_mem_append] at hdefs
    exact L.bind (L.addDefinition hc hdefs.1) fun _ _ hd => ih hd hdefs.2

theorem definitions {defs : List Definition} (hdefs : ∀ e ∈ defs.flatMap (·.exprs), o.expr e) :
    L.Keeps c c' L.Ctx (·.definitions defs location ·) :=
  L.bind (L.derive hc) fun _ _ hd => L.addDefinitions hd hdefs

/-! ### Binds -/

theorem candidates {b : Bind} (hb : ∀ e ∈ b.exprs, o.expr e) :
    L.Keeps c c' (Same (Values.From o)) (·.candidates b location ·) := by
  cases b with
  | set p e => exact L.set (hb e List.mem_cons_self) hc
  | seq p e => exact L.seq (hb e List.mem_cons_self) hc
  | type p ty =>
    unfold Keeps Engine.candidates
    dsimp only
    cases hvalues : ty.values? with
    | some values => exact L.pureSame (Ty.from_of_values? ty hvalues)
    | none => exact L.fail hc

theorem allCandidates {binds : List Bind} (hbinds : ∀ e ∈ binds.flatMap (·.exprs), o.expr e) :
    L.Keeps c c' (Same fun cs => ∀ candidate ∈ cs, Values.From o candidate.2)
      (·.allCandidates location · binds) := by
  induction binds generalizing c c' with
  | nil => exact L.pureSame (by simp)
  | cons b rest ih =>
    simp only [List.flatMap_cons, List.forall_mem_append] at hbinds
    refine L.bindSame (L.candidates hc hbinds.1) fun values hvalues => ?_
    refine L.bindSame (ih (L.holdAll values hc) hbinds.2) fun cs hcs => ?_
    exact L.pureSame (List.forall_mem_cons.2 ⟨hvalues, hcs⟩)

theorem combinations {binds : List Bind} (hbinds : ∀ e ∈ binds.flatMap (·.exprs), o.expr e) :
    L.Keeps c c' (Same fun ms => ∀ matched ∈ ms, Bindings.From o matched)
      (·.combinations binds location ·) := by
  refine L.bindSame (L.allCandidates hc hbinds) fun cs hcs => ?_
  exact L.bindSame L.heap fun h hh => L.pureSame fun ms hms => (hh.combinations hcs ms hms).bindings

theorem among {items : List Value} {what : String} {all : Value} (hv : v.From o) :
    L.Gives c c' (·.among v items what all code location ·) := by
  refine L.bindSame L.heap fun h _ => ?_
  split
  · exact L.pureSame hv
  · exact L.fail hc

theorem restrict {b : Bind} (hb : ∀ e ∈ b.exprs, o.expr e) (hv : v.From o) :
    L.Gives c c' (·.restrict b v code location ·) := by
  have hheld := L.hold hc v
  cases b with
  | set p e => exact L.bindSame (L.set (hb e List.mem_cons_self) hheld) fun _ _ => L.among hheld hv
  | seq p e => exact L.bindSame (L.seq (hb e List.mem_cons_self) hheld) fun _ _ => L.among hheld hv
  | type p ty =>
    refine L.bindSame L.heap fun h hh => ?_
    cases hconvert : h.convert ty v with
    | ok w => exact L.pureSame (hh.convert ty hv.bound hconvert)
    | error fault => exact L.fail hheld

theorem bindValue {b : PatternBind} (hb : ∀ e ∈ b.exprs, o.expr e) (hv : v.From o) :
    L.Keeps c c' (Same (Option.Every (Bindings.From o))) (·.bindValue b v code location ·) := by
  cases b with
  | pattern p =>
    exact L.bindSame L.heap fun h hh => L.pureSame fun _ hm => (hh.match? hv.bound hm).bindings
  | bind b =>
    refine L.bindSame (L.restrict hc hb hv) fun w hw => ?_
    exact L.bindSame L.heap fun h hh => L.pureSame fun _ hm => (hh.match? hw.bound hm).bindings

theorem bindParams {ps : List Pattern} {types : List Ty} {vs : List Value}
    (hvs : Values.From o vs) :
    L.Keeps c c' L.Ctx (·.bindParams location ps types vs ·) := by
  induction ps generalizing types vs c c' with
  | nil => exact L.pure hc
  | cons p ps ih =>
    cases vs with
    | nil => exact L.pure hc
    | cons v vs =>
      refine L.bindSame (P := (·.From o)) (L.consultHeap hc fun h hh w hw => ?_) fun w hw => ?_
      · exact hh.convert _ (hvs v List.mem_cons_self).bound hw
      · refine L.bindSame (L.matchOrFail hc hw.bound) fun matched hmatched => ?_
        exact ih (L.bindAll hc hmatched) fun u hu => hvs u (List.mem_cons_of_mem _ hu)

theorem checkPre {pre : Option Expr} {name : Name} (hpre : ∀ e, pre = some e → o.expr e) :
    L.Keeps c c' Eq (·.checkPre pre name location ·) := by
  cases pre with
  | none => exact L.pureEq ()
  | some e =>
    unfold Keeps Engine.checkPre
    dsimp only
    rw [L.engines.preChecks]
    split
    · refine L.bindEq (L.condition (hpre e rfl) hc) fun b => ?_
      cases b with
      | true => exact L.pureEq ()
      | false => exact L.fail hc
    · exact L.pureEq ()

theorem resultValue (ty : Ty) (location : Location) (hv : v.From o) :
    L.Gives c c' (·.resultValue v ty location ·) := by
  unfold Gives Keeps Engine.resultValue
  split
  · exact L.pureSame trivial
  · exact L.pureSame trivial
  · split
    · exact L.pureSame hv
    · exact L.pureSame hv
    · exact L.consultHeap (L.hold hc v) fun h hh w hw => hh.convert ty hv.bound hw

theorem invariant {clauses : List Expr} (hclauses : ∀ e ∈ clauses, o.expr e) :
    L.Keeps c c' Eq (·.invariant · clauses) := by
  induction clauses with
  | nil => exact L.pureEq true
  | cons e rest ih =>
    refine L.bindEq (L.condition (hclauses e List.mem_cons_self) hc) fun b => ?_
    cases b with
    | true => exact ih fun e he => hclauses e (List.mem_cons_of_mem _ he)
    | false => exact L.pureEq false

theorem unspecified : L.Gives c c' (·.unspecified location ·) := by
  have halike := L.alike hc
  unfold Gives Keeps Engine.unspecified
  beta_reduce
  rw [← halike.routine, ← halike.owner, ← halike.self]
  cases hroutine : c.routine? with
  | none => exact L.fail hc
  | some routine =>
    refine L.bindSame (L.delegate hc (halike.args routine hroutine)) fun found hfound => ?_
    cases found with
    | none => exact L.fail hc
    | some v => exact L.pureSame (hfound v rfl)

end Contexts

/-! ### Calls -/

section Calls

variable (hc : L.Calls c c')

include hc

theorem checkArity {name : Name} {expected got : Nat} :
    L.Keeps c c' Eq (·.checkArity name expected got location ·) := by
  unfold Keeps Engine.checkArity
  split
  · exact L.pureEq ()
  · exact hc.fail []

theorem checkInvariants : L.Keeps c c' Eq (·.checkInvariants ref location ·) := by
  unfold Keeps Engine.checkInvariants
  beta_reduce
  rw [L.engines.invChecks]
  split
  · refine L.bindSame L.classScope fun scope hscope => ?_
    cases scope with
    | none => exact L.pureEq ()
    | some scope =>
      have hclauses := (hscope scope rfl).invariants
      dsimp only
      split
      · exact L.pureEq ()
      · refine L.bind (hc.frame [.object ref] (Root.from_plain _)) fun f f' hf => ?_
        refine L.bindEq (L.invariant hf hclauses) fun b => ?_
        cases b with
        | true => exact L.pureEq ()
        | false => exact hc.fail []
  · exact L.pureEq ()

theorem purely {α : Type} {Q : α → α → Prop} {on : Bool} {x y : Eval α} (h : L.Holds Q x y) :
    L.Holds Q (Engine.purely on c.thread x) (Engine.purely on c'.thread y) := by
  cases on with
  | true => exact hc.within (by decide) h
  | false => exact h

theorem callOperation {op : OperationValue} (hop : o.Operation op.definition)
    (hargs : Values.From o args) : L.Gives c c' (·.callOperation op args location ·) := by
  refine L.bindEq (L.checkArity (hc.holdAll args)) fun _ => ?_
  refine L.bindEq (hc.living args) fun self => ?_
  refine L.bindEq L.routineKind fun kind => ?_
  have hroot : Root.From o { kind, routine := some { name := op.definition.name, args } } :=
    ⟨nofun, fun _ hr => Option.some.inj hr ▸ hargs⟩
  refine L.bind (hc.frame [] hroot) fun call call' hcall => ?_
  refine L.bind (L.bindParams hcall hargs) fun call call' hcall => ?_
  refine L.bindEq (L.checkPre hcall hop.pre) fun _ => ?_
  -- From here on the body runs, within a section if the operation is pure.
  refine L.purely hc ?_
  refine L.bindSame (L.stmt hop.body hcall) fun result hresult => ?_
  have hend := L.resultValue hcall op.definition.result op.definition.location hresult
  dsimp only
  split
  · refine L.bindEq (L.pureEq ()) fun _ => hend
  · cases self with
    | none => exact L.bindEq (L.pureEq ()) fun _ => hend
    | some ref =>
      refine L.bindEq ?_ fun _ => hend
      -- The invariants are checked in the context of the caller.
      rw [(L.alike hcall).inner]
      exact L.checkInvariants (hc.holdAll _)

theorem callFunction {f : FunctionValue} (hf : (Value.function f).From o)
    (hargs : Values.From o args) : L.Gives c c' (·.callFunction f args location ·) := by
  obtain ⟨hdefinition, hcaptured⟩ := Value.from_function_iff.1 hf
  have hpre : ∀ e, f.definition.pre = some e → o.expr e := fun e he =>
    hdefinition e (List.mem_append_left _ (by simp [he]))
  have hbody : o.expr f.definition.body :=
    hdefinition _ (List.mem_append_right _ List.mem_cons_self)
  refine L.bindEq (L.checkArity (hc.holdAll (.function f :: args))) fun _ => ?_
  refine L.bindEq (hc.living (.function f :: args)) fun self => ?_
  refine L.bindEq L.routineKind fun kind => ?_
  have hroot : Root.From o
      { kind, captured := f.captured, routine := some { name := f.definition.name, args } } :=
    ⟨hcaptured, fun _ hr => Option.some.inj hr ▸ hargs⟩
  refine L.bind (hc.frame [] hroot) fun call call' hcall => ?_
  -- A local function sees itself.
  have hself : L.Ctx
      (if f.captured.isSome then call.bind f.definition.name (.function f) else call)
      (if f.captured.isSome then call'.bind f.definition.name (.function f) else call') := by
    split
    · exact L.bindName hcall _ hf.bound
    · exact hcall
  refine L.bind (L.bindParams hself hargs) fun call call' hcall => ?_
  refine L.bindEq (L.checkPre hcall hpre) fun _ => ?_
  refine hc.within (by decide) ?_
  exact L.bindSame (L.expr hbody hcall) fun result hresult =>
    L.resultValue hcall _ _ hresult

theorem apply {callee : Value} (hcallee : callee.Bound o) (hargs : Values.From o args) :
    L.Gives c c' (·.apply callee args location ·) := by
  unfold Gives Keeps Engine.apply
  split
  -- A routine or a sequence is no cell, so it comes from the origin itself.
  · exact L.callOperation hc (hcallee.resolve_left Bool.false_ne_true) hargs
  · exact L.callFunction hc (hcallee.resolve_left Bool.false_ne_true) hargs
  · next items =>
    have hitems := Value.fromItems_iff.1 (hcallee.resolve_left Bool.false_ne_true)
    have hheld := hc.holdAll (.seq items :: args)
    dsimp only
    split
    · refine L.bindSame (P := fun _ => True) (hheld.consultHeap fun _ _ _ _ => trivial) fun i _ =>
        hheld.lift fun item hitem => ?_
      unfold Engine.itemAt at hitem
      split at hitem
      · next hget =>
        cases hitem
        split at hget
        · exact hitems item (List.mem_of_getElem? hget)
        · cases hget
      · cases hitem
    · exact hheld.fail []
  · exact L.bindSame L.heap fun h _ => hc.fail _

end Calls

/-! ### Objects -/

theorem addOperations {ds : List OperationDef} (hmade : L.Made ref)
    (hds : ∀ d ∈ ds, o.Operation d) :
    L.Holds Eq (Engine.addOperations ref ds) (Engine.addOperations ref ds) := by
  induction ds with
  | nil => exact L.pureEq ()
  | cons d rest ih =>
    have hrest := ih fun d hd => hds d (List.mem_cons_of_mem _ hd)
    unfold Engine.addOperations
    dsimp only
    split
    · exact L.bindEq (L.pureEq ()) fun _ => hrest
    · have hvalue : (Value.operation ⟨d, some ref.className, some ref⟩).From o :=
        hds d List.mem_cons_self
      exact L.bindEq (L.setMember hmade hvalue.bound) fun _ => hrest

theorem addFunctions {ds : List FunctionDef} (hmade : L.Made ref) (hds : ∀ d ∈ ds, o.Function d) :
    L.Holds Eq (Engine.addFunctions ref ds) (Engine.addFunctions ref ds) := by
  induction ds with
  | nil => exact L.pureEq ()
  | cons d rest ih =>
    have hvalue : (Value.function ⟨d, none, some ref.className, some ref⟩).From o :=
      Value.from_function_iff.2 ⟨hds d List.mem_cons_self, nofun⟩
    exact L.bindEq (L.setMember hmade hvalue.bound) fun _ =>
      ih fun d hd => hds d (List.mem_cons_of_mem _ hd)

theorem addVariables {ds : List InstanceVarDef} (hmade : L.Made ref)
    (hds : ∀ d ∈ ds, ∀ e, d.init = some e → o.expr e)
    (hdeclares : ∀ d ∈ ds, o.declares d.init d.ty) (hc : L.Ctx c c') :
    L.Keeps c c' Eq (·.addVariables ref · ds) := by
  induction ds with
  | nil => exact L.pureEq ()
  | cons d rest ih =>
    obtain ⟨hd, hothers⟩ := List.forall_mem_cons.1 hdeclares
    have hrest := ih (fun d hd => hds d (List.mem_cons_of_mem _ hd)) hothers
    unfold Engine.addVariables
    dsimp only
    split
    · exact L.bindEq (L.pureEq ()) fun _ => hrest
    · refine L.bindSame (L.newVariable (hds d List.mem_cons_self) hd hc) fun cell hcell => ?_
      exact L.bindEq (L.setMember hmade hcell) fun _ => hrest

theorem instantiate {d : ClassDef} {className : String} (hd : o.Class d)
    (hargs : Values.From o args) (hc : L.Ctx c c') :
    L.Keeps c c' Eq (·.instantiate d className args location ·) := by
  refine L.bindSame L.newObject fun ref hmade => ?_
  have hheld := L.hold hc (.object ref)
  refine L.bindEq (L.addOperations hmade hd.operations) fun _ => ?_
  refine L.bindEq (L.addFunctions hmade hd.functions) fun _ => ?_
  refine L.bind (L.frame (L.holdAll args hheld) (Root.from_plain _)) fun init init' hinit => ?_
  refine L.bindEq (L.addVariables hmade hd.inits hd.declares hinit) fun _ => ?_
  refine L.bindSame L.heap fun h hh => ?_
  split
  -- A constructor is looked up as a member, among the operations that were added before.
  · next op hop =>
    obtain ⟨definition, -, hmember⟩ := Option.bind_eq_some_iff.1 hop
    have hfrom : (Value.operation op).From o := (hh.member? hmember).resolve_left Bool.false_ne_true
    exact L.bindSame (L.callOperation (L.calls hheld) hfrom hargs) fun _ _ => L.pureEq ref
  · split
    · exact L.bindEq (L.checkInvariants (L.calls hheld)) fun _ => L.pureEq ref
    · exact L.fail (L.holdAll args hheld)

theorem newInstance {className : String} (hargs : Values.From o args) (hc : L.Ctx c c') :
    L.Keeps c c' Eq (·.newObject className args location ·) := by
  let message := "class " ++ className ++ " is not defined"
  have hundefined : L.Holds (Eq (α := ObjectRef))
      (E.fail .noSuchClass message location (c.holdAll args))
      (E'.fail .noSuchClass message location (c'.holdAll args)) := L.fail (L.holdAll args hc)
  refine L.bindSame L.classScope fun scope hscope => ?_
  cases scope with
  | some scope => exact L.instantiate (hscope scope rfl) hargs hc
  | none =>
    dsimp only
    split
    · refine L.bindSame L.newObject fun ref _ => ?_
      refine L.bindSame (L.delegate hc hargs) fun found _ => ?_
      cases found with
      | some _ => exact L.pureEq ref
      | none => exact hundefined
    · exact hundefined

end Animator.Logic
