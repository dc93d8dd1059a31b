import Animator.Proofs.Logic.Call

/-!
# Expressions and statements

The rules of a logic carried through every expression and every statement, one theorem for each
construct. An engine one level up is related if its parts are, which is the step of an induction on
the bound of an evaluation.
-/

namespace Animator

variable {location : Location} {e : Expr} {d : Nat} {v : Value} {ref : ObjectRef} {body : Stmt}
  {alternatives : List TixeAlternative} {args : List Expr} {field : Name}

def StmtKind.isTimed : StmtKind → Bool
  | .cycles _ _ | .duration _ _ => true
  | _ => false

def StmtKind.handles : StmtKind → Bool
  | .trap _ _ _ | .tixe _ _ => true
  | _ => false

namespace Logic

variable {o : Origin} {E E' : Engine} (L : Logic o E E') {c c' : Context} (hc : L.Ctx c c')

include hc

/-! ### Expressions -/

theorem anyMatch {predicate : Expr} {wanted : Bool} {ms : List Matched} (he : o.expr predicate)
    (hms : ∀ matched ∈ ms, Bindings.From o matched) :
    L.Keeps c c' Eq (·.anyMatch predicate wanted location · ms) := by
  induction ms with
  | nil => exact L.pureEq false
  | cons matched rest ih =>
    refine L.bind (L.derive (L.holdAll _ hc)) fun child child' hchild => ?_
    have hbound := L.bindAll hchild (hms matched List.mem_cons_self)
    refine L.bindEq (L.condition he hbound) fun b => ?_
    split
    · exact L.pureEq true
    · exact ih fun m hm => hms m (List.mem_cons_of_mem _ hm)

theorem anyBinding {binds : List Bind} {predicate : Expr} {wanted : Bool}
    (he : ∀ e ∈ binds.flatMap (·.exprs) ++ [predicate], o.expr e) :
    L.Keeps c c' Eq (·.anyBinding binds predicate wanted location ·) := by
  simp only [List.forall_mem_append, List.forall_mem_singleton] at he
  exact L.bindSame (L.combinations hc he.1) fun ms hms => L.anyMatch hc he.2 hms

theorem binary {left right : Expr} {op : BinaryOp} (hleft : o.expr left) (hright : o.expr right) :
    L.Gives c c' (·.binary left op right location ·) := by
  -- The second operand of a connective, if it is evaluated at all.
  have hcond : ∀ e, o.expr e → L.Holds (Same (·.From o))
      (do return Value.bool (← E.condition e c)) (do return Value.bool (← E'.condition e c')) :=
    fun e he => L.bindEq (L.condition he hc) fun b => L.pureSame trivial
  unfold Gives Keeps Engine.binary
  split
  · refine L.bindEq (L.condition hleft hc) fun b => ?_
    cases b with
    | true => exact hcond right hright
    | false => exact L.pureSame trivial
  · refine L.bindEq (L.condition hleft hc) fun b => ?_
    cases b with
    | true => exact L.pureSame trivial
    | false => exact hcond right hright
  · refine L.bindEq (L.condition hleft hc) fun b => ?_
    cases b with
    | true => exact hcond right hright
    | false => exact L.pureSame trivial
  · refine L.bindSame (L.expr hleft hc) fun l hl => ?_
    refine L.bindSame (L.expr hright (L.hold hc l)) fun r hr => ?_
    exact L.consultHeap (L.holdAll _ hc) fun h hh w hw => hh.binary hl.bound hr.bound hw

theorem range {low high : Expr} (hlow : o.expr low) (hhigh : o.expr high) :
    L.Gives c c' (·.range low high location ·) := by
  refine L.bindEq (L.int hlow hc) fun low => ?_
  refine L.bindEq (L.int hhigh hc) fun high => ?_
  dsimp only
  split
  · exact L.fail hc
  · refine L.bindSame L.heap fun h hh => L.pureSame (hh.mkSet fun v hv => ?_)
    obtain ⟨i, -, rfl⟩ := List.mem_map.1 hv
    trivial

/-- Expressions of every kind, from what is known of their parts. -/
theorem exprKind {kind : ExprKind} (location : Location) (hk : o.ExprParts kind) :
    L.Gives c c' (·.exprKind kind location ·) := by
  cases kind with
  | literal value => exact L.pureSame (Value.from_ofLiteral value)
  | name name =>
    refine L.bindSame (L.lookup hc) fun found hfound => ?_
    cases found with
    | none => exact L.fail hc
    | some v => exact L.bindSame L.heap fun h hh => L.pureSame (hh.deref (hfound v rfl))
  | selfRef =>
    unfold Gives Keeps Engine.exprKind
    dsimp only
    rw [(L.alike hc).self]
    split
    · exact L.pureSame trivial
    · exact L.fail hc
  | time => exact L.bindEq (L.time hc) fun _ => L.pureSame trivial
  | field object field =>
    refine L.bindSame (L.expr (hk _ List.mem_cons_self) hc) fun v hv => ?_
    refine L.bindSame (P := (·.Bound o)) (L.consultHeap (L.hold hc v) fun h hh w hw => ?_)
      fun w hw => ?_
    · exact hh.select hv.bound hw
    · exact L.bindSame L.heap fun h hh => L.pureSame (hh.deref hw)
  | apply root args =>
    obtain ⟨hroot, hargs⟩ := List.forall_mem_cons.1 hk
    refine L.bindSame (L.expr hroot hc) fun callee hcallee => ?_
    refine L.bindSame (L.exprs (L.hold hc callee) hargs) fun args hargs => ?_
    exact L.apply (L.calls hc) hcallee.bound hargs
  | unary op operand =>
    refine L.bindSame (L.expr (hk _ List.mem_cons_self) hc) fun v hv => ?_
    exact L.consultHeap (L.hold hc v) fun h hh w hw => hh.unary hv.bound hw
  | binary left op right =>
    exact L.binary hc (hk left (by simp [ExprKind.exprs])) (hk right (by simp [ExprKind.exprs]))
  | cond condition thenBranch elseBranch =>
    refine L.bindEq (L.condition (hk _ (by simp [ExprKind.exprs])) hc) fun b => ?_
    cases b with
    | true => exact L.expr (hk _ (by simp [ExprKind.exprs])) hc
    | false => exact L.expr (hk _ (by simp [ExprKind.exprs])) hc
  | letIn defs body =>
    have hparts := List.forall_mem_append.1 hk
    refine L.bind (L.definitions hc hparts.1) fun child child' hchild => ?_
    exact L.expr (hparts.2 body List.mem_cons_self) hchild
  | setEnum items =>
    refine L.bindSame (L.exprs hc hk) fun vs hvs => ?_
    exact L.bindSame L.heap fun h hh => L.pureSame (hh.mkSet hvs)
  | setRange low high =>
    exact L.range hc (hk low (by simp [ExprKind.exprs])) (hk high (by simp [ExprKind.exprs]))
  | seqEnum items | tuple items =>
    exact L.bindSame (L.exprs hc hk) fun vs hvs => L.pureSame (Value.fromItems_iff.2 hvs)
  | mkRecord tag fields =>
    have hfields : ∀ f ∈ fields, o.expr f.2 := fun f hf => hk f.2 (List.mem_map_of_mem hf)
    exact L.bindSame (L.fields hc hfields) fun fs hfs => L.pureSame (Value.fromFields_iff.2 hfs)
  | new className args =>
    refine L.bindSame (L.exprs hc hk) fun args hargs => ?_
    exact L.bindEq (L.newInstance hargs hc) fun _ => L.pureSame trivial
  | existsIn binds predicate | forAll binds predicate =>
    exact L.bindEq (L.anyBinding hc hk) fun _ => L.pureSame trivial

theorem evalExpr (he : o.expr e) (hparts : o.ExprParts e.kind) : L.Gives c c' (·.evalExpr e ·) := by
  have hnode : o.node (.expr e) := he
  have harrive := L.bindEq (L.arrive hnode hc) fun _ => L.exprKind hc e.location hparts
  rwa [bind_assoc, bind_assoc] at harrive

/-! ### Assignments -/

theorem target {d : Designator} (hd : ∀ e ∈ d.indices, o.expr e) :
    L.Keeps c c' Eq (·.target location · d) := by
  -- A cell that a name or a member stands for, with an empty path.
  have hlift : ∀ {result : Except ValueFault CellId} {i i' : Context}, L.Ctx i i' →
      L.Holds Eq (do return (← E.lift result location i, ([] : List Segment)))
        (do return (← E'.lift result location i', [])) :=
    fun hi => L.bindSame (P := fun _ => True) (L.lift hi fun _ _ => trivial)
      fun cell _ => L.pureEq _
  induction d with
  | name name =>
    refine L.bindSame (L.lookup hc) fun found _ => ?_
    cases found with
    | none => exact L.fail hc
    | some v => exact hlift hc
  | field object field ih =>
    refine L.bindEq (ih hd) fun ⟨cell, path⟩ => ?_
    refine L.bindSame L.heap fun h _ => ?_
    dsimp only
    split
    · exact hlift (L.holdAll _ hc)
    · exact L.pureEq _
  | index seq i ih =>
    obtain ⟨hseq, hi⟩ := List.forall_mem_append.1 hd
    refine L.bindEq (ih hseq) fun ⟨cell, path⟩ => ?_
    exact L.bindEq (L.int (hi i List.mem_cons_self) (L.hold hc _)) fun _ => L.pureEq _

theorem assign {d : Designator} (hd : ∀ e ∈ d.indices, o.expr e) (hv : v.From o) :
    L.Keeps c c' Eq (·.assign d v location ·) := by
  refine L.bindEq (L.target (L.hold hc v) hd) fun ⟨cell, path⟩ => ?_
  have hinner := L.hold hc (.updatable cell)
  -- A value that is assigned as a whole is held while it is stored.
  have hstore : L.Ctx
      (if path.isEmpty then (c.hold (.updatable cell)).hold v else c.hold (.updatable cell))
      (if path.isEmpty then (c'.hold (.updatable cell)).hold v else c'.hold (.updatable cell)) := by
    split
    · exact L.hold hinner v
    · exact hinner
  exact L.write hstore hc hv

theorem assignAll {as : List Assignment} {vs : List Value}
    (has : ∀ a ∈ as, ∀ e ∈ a.target.indices, o.expr e) (hvs : Values.From o vs) :
    L.Keeps c c' Eq (·.assignAll · as vs) := by
  induction as generalizing vs with
  | nil => exact L.pureEq ()
  | cons a as ih =>
    cases vs with
    | nil => exact L.pureEq ()
    | cons v vs =>
      refine L.bindEq (L.assign (L.holdAll vs hc) (has a List.mem_cons_self)
        (hvs v List.mem_cons_self)) fun _ => ?_
      exact ih (fun a ha => has a (List.mem_cons_of_mem _ ha))
        fun w hw => hvs w (List.mem_cons_of_mem _ hw)

theorem assignAtomically {as : List Assignment} (has : ∀ e ∈ as.flatMap (·.exprs), o.expr e) :
    L.Keeps c c' Eq (·.assignAtomically as ·) := by
  have hparts : ∀ a ∈ as, ∀ e ∈ a.exprs, o.expr e := fun a ha e he =>
    has e (List.mem_flatMap.2 ⟨a, ha, he⟩)
  have hvalues : ∀ e ∈ as.map (·.value), o.expr e := by
    intro e he
    obtain ⟨a, ha, rfl⟩ := List.mem_map.1 he
    exact hparts a ha _ List.mem_cons_self
  refine L.within (by decide) hc ?_
  refine L.bindSame (L.exprs hc hvalues) fun vs hvs => ?_
  exact L.assignAll hc (fun a ha e he => hparts a ha e (List.mem_cons_of_mem _ he)) hvs

/-! ### Threads -/

theorem threadOperation {name : Name} :
    L.Keeps c c' (Same (·.From o)) (·.threadOperation ref name location ·) := by
  refine L.bindSame L.heap fun h hh => ?_
  split
  · next op hop =>
    exact L.pureSame ((hh.field hop).resolve_left Bool.false_ne_true)
  · exact L.fail hc

theorem job {d : ThreadDef} (hd : o.Thread d) :
    L.Keeps c c' (Same fun job : Job => job.body.From o) (·.job ref location · d) := by
  cases d with
  | plain body => exact L.pureSame hd
  | periodic period jitter delay offset operation =>
    refine L.within (by decide) hc ?_
    refine L.bindEq (L.nat (hd period (by simp)) hc) fun _ => ?_
    refine L.bindEq (L.nat (hd jitter (by simp)) hc) fun _ => ?_
    refine L.bindEq (L.nat (hd delay (by simp)) hc) fun _ => ?_
    refine L.bindEq (L.nat (hd offset (by simp)) hc) fun _ => ?_
    exact L.bindSame (L.threadOperation hc) fun body hbody => L.pureSame hbody
  | sporadic minDelay maxDelay offset operation =>
    refine L.within (by decide) hc ?_
    refine L.bindEq (L.nat (hd minDelay (by simp)) hc) fun _ => ?_
    refine L.bindEq (L.nat (hd maxDelay (by simp)) hc) fun _ => ?_
    refine L.bindEq (L.nat (hd offset (by simp)) hc) fun _ => ?_
    exact L.bindSame (L.threadOperation hc) fun body hbody => L.pureSame hbody

theorem start : L.Keeps c c' Eq (·.start ref location ·) := by
  have hheld := L.hold hc (.object ref)
  refine L.bindSame L.heap fun h _ => ?_
  split
  · exact L.fail hheld
  · refine L.bindSame L.classScope fun scope hscope => ?_
    cases hthread : scope.bind (·.definition.thread) with
    | none => exact L.fail hheld
    | some thread =>
      obtain ⟨scope, rfl, hthread⟩ := Option.bind_eq_some_iff.1 hthread
      refine L.bindSame (L.job hheld ((hscope scope rfl).thread thread hthread)) fun job hjob => ?_
      refine L.bindEq L.timeLimit fun limit => ?_
      split
      · exact L.fail hheld
      · exact L.spawn hheld hjob

theorem startAll {refs : List ObjectRef} : L.Keeps c c' Eq (·.startAll location · refs) := by
  induction refs with
  | nil => exact L.pureEq ()
  | cons ref rest ih => exact L.bindEq (L.start (L.holdAll _ hc)) fun _ => ih

omit hc in
theorem stopAll {refs : List ObjectRef} :
    L.Holds Eq (Engine.stopAll refs) (Engine.stopAll refs) := by
  induction refs with
  | nil => exact L.pureEq ()
  | cons ref rest ih => exact L.bindEq L.stop fun _ => ih

theorem objectsOf {vs : List Value} : L.Keeps c c' Eq (·.objectsOf location · vs) := by
  induction vs with
  | nil => exact L.pureEq []
  | cons v rest ih =>
    refine L.bindEq (L.consultHeap' hc) fun ref => ?_
    exact L.bindEq ih fun refs => L.pureEq (ref :: refs)

theorem objects (he : o.expr e) : L.Keeps c c' Eq (·.objects e ·) :=
  L.bindSame (L.set he hc) fun items _ => L.objectsOf (L.holdAll items hc)

/-! ### Blocks and choices -/

theorem declare {ds : List Declaration} (hds : ∀ e ∈ ds.flatMap (·.init.toList), o.expr e)
    (hdeclares : ∀ d ∈ ds, o.declares d.init d.ty) :
    L.Keeps c c' L.Ctx (·.declare ds ·) := by
  induction ds generalizing c c' with
  | nil => exact L.pure hc
  | cons d rest ih =>
    simp only [List.flatMap_cons, List.forall_mem_append] at hds
    have hinit : ∀ e, d.init = some e → o.expr e := fun e he => hds.1 e (by simp [he])
    obtain ⟨hd, hrest⟩ := List.forall_mem_cons.1 hdeclares
    refine L.bindSame (L.newVariable hinit hd hc) fun cell hcell => ?_
    exact ih (L.bindName hc d.name hcell) hds.2 hrest

theorem sequence {ss : List Stmt} (hss : ∀ s ∈ ss, o.stmt s) : L.Gives c c' (·.sequence · ss) := by
  induction ss with
  | nil => exact L.pureSame trivial
  | cons s rest ih =>
    refine L.bindSame (L.stmt (hss s List.mem_cons_self) hc) fun v hv => ?_
    split
    · exact ih fun s hs => hss s (List.mem_cons_of_mem _ hs)
    · exact L.pureSame hv

theorem firstMatch {predicate : Option Expr} {ms : List Matched}
    (hp : ∀ e, predicate = some e → o.expr e) (hbody : o.stmt body)
    (hms : ∀ matched ∈ ms, Bindings.From o matched) :
    L.Gives c c' (·.firstMatch predicate body location · ms) := by
  induction ms with
  | nil => exact L.fail hc
  | cons matched rest ih =>
    refine L.bind (L.derive (L.holdAll _ hc)) fun child child' hchild => ?_
    have hbound := L.bindAll hchild (hms matched List.mem_cons_self)
    have hrest := ih fun m hm => hms m (List.mem_cons_of_mem _ hm)
    -- What comes after the predicate, whether there is one or not.
    have hgo : ∀ satisfied : Bool, L.Holds (Same (·.From o))
        (if satisfied then E.stmt body (child.bindAll matched)
          else E.firstMatch predicate body location c rest)
        (if satisfied then E'.stmt body (child'.bindAll matched)
          else E'.firstMatch predicate body location c' rest) := by
      intro satisfied
      split
      · exact L.stmt hbody hbound
      · exact hrest
    cases predicate with
    | none => exact L.bindEq (L.pureEq true) hgo
    | some p => exact L.bindEq (L.condition (hp p rfl) hbound) hgo

theorem firstBranch {otherwise : Option Stmt} {branches : List (Expr × Stmt)}
    (hs : ∀ s, otherwise = some s → o.stmt s)
    (hbranches : ∀ b ∈ branches, o.expr b.1 ∧ o.stmt b.2) :
    L.Gives c c' (·.firstBranch otherwise · branches) := by
  induction branches with
  | nil =>
    cases otherwise with
    | none => exact L.pureSame trivial
    | some s => exact L.stmt (hs s rfl) hc
  | cons b rest ih =>
    obtain ⟨hcondition, hbody⟩ := hbranches b List.mem_cons_self
    refine L.bindEq (L.condition hcondition hc) fun holds => ?_
    cases holds with
    | true => exact L.stmt hbody hc
    | false => exact ih fun b hb => hbranches b (List.mem_cons_of_mem _ hb)

omit hc in
/-- The alternative that is chosen is one of them, and what it binds (`Bindings`) comes from the
origin. -/
theorem from_of_firstAlternative {h : Heap} (hh : h.From o) (hv : v.Bound o)
    {alternatives : List CaseAlternative} {matched : Matched}
    (hf : Engine.firstAlternative h v alternatives = some (matched, body)) :
    Bindings.From o matched ∧ body ∈ alternatives.map (·.body) := by
  induction alternatives with
  | nil => cases hf
  | cons a rest ih =>
    rw [Engine.firstAlternative] at hf
    split at hf
    · next hfind =>
      cases hf
      obtain ⟨p, -, hmatch⟩ := List.exists_of_findSome?_eq_some hfind
      exact ⟨(hh.match? hv hmatch).bindings, List.mem_cons_self⟩
    · exact (ih hf).imp_right (List.mem_cons_of_mem _)

theorem caseStatement {selector : Expr} {alternatives : List CaseAlternative} {others : Option Stmt}
    (he : o.expr selector) (halternatives : ∀ s ∈ alternatives.map (·.body), o.stmt s)
    (hothers : ∀ s, others = some s → o.stmt s) :
    L.Gives c c' (·.caseStatement selector alternatives others location ·) := by
  refine L.bindSame (L.expr he hc) fun v hv => ?_
  have hheld := L.hold hc v
  refine L.bindSame L.heap fun h hh => ?_
  split
  · next hfirst =>
    obtain ⟨hmatched, hmem⟩ := from_of_firstAlternative hh hv.bound hfirst
    refine L.bind (L.derive hheld) fun child child' hchild => ?_
    exact L.stmt (halternatives _ hmem) (L.bindAll hchild hmatched)
  · cases others with
    | none => exact L.pureSame trivial
    | some s => exact L.stmt (hothers s rfl) hheld

/-! ### Loops -/

theorem countingLoop {var : Name} {stop step : Int} (hbody : o.stmt body) (i : Int) :
    L.Gives c c' (·.countingLoop var stop step body location · i) := by
  induction i using Engine.countingLoop.induct stop step with
  | case1 i hgo ih =>
    unfold Gives Keeps Engine.countingLoop
    beta_reduce
    rw [dif_pos hgo, dif_pos hgo]
    refine L.bind (L.derive hc) fun child child' hchild => ?_
    have hint : (Value.int i).From o := trivial
    refine L.bindSame (L.stmt hbody (L.bindName hchild var hint.bound)) fun v hv => ?_
    split
    · exact L.pureSame hv
    · split
      · exact ih
      · exact L.pureSame trivial
  | case2 i hgo =>
    unfold Gives Keeps Engine.countingLoop
    beta_reduce
    rw [dif_neg hgo, dif_neg hgo]
    exact L.pureSame trivial

theorem stride {step : Option Expr} (hstep : ∀ e, step = some e → o.expr e) :
    L.Keeps c c' Eq (·.stride step ·) := by
  cases step with
  | none => exact L.pureEq 1
  | some e => exact L.int (hstep e rfl) hc

theorem forIndex {var : Name} {first last : Expr} {step : Option Expr} (hfirst : o.expr first)
    (hlast : o.expr last) (hstep : ∀ e, step = some e → o.expr e) (hbody : o.stmt body) :
    L.Gives c c' (·.forIndex var first last step body location ·) := by
  refine L.bindEq (L.int hfirst hc) fun first => ?_
  refine L.bindEq (L.int hlast hc) fun last => ?_
  refine L.bindEq (L.stride hc hstep) fun step => ?_
  split
  · exact L.fail hc
  · exact L.countingLoop hc hbody first

theorem forAllItems {p : Pattern} {items : List Value} (hbody : o.stmt body)
    (hitems : Values.From o items) : L.Gives c c' (·.forAllItems p body location · items) := by
  induction items with
  | nil => exact L.pureSame trivial
  | cons item rest ih =>
    have hrest := ih fun v hv => hitems v (List.mem_cons_of_mem _ hv)
    refine L.bindSame L.heap fun h hh => ?_
    cases hmatch : h.match? p item with
    | none => exact hrest
    | some matched =>
      have hmatched := (hh.match? (hitems item List.mem_cons_self).bound hmatch).bindings
      refine L.bind (L.derive (L.holdAll _ hc)) fun child child' hchild => ?_
      refine L.bindSame (L.stmt hbody (L.bindAll hchild hmatched)) fun v hv => ?_
      split
      · exact hrest
      · exact L.pureSame hv

theorem forEachItem {b : PatternBind} {items : List Value} (hb : ∀ e ∈ b.exprs, o.expr e)
    (hbody : o.stmt body) (hitems : Values.From o items) :
    L.Gives c c' (·.forEachItem b body location · items) := by
  induction items with
  | nil => exact L.pureSame trivial
  | cons item rest ih =>
    have hrest := ih fun v hv => hitems v (List.mem_cons_of_mem _ hv)
    have hinner := L.holdAll (item :: rest) hc
    refine L.bindSame (L.bindValue hinner hb (hitems item List.mem_cons_self))
      fun found hfound => ?_
    cases found with
    | none => exact hrest
    | some matched =>
      refine L.bind (L.derive hinner) fun child child' hchild => ?_
      refine L.bindSame (L.stmt hbody (L.bindAll hchild (hfound matched rfl))) fun v hv => ?_
      split
      · exact hrest
      · exact L.pureSame hv

omit hc in
/-- A loop without any `rounds` left. The second engine may have more of them. -/
theorem outOfRounds {α : Type} {Q : α → α → Prop} {y : Nat → Eval α}
    (hrounds : E'.rounds = E.rounds + d) (hy : y 0 = throw .exhausted) :
    L.Holds Q (throw .exhausted) (y d) := by
  cases d with
  | zero =>
    rw [hy]
    exact L.exhausted
  | succ d => exact L.cutOff (by omega)

theorem whileLoop {condition : Expr} (he : o.expr condition) (hbody : o.stmt body)
    (hrounds : E'.rounds = E.rounds + d) (n : Nat) :
    L.Holds (Same (·.From o)) (E.whileLoop condition body location c n)
      (E'.whileLoop condition body location c' (n + d)) := by
  induction n with
  | zero =>
    rw [Nat.zero_add]
    exact L.outOfRounds (y := E'.whileLoop condition body location c') hrounds rfl
  | succ n ih =>
    rw [Nat.add_right_comm]
    refine L.bindEq (L.condition he hc) fun holds => ?_
    cases holds with
    | false => exact L.pureSame trivial
    | true =>
      refine L.bind (L.derive hc) fun child child' hchild => ?_
      refine L.bindSame (L.stmt hbody hchild) fun v hv => ?_
      split
      · exact ih
      · exact L.pureSame hv

/-! ### Exits -/

theorem always {cleanup : Stmt} (hcleanup : o.stmt cleanup) (hbody : o.stmt body) :
    L.Gives c c' (·.always cleanup body ·) := by
  -- The three ends of the body: a value, an end that can be handled, and an unwinding one.
  refine L.handle (L.stmt hbody hc) ?_ ?_ ?_
  · rintro v _ ⟨rfl, hv⟩
    exact L.bindSame (L.stmt hcleanup (L.hold hc v)) fun _ _ => L.pureSame hv
  · intro halt halt' hhalts hunwinding hfrom
    dsimp only
    rw [L.isUnwinding hhalts, hunwinding]
    exact L.bindSame (L.stmt hcleanup (L.holdOutcome hc hhalts)) fun _ _ =>
      L.rethrow hhalts hunwinding hfrom
  · intro halt hunwinding
    dsimp only
    rw [hunwinding]
    exact ⟨rfl, rfl⟩

section Handlers

-- A handler looks at the early end, so it has to be the same on both sides.
variable (hfaithful : L.Faithful)

include hfaithful

theorem trap {b : PatternBind} {handler : Stmt} (hb : ∀ e ∈ b.exprs, o.expr e)
    (hhandler : o.stmt handler) (hbody : o.stmt body) :
    L.Gives c c' (·.trap b handler body location ·) := by
  refine L.handle (L.stmt hbody hc) ?_ ?_ ?_
  · rintro v _ ⟨rfl, hv⟩
    exact L.pureSame hv
  · intro halt halt' hhalts hunwinding hfrom
    obtain rfl := hfaithful hhalts
    cases halt' with
    | exit value raised =>
      have hheld := L.hold hc value
      refine L.bindSame (L.bindValue hheld hb hfrom) fun found hfound => ?_
      cases found with
      | none => exact L.rethrow hhalts hunwinding hfrom
      | some matched =>
        refine L.bind (L.derive hheld) fun child child' hchild => ?_
        exact L.stmt hhandler (L.bindAll hchild (hfound matched rfl))
    | _ => exact L.rethrow hhalts hunwinding hfrom
  · intro halt hunwinding
    cases halt with
    | exit value raised => cases hunwinding
    | _ => exact ⟨rfl, rfl⟩

/-- The first `handler` that takes a value, with what is done about its `Outcome`: that may be an
early end that no handler sees, so the two can only be looked at together. -/
theorem firstHandler {β : Type} {R : β → β → Prop} {f g : Option Outcome → Eval β} (hv : v.From o)
    (hbinds : ∀ e ∈ alternatives.flatMap (·.bind.exprs), o.expr e)
    (hhandlers : ∀ s ∈ alternatives.map (·.handler), o.stmt s) (hnone : L.Holds R (f none) (g none))
    (hok : ∀ w : Value, w.From o → L.Holds R (f (some (.ok w))) (g (some (.ok w))))
    (herror : ∀ halt, L.Halts halt halt → halt.isUnwinding = false → halt.From o →
      L.Holds R (f (some (.error halt))) (g (some (.error halt))))
    (hunwinding : ∀ halt, halt.isUnwinding = true →
      f (some (.error halt)) = throw halt ∧ g (some (.error halt)) = throw halt) :
    L.Holds R (E.firstHandler v location c alternatives >>= f)
      (E'.firstHandler v location c' alternatives >>= g) := by
  induction alternatives with
  | nil =>
    unfold Engine.firstHandler
    rw [pure_bind, pure_bind]
    exact hnone
  | cons a rest ih =>
    simp only [List.flatMap_cons, List.forall_mem_append] at hbinds
    obtain ⟨hhandler, hrest⟩ := List.forall_mem_cons.1 hhandlers
    unfold Engine.firstHandler
    rw [bind_assoc, bind_assoc]
    refine L.bindSame (L.bindValue hc hbinds.1 hv) fun found hfound => ?_
    cases found with
    | none => exact ih hbinds.2 hrest
    | some matched =>
      dsimp only
      rw [bind_assoc, bind_assoc]
      refine L.bind (L.derive hc) fun child child' hchild => ?_
      simp only [bind_assoc, pure_bind]
      -- The outcome of the handler is not looked at here, but in what follows.
      refine L.handle (L.stmt hhandler (L.bindAll hchild (hfound matched rfl))) ?_ ?_ hunwinding
      · rintro w _ ⟨rfl, hw⟩
        exact hok w hw
      · intro halt halt' hhalts hunwinding hfrom
        obtain rfl := hfaithful hhalts
        exact herror halt' hhalts hunwinding hfrom

theorem handleExits (hbinds : ∀ e ∈ alternatives.flatMap (·.bind.exprs), o.expr e)
    (hhandlers : ∀ s ∈ alternatives.map (·.handler), o.stmt s) (hrounds : E'.rounds = E.rounds + d)
    (n : Nat) {raised : Location} (hv : v.From o)
    (hraised : L.Halts (.exit v raised) (.exit v raised)) :
    L.Holds (Same (·.From o)) (E.handleExits alternatives location c n v raised)
      (E'.handleExits alternatives location c' (n + d) v raised) := by
  induction n generalizing v raised with
  | zero =>
    rw [Nat.zero_add]
    exact L.outOfRounds (y := (E'.handleExits alternatives location c' · v raised)) hrounds rfl
  | succ n ih =>
    rw [Nat.add_right_comm]
    refine L.firstHandler (L.hold hc v) hfaithful hv hbinds hhandlers ?_
      (fun w hw => L.pureSame hw) ?_ ?_
    · exact L.rethrow hraised rfl hv
    · intro halt hhalts hunwinding hfrom
      cases halt with
      -- A handler that exits again is followed by another round.
      | exit next again => exact ih hfrom hhalts
      | _ => exact L.rethrow hhalts hunwinding hfrom
    · intro halt hunwinding
      cases halt with
      | exit next again => cases hunwinding
      | _ => exact ⟨rfl, rfl⟩

theorem tixe (hbinds : ∀ e ∈ alternatives.flatMap (·.bind.exprs), o.expr e)
    (hhandlers : ∀ s ∈ alternatives.map (·.handler), o.stmt s) (hbody : o.stmt body) :
    L.Gives c c' (·.tixe alternatives body location ·) := by
  obtain ⟨d, hrounds⟩ := Nat.exists_eq_add_of_le L.engines.rounds
  unfold Gives Keeps Engine.tixe
  beta_reduce
  rw [hrounds]
  refine L.handle (L.stmt hbody hc) ?_ ?_ ?_
  · rintro v _ ⟨rfl, hv⟩
    exact L.pureSame hv
  · intro halt halt' hhalts hunwinding hfrom
    obtain rfl := hfaithful hhalts
    cases halt' with
    | exit value raised => exact L.handleExits hc hfaithful hbinds hhandlers hrounds _ hfrom hhalts
    | _ => exact L.rethrow hhalts hunwinding hfrom
  · intro halt hunwinding
    cases halt with
    | exit value raised => cases hunwinding
    | _ => exact ⟨rfl, rfl⟩

end Handlers

/-! ### Calls and time -/

theorem callByName {name : Name} (hargs : ∀ e ∈ args, o.expr e) :
    L.Gives c c' (·.callByName name args location ·) := by
  refine L.bindSame (L.lookup hc) fun found hfound => ?_
  cases found with
  | none => exact L.fail hc
  | some callee =>
    have hheld := L.hold hc callee
    refine L.bindSame (L.exprs hheld hargs) fun vs hvs => ?_
    exact L.bindSame L.heap fun h hh =>
      L.apply (L.calls hheld) (hh.deref (hfound callee rfl)).bound hvs

theorem callMember {args : List Value} (hargs : Values.From o args) :
    L.Gives c c' (·.callMember ref field args location ·) := by
  refine L.bindSame L.heap fun h hh => ?_
  cases hfield : h.field ref field with
  | ok member => exact L.apply (L.calls hc) (hh.deref (hh.field hfield)).bound hargs
  | error _ =>
    refine L.bindSame (L.delegate hc hargs) fun found hfound => ?_
    cases found with
    | none => exact L.fail hc
    | some v => exact L.pureSame (hfound v rfl)

theorem callOn {t t' : Thread} (ht : L.Threads t t') (hargs : ∀ e ∈ args, o.expr e) :
    L.Holds (Same (·.From o)) (E.callOn t.isStepping ref field args location c)
      (E'.callOn t'.isStepping ref field args location c') := by
  have hinner := L.hold hc (.object ref)
  refine L.bindSame (L.exprs hinner hargs) fun vs hvs => ?_
  refine L.bindSame L.heap fun h _ => ?_
  -- The arguments are held only if there is no such member and a delegate is asked.
  have hcall : L.Ctx
      (if (h.field ref field).isOk then c.hold (.object ref) else (c.hold (.object ref)).holdAll vs)
      (if (h.field ref field).isOk then c'.hold (.object ref)
        else (c'.hold (.object ref)).holdAll vs) := by
    split
    · exact hinner
    · exact L.holdAll vs hinner
  refine L.bindSame (L.callMember hcall hvs) fun result hresult => ?_
  exact L.bindEq (L.comeBack hc (L.hold hcall result) ht) fun _ => L.pureSame hresult

theorem callObject {designator : Expr} (he : o.expr designator) (hplace : o.Place location)
    (hargs : ∀ e ∈ args, o.expr e) :
    L.Gives c c' (·.callObject designator field args location ·) := by
  refine L.bind (L.thread hc) fun t t' ht => ?_
  refine L.bindEq (L.object he hc) fun ref => ?_
  dsimp only
  split
  · next hshares => exact L.bindEq (L.unhit he hplace hshares) fun _ => L.callOn hc ht hargs
  · exact L.callOn hc ht hargs

theorem amount (he : o.expr e) : L.Keeps c c' Eq (·.amount e location ·) := by
  refine L.bindEq (L.within (by decide) hc ?_) fun x => ?_
  · exact L.bindSame (L.expr he hc) fun v _ => L.consultHeap' (L.hold hc v)
  · split
    · exact L.fail hc
    · exact L.pureEq _

theorem timed (hspend : L.Spends) {cost : Engine.Cost} (he : o.expr e) (hbody : o.stmt body) :
    L.Gives c c' (·.timed cost e body location ·) :=
  L.bindEq (L.amount hc he) fun _ => hspend hbody hc

/-! ### All statements -/

/-- Statements of every kind, from what is known of their parts. -/
theorem stmtKind {kind : StmtKind} (hspend : kind.isTimed = true → L.Spends)
    (hfaithful : kind.handles = true → L.Faithful) (hplace : o.Place location)
    (hk : o.StmtParts kind) : L.Gives c c' (·.stmtKind kind location ·) := by
  obtain ⟨hexprs, hstmts, hdeclares⟩ := hk
  cases kind with
  | assign a =>
    obtain ⟨hvalue, htarget⟩ := List.forall_mem_cons.1 hexprs
    refine L.bindSame (L.expr hvalue hc) fun v hv => ?_
    exact L.bindEq (L.assign hc htarget hv) fun _ => L.pureSame trivial
  | atomic as => exact L.bindEq (L.assignAtomically hc hexprs) fun _ => L.pureSame trivial
  | block dcls body =>
    refine L.bind (L.derive hc) fun child child' hchild => ?_
    exact L.bind (L.declare hchild hexprs hdeclares) fun _ _ hd => L.sequence hd hstmts
  | letIn defs body | defIn defs body =>
    refine L.bind (L.definitions hc hexprs) fun child child' hchild => ?_
    exact L.stmt (hstmts body List.mem_cons_self) hchild
  | letBeSt binds predicate body =>
    obtain ⟨hbinds, hpredicate⟩ := List.forall_mem_append.1 hexprs
    refine L.bindSame (L.combinations hc hbinds) fun ms hms => ?_
    exact L.firstMatch hc (fun e he => hpredicate e (by simp [he])) (hstmts body List.mem_cons_self)
      hms
  | cond condition thenBranch elseifs elseBranch =>
    obtain ⟨hcondition, helseifs⟩ := List.forall_mem_cons.1 hexprs
    obtain ⟨hbodies, helse⟩ := List.forall_mem_append.1 hstmts
    obtain ⟨hthen, hbodies⟩ := List.forall_mem_cons.1 hbodies
    refine L.firstBranch hc (fun s hs => helse s (by simp [hs])) ?_
    -- The first branch is one of the branches.
    refine List.forall_mem_cons.2 ⟨⟨hcondition, hthen⟩, fun b hb => ⟨?_, ?_⟩⟩
    · exact helseifs _ (List.mem_map_of_mem hb)
    · exact hbodies _ (List.mem_map_of_mem hb)
  | cases selector alternatives others =>
    obtain ⟨hbodies, hothers⟩ := List.forall_mem_append.1 hstmts
    exact L.caseStatement hc (hexprs selector List.mem_cons_self) hbodies
      (fun s hs => hothers s (by simp [hs]))
  | forIndex var first last step body =>
    obtain ⟨hbounds, hstep⟩ := List.forall_mem_append.1 hexprs
    exact L.forIndex hc (hbounds first (by simp)) (hbounds last (by simp))
      (fun e he => hstep e (by simp [he])) (hstmts body List.mem_cons_self)
  | forAll pattern set body =>
    refine L.bindSame (L.set (hexprs set List.mem_cons_self) hc) fun items hitems => ?_
    exact L.forAllItems hc (hstmts body List.mem_cons_self) hitems
  | forPattern bind seq reverse body =>
    obtain ⟨hbind, hseq⟩ := List.forall_mem_append.1 hexprs
    refine L.bindSame (L.seq (hseq seq List.mem_cons_self) hc) fun items hitems => ?_
    refine L.forEachItem hc hbind (hstmts body List.mem_cons_self) ?_
    split
    · exact fun v hv => hitems v (List.mem_reverse.1 hv)
    · exact hitems
  | «while» condition body =>
    obtain ⟨d, hrounds⟩ := Nat.exists_eq_add_of_le L.engines.rounds
    unfold Gives Keeps Engine.stmtKind
    dsimp only
    rw [hrounds]
    exact L.whileLoop hc (hexprs condition List.mem_cons_self) (hstmts body List.mem_cons_self)
      hrounds _
  | call name args => exact L.callByName hc hexprs
  | callObject designator field args =>
    obtain ⟨hdesignator, hargs⟩ := List.forall_mem_cons.1 hexprs
    exact L.callObject hc hdesignator hplace hargs
  | start e =>
    refine L.bindEq (L.object (hexprs e List.mem_cons_self) hc) fun ref => ?_
    exact L.bindEq (L.start hc) fun _ => L.pureSame trivial
  | startList e =>
    refine L.bindEq (L.objects hc (hexprs e List.mem_cons_self)) fun refs => ?_
    exact L.bindEq (L.startAll hc) fun _ => L.pureSame trivial
  | stop e =>
    refine L.bindEq (L.object (hexprs e List.mem_cons_self) hc) fun ref => ?_
    exact L.bindEq L.stopAll fun _ => L.pureSame trivial
  | stopList e =>
    refine L.bindEq (L.objects hc (hexprs e List.mem_cons_self)) fun refs => ?_
    exact L.bindEq L.stopAll fun _ => L.pureSame trivial
  | cycles e body | duration e body =>
    exact L.timed hc (hspend rfl) (hexprs e List.mem_cons_self) (hstmts body List.mem_cons_self)
  | always cleanup body =>
    obtain ⟨hcleanup, hbody⟩ := List.forall_mem_cons.1 hstmts
    exact L.always hc hcleanup (hbody body List.mem_cons_self)
  | trap bind handler body =>
    obtain ⟨hhandler, hbody⟩ := List.forall_mem_cons.1 hstmts
    exact L.trap hc (hfaithful rfl) hexprs hhandler (hbody body List.mem_cons_self)
  | tixe alternatives body =>
    obtain ⟨hhandlers, hbody⟩ := List.forall_mem_append.1 hstmts
    exact L.tixe hc (hfaithful rfl) hexprs hhandlers (hbody body List.mem_cons_self)
  | exit value =>
    cases value with
    | none => exact L.raise hc trivial
    | some e => exact L.bindSame (L.expr (hexprs e List.mem_cons_self) hc) fun v hv => L.raise hc hv
  | «return» value =>
    cases value with
    | none => exact L.pureSame trivial
    | some e =>
      refine L.bindSame (L.expr (hexprs e List.mem_cons_self) hc) fun v hv => L.pureSame ?_
      split
      · trivial
      · exact hv
  | classInvariant clauses => exact L.bindEq (L.invariant hc hexprs) fun _ => L.pureSame trivial
  | notYetSpecified => exact L.unspecified hc
  | skip => exact L.pureSame trivial

theorem evalStmt {s : Stmt} (hspend : s.kind.isTimed = true → L.Spends)
    (hfaithful : s.kind.handles = true → L.Faithful) (hs : o.stmt s) (hparts : o.StmtParts s.kind) :
    L.Gives c c' (·.evalStmt s ·) := by
  have hnode : o.node (.stmt s) := hs
  have harrive := L.bindEq (L.arrive hnode hc) fun _ =>
    L.stmtKind hc hspend hfaithful (Origin.place_of_stmt hs) hparts
  rwa [bind_assoc, bind_assoc] at harrive

end Logic

end Animator
