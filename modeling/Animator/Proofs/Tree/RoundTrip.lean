import Animator.Proofs.Logic.Entry
import Animator.Proofs.Tree.Restores

/-!
# Models in documents

A model that is written as a document and read again is the same model: all its parts are there, at
every depth, in the same order and with the same numbers. Only the hit counters are not part of a
document. Each place gets a new one, so that a model that was read has not been hit anywhere.

The readers descend with a bound on the size of the document; `Stmt.Readers n` says that everything
whose document is no larger than `n` can be read with bound `n`, and one more level of each reader
needs only the readers of its parts.

Main statement: `written_model_reads_back`.
-/

namespace Animator

open Json (Mismatch Fields)

open Tree (forget counters Fits)

open Read (Restores Reads restores_name restores_ty restores_types restores_string restores_boolean
  restores_location restores_nodeId)

/-! ### Statements -/

theorem PatternBind.restores {b : PatternBind} (h : Fits b) :
    Restores (PatternBind.ofJson b.toJson) b := by
  cases b with
  | pattern p => exact .build₁ (p.restores h) rfl
  | bind b => exact .build₁ (b.restores h) rfl

theorem Designator.reads (n : Nat) : Reads (Designator.read n) Designator.toJson n := by
  induction n with
  | zero => exact .zero
  | succ n ih =>
    intro d h hn
    cases d with
    | name name => exact .build₁ (restores_name name) rfl
    | field d member =>
      simp only [Designator.toJson, Json.size_taggedObj, Json.sizeFields] at hn
      exact .build₂ (ih d h.1 (by omega)) (restores_name member) rfl
    | index d e =>
      simp only [Designator.toJson, Json.size_taggedObj, Json.sizeFields] at hn
      exact .build₂ (ih d h.1 (by omega)) (e.restores h.2) rfl

theorem Assignment.restores {a : Assignment} (h : Fits a) :
    Restores (Assignment.ofJson a.toJson) a := by
  obtain ⟨target, value, location⟩ := a
  obtain ⟨⟨htarget, hvalue⟩, hlocation⟩ := h
  exact .fields rfl (.build₃ (.required rfl (Designator.reads _ target htarget (Nat.le_refl _)))
    (.required rfl (value.restores hvalue)) (.required rfl (restores_location hlocation)) rfl)

theorem Declaration.restores {d : Declaration} (h : Fits d) :
    Restores (Declaration.ofJson d.toJson) d := by
  obtain ⟨name, ty, init, location⟩ := d
  obtain ⟨⟨-, hinit⟩, hlocation⟩ := h
  rw [Declaration.ofJson]
  simp only [Read.required_bind]
  exact .fields rfl (.build₄ (.required rfl (restores_name name)) (.required rfl (restores_ty ty))
    (Expr.restores_option hinit rfl) (.required rfl (restores_location hlocation)) rfl)

theorem Stmt.toJsons_eq : ∀ ss, Stmt.toJsons ss = ss.map Stmt.toJson :=
  Json.eq_map rfl fun _ _ => rfl

theorem Stmt.toJson_ne_null (s : Stmt) : s.toJson ≠ .null := by
  cases s
  simp [Stmt.toJson]

theorem Stmt.optionJson_eq (s : Option Stmt) :
    Stmt.optionJson s = Json.ofOption (s.map Stmt.toJson) := by
  cases s <;> rfl

theorem Stmt.branchJsons_eq :
    ∀ bs, Stmt.branchJsons bs = bs.map fun b => .arr [b.1.toJson, b.2.toJson] :=
  Json.eq_map rfl fun _ _ => rfl

theorem CaseAlternative.toJsons_eq :
    ∀ as, CaseAlternative.toJsons as = as.map CaseAlternative.toJson :=
  Json.eq_map rfl fun _ _ => rfl

theorem TixeAlternative.toJsons_eq :
    ∀ as, TixeAlternative.toJsons as = as.map TixeAlternative.toJson :=
  Json.eq_map rfl fun _ _ => rfl

/-- The `Readers` of statements and of what they are made of read everything up to a size. -/
structure Stmt.Readers (n : Nat) : Prop where
  stmt : Reads (Stmt.read n) Stmt.toJson n
  kind : Reads (StmtKind.read n) StmtKind.toJson n
  alternative : Reads (CaseAlternative.read n) CaseAlternative.toJson n
  handler : Reads (TixeAlternative.read n) TixeAlternative.toJson n

namespace Stmt.Readers

/-- The value of an `exit` or a `return` is its whole content. -/
theorem leaving {n : Nat} {j : Json} (hj : j ≠ .null) {e : Expr} (h : Restores (Expr.ofJson j) e) :
    Restores (StmtKind.read (n + 1) (.tagged "exit" j)) (.exit (some e)) ∧
      Restores (StmtKind.read (n + 1) (.tagged "return" j)) (.return (some e)) := by
  cases j with
  | null => exact absurd rfl hj
  | _ =>
    exact ⟨.build₁ (k := fun e => StmtKind.exit (some e)) h rfl,
      .build₁ (k := fun e => StmtKind.return (some e)) h rfl⟩

variable {n : Nat} (h : Readers n)

include h

theorem stmt_succ : Reads (Stmt.read (n + 1)) Stmt.toJson (n + 1) := by
  rintro ⟨id, location, kind⟩ ⟨⟨hid, hlocation⟩, hkind⟩ hn
  simp only [Stmt.toJson, Json.size_obj, Json.sizeFields] at hn
  rw [Stmt.read]
  exact .fields rfl (.build₃ (restores_nodeId rfl hid) (.required rfl (restores_location hlocation))
    (.required rfl (h.kind kind hkind (by omega))) rfl)

theorem branch : Reads
    (fun j => do let (c, s) ← j.pair; return (← Expr.ofJson c, ← Stmt.read n s))
    (fun b : Expr × Stmt => .arr [b.1.toJson, b.2.toJson]) n := by
  rintro ⟨condition, body⟩ ⟨hcondition, hbody⟩ hn
  simp only [Json.size_arr, Json.sizeItems] at hn
  exact .build₂ (condition.restores hcondition) (h.stmt body hbody (by omega)) rfl

theorem option {s : Option Stmt} (hfits : Fits s) (hn : (Stmt.optionJson s).size ≤ n) :
    Restores (Read.optional ⟨fun _ => some (Stmt.optionJson s)⟩ "" (Stmt.read n)) s :=
  h.stmt.option (congrArg some (optionJson_eq s)) toJson_ne_null hfits (by rwa [← optionJson_eq])

theorem alternative_succ :
    Reads (CaseAlternative.read (n + 1)) CaseAlternative.toJson (n + 1) := by
  rintro ⟨patterns, body⟩ ⟨hpatterns, hbody⟩ hn
  simp only [CaseAlternative.toJson, Json.size_obj, Json.sizeFields] at hn
  rw [CaseAlternative.read]
  exact .fields rfl (.build₂ (.required rfl (Pattern.restores_list hpatterns))
    (.required rfl (h.stmt body hbody (by omega))) rfl)

theorem handler_succ : Reads (TixeAlternative.read (n + 1)) TixeAlternative.toJson (n + 1) := by
  rintro ⟨bind, handler⟩ ⟨hbind, hhandler⟩ hn
  simp only [TixeAlternative.toJson, Json.size_obj, Json.sizeFields] at hn
  rw [TixeAlternative.read]
  exact .fields rfl (.build₂ (.required rfl (bind.restores hbind))
    (.required rfl (h.stmt handler hhandler (by omega))) rfl)

/-- Statements that were written can be read again, constructor by constructor. -/
theorem kind_succ : Reads (StmtKind.read (n + 1)) StmtKind.toJson (n + 1) := by
  intro kind hkind hn
  -- Each part is smaller than the whole.
  cases kind with
    simp only [StmtKind.toJson, Json.size_tagged, Json.size_taggedObj, Json.sizeFields,
      Json.size_arr] at hn
  | assign assignment => exact .build₁ (assignment.restores hkind) rfl
  | atomic assignments => exact .build₁ (.all (fun _ => Assignment.restores) rfl hkind) rfl
  | block dcls body =>
    exact .build₂ (.all (fun _ => Declaration.restores) rfl hkind.1)
      (h.stmt.list (toJsons_eq body) hkind.2 (by omega)) rfl
  | letIn defs body =>
    exact .build₂ (Definition.restores_list hkind.1) (h.stmt body hkind.2 (by omega)) rfl
  | defIn defs body =>
    exact .build₂ (Definition.restores_list hkind.1) (h.stmt body hkind.2 (by omega)) rfl
  | letBeSt binds predicate body =>
    exact .build₃ (.all (fun _ => Bind.restores) (Bind.toJsons_eq binds) hkind.1.1)
      (Expr.restores_optional hkind.1.2) (h.stmt body hkind.2 (by omega)) rfl
  | cond condition thenBranch elseifs elseBranch =>
    obtain ⟨⟨⟨hcondition, hthen⟩, helseifs⟩, helse⟩ := hkind
    have helse : Fits elseBranch := by cases elseBranch <;> exact helse
    exact .build₄ (condition.restores hcondition) (h.stmt thenBranch hthen (by omega))
      (h.branch.list (branchJsons_eq elseifs) helseifs (by omega)) (h.option helse (by omega))
      (by funext _ _ _ o; cases o <;> rfl)
  | cases selector alternatives others =>
    obtain ⟨⟨hselector, halternatives⟩, hothers⟩ := hkind
    have hothers : Fits others := by cases others <;> exact hothers
    exact .build₃ (selector.restores hselector)
      (h.alternative.list (CaseAlternative.toJsons_eq alternatives) halternatives (by omega))
      (h.option hothers (by omega)) (by funext _ _ o; cases o <;> rfl)
  | forIndex var start stop step body =>
    obtain ⟨⟨⟨⟨-, hstart⟩, hstop⟩, hstep⟩, hbody⟩ := hkind
    exact .build₅ (restores_name var) (start.restores hstart) (stop.restores hstop)
      (Expr.restores_optional hstep) (h.stmt body hbody (by omega)) rfl
  | forAll pattern set body =>
    exact .build₃ (pattern.restores hkind.1.1) (set.restores hkind.1.2)
      (h.stmt body hkind.2 (by omega)) rfl
  | forPattern bind seq reverse body =>
    obtain ⟨⟨⟨hbind, hseq⟩, -⟩, hbody⟩ := hkind
    exact .build₄ (bind.restores hbind) (seq.restores hseq) (restores_boolean reverse)
      (h.stmt body hbody (by omega)) rfl
  | «while» condition body =>
    exact .build₂ (condition.restores hkind.1) (h.stmt body hkind.2 (by omega)) rfl
  | call name args =>
    exact .build₂ (restores_name name) (Expr.restores_list hkind.2) rfl
  | callObject designator field args =>
    exact .build₃ (designator.restores hkind.1.1) (restores_name field)
      (Expr.restores_list hkind.2) rfl
  | start object => exact .build₁ (object.restores hkind) rfl
  | startList objects => exact .build₁ (objects.restores hkind) rfl
  | stop object => exact .build₁ (object.restores hkind) rfl
  | stopList objects => exact .build₁ (objects.restores hkind) rfl
  | cycles amount body =>
    exact .build₂ (amount.restores hkind.1) (h.stmt body hkind.2 (by omega)) rfl
  | duration amount body =>
    exact .build₂ (amount.restores hkind.1) (h.stmt body hkind.2 (by omega)) rfl
  | always cleanup body =>
    exact .build₂ (h.stmt cleanup hkind.1 (by omega)) (h.stmt body hkind.2 (by omega)) rfl
  | trap bind handler body =>
    exact .build₃ (bind.restores hkind.1.1) (h.stmt handler hkind.1.2 (by omega))
      (h.stmt body hkind.2 (by omega)) rfl
  | tixe alternatives body =>
    exact .build₂ (h.handler.list (TixeAlternative.toJsons_eq alternatives) hkind.1 (by omega))
      (h.stmt body hkind.2 (by omega)) rfl
  | exit value =>
    cases value with
    | none => exact .ofExcept (x := .ok (StmtKind.exit none)) rfl rfl
    | some e => exact (leaving e.toJson_ne_null (e.restores hkind)).1
  | «return» value =>
    cases value with
    | none => exact .ofExcept (x := .ok (StmtKind.return none)) rfl rfl
    | some e => exact (leaving e.toJson_ne_null (e.restores hkind)).2
  | classInvariant clauses =>
    exact .build₁ (Expr.restores_list hkind) rfl
  | notYetSpecified => exact .ofExcept (x := .ok StmtKind.notYetSpecified) rfl rfl
  | skip => exact .ofExcept (x := .ok StmtKind.skip) rfl rfl

end Stmt.Readers

theorem Stmt.readers (n : Nat) : Stmt.Readers n := by
  induction n with
  | zero => exact ⟨.zero, .zero, .zero, .zero⟩
  | succ n ih => exact ⟨ih.stmt_succ, ih.kind_succ, ih.alternative_succ, ih.handler_succ⟩

theorem Stmt.restores {s : Stmt} (h : Fits s) : Restores (Stmt.ofJson s.toJson) s :=
  (Stmt.readers _).stmt s h (Nat.le_refl _)

/-! ### Definitions -/

theorem OperationDef.restores {d : OperationDef} (h : Fits d) :
    Restores (OperationDef.ofJson d.toJson) d := by
  obtain ⟨name, params, paramTypes, result, body, pre, isStatic, isPure, location⟩ := d
  obtain ⟨⟨⟨⟨⟨⟨⟨⟨-, hparams⟩, -⟩, -⟩, hbody⟩, hpre⟩, -⟩, -⟩, hlocation⟩ := h
  rw [OperationDef.ofJson]
  simp only [Read.required_bind]
  refine .fields rfl ?_
  rw [Read.regroup, Read.regroup, Read.regroup, Read.regroup]
  exact .build₅ (.pair (.pair (.pair (.pair (.required rfl (restores_name name))
    (.required rfl (Pattern.restores_list hparams))) (.required rfl (restores_types paramTypes)))
    (.required rfl (restores_ty result))) (.required rfl (body.restores hbody)))
    (Expr.restores_option hpre rfl) (.flag rfl) (.flag rfl)
    (.required rfl (restores_location hlocation)) rfl

theorem StateField.restores {d : StateField} (h : Fits d) :
    Restores (StateField.ofJson d.toJson) d := by
  obtain ⟨name, ty, init⟩ := d
  rw [StateField.ofJson]
  simp only [Read.required_bind]
  exact .fields rfl (.build₃ (.required rfl (restores_name name)) (.required rfl (restores_ty ty))
    (Expr.restores_option h.2 rfl) rfl)

theorem StateDef.restores {d : StateDef} (h : Fits d) : Restores (StateDef.ofJson d.toJson) d := by
  obtain ⟨name, fields, location⟩ := d
  obtain ⟨⟨-, hfields⟩, hlocation⟩ := h
  exact .fields rfl (.build₃ (.string rfl)
    (.required rfl (.all (fun _ => StateField.restores) rfl hfields))
    (.required rfl (restores_location hlocation)) rfl)

theorem ModuleDef.restores {d : ModuleDef} (h : Fits d) :
    Restores (ModuleDef.ofJson d.toJson) d := by
  obtain ⟨name, location, state, values, functions, operations⟩ := d
  obtain ⟨⟨⟨⟨⟨-, hlocation⟩, hstate⟩, hvalues⟩, hfunctions⟩, hoperations⟩ := h
  refine .fields rfl ?_
  rw [Read.regroup]
  refine .build₅ (.pair (.string rfl) (.required rfl (restores_location hlocation)))
    (.optional rfl (fun d => ?_) hstate fun _ _ => StateDef.restores)
    (.listOrEmpty (fun _ => Definition.restores) rfl (Definition.toJsons_eq values) hvalues)
    (.listOrEmpty (fun _ => FunctionDef.restores) rfl rfl hfunctions)
    (.listOrEmpty (fun _ => OperationDef.restores) rfl rfl hoperations) rfl
  simp [StateDef.toJson]

theorem InstanceVarDef.restores {d : InstanceVarDef} (h : Fits d) :
    Restores (InstanceVarDef.ofJson d.toJson) d := by
  obtain ⟨name, ty, init, isStatic, location⟩ := d
  obtain ⟨⟨⟨-, hinit⟩, -⟩, hlocation⟩ := h
  rw [InstanceVarDef.ofJson]
  simp only [Read.required_bind]
  exact .fields rfl (.build₅ (.required rfl (restores_name name)) (.required rfl (restores_ty ty))
    (Expr.restores_option hinit rfl) (.flag rfl) (.required rfl (restores_location hlocation)) rfl)

theorem ThreadDef.restores {d : ThreadDef} (h : Fits d) :
    Restores (ThreadDef.ofJson d.toJson) d := by
  cases d with
  | plain body => exact .build₁ (body.restores h) rfl
  | periodic period jitter delay offset operation =>
    obtain ⟨⟨⟨⟨hperiod, hjitter⟩, hdelay⟩, hoffset⟩, -⟩ := h
    exact .build₅ (period.restores hperiod) (jitter.restores hjitter) (delay.restores hdelay)
      (offset.restores hoffset) (restores_name operation) rfl
  | sporadic minDelay maxDelay offset operation =>
    obtain ⟨⟨⟨hmin, hmax⟩, hoffset⟩, -⟩ := h
    exact .build₄ (minDelay.restores hmin) (maxDelay.restores hmax) (offset.restores hoffset)
      (restores_name operation) rfl

theorem ClassDef.restores {d : ClassDef} (h : Fits d) : Restores (ClassDef.ofJson d.toJson) d := by
  obtain ⟨name, location, instanceVars, values, functions, operations, invariants, thread⟩ := d
  obtain ⟨⟨⟨⟨⟨⟨⟨-, hlocation⟩, hvars⟩, hvalues⟩, hfunctions⟩, hoperations⟩, hinvariants⟩,
    hthread⟩ := h
  refine .fields rfl ?_
  rw [Read.regroup, Read.regroup, Read.regroup]
  refine .build₅ (.pair (.pair (.pair (.string rfl) (.required rfl (restores_location hlocation)))
    (.listOrEmpty (fun _ => InstanceVarDef.restores) rfl rfl hvars))
    (.listOrEmpty (fun _ => Definition.restores) rfl (Definition.toJsons_eq values) hvalues))
    (.listOrEmpty (fun _ => FunctionDef.restores) rfl rfl hfunctions)
    (.listOrEmpty (fun _ => OperationDef.restores) rfl rfl hoperations)
    (.listOrEmpty (fun _ => Expr.restores) rfl (Expr.toJsons_eq invariants) hinvariants)
    (.optional rfl (fun d => ?_) hthread fun _ _ => ThreadDef.restores) rfl
  cases d <;> simp [ThreadDef.toJson, Json.tagged, Json.taggedObj]

theorem Model.restores {m : Model} (h : Fits m) : Restores (Model.ofJson m.toJson) m := by
  obtain ⟨modules, classes⟩ := m
  obtain ⟨hmodules, hclasses⟩ := h
  exact .fields rfl (.build₂ (.listOrEmpty (fun _ => ModuleDef.restores) rfl rfl hmodules)
    (.listOrEmpty (fun _ => ClassDef.restores) rfl rfl hclasses) rfl)

/-! ### Models -/

/-- **A model that was written is read back.** Reading its document succeeds and gives the model in
all its parts; the numbers of its nodes are those of the document, and its `counters` are new ones,
which nothing has hit. -/
theorem written_model_reads_back {m : Model} (h : Fits m) (listing : Listing) (s : Supply) :
    ∃ m' n, Model.ofJson m.toJson listing s = .ok (m', s.skip n) ∧ forget m' = forget m ∧
      counters m' = List.range' s.nextCounter n ∧
      ∀ hits : Hits, (∀ c, s.nextCounter ≤ c → hits.count c = 0) →
        ∀ c ∈ counters m', hits.count c = 0 := by
  obtain ⟨m', hread, hforget, hcounters⟩ := m.restores h listing s
  refine ⟨m', _, hread, hforget, hcounters, fun hits hhits c hc => hhits c ?_⟩
  rw [hcounters, List.mem_range'_1] at hc
  exact hc.1

section Example

/-- An operation that returns a constant, unless its precondition fails. -/
def fixedModel : Model where
  modules := [{
    name := "Fixed", location := .onLine 1, state := none, values := [], functions := []
    operations := [{
      name := ⟨"Fixed", "value", some []⟩, params := [], paramTypes := [], result := .real
      body := .onLine 3 (.return (some (.onLine 4 (.literal (.real (.ofInt 2))))))
      pre := some (.onLine 2 (.name ⟨"Fixed", "ready", none⟩))
      isStatic := false, isPure := true, location := .onLine 1 }] }]
  classes := []

theorem written_model_reads_back_fixed : Fits fixedModel ∧
    ∃ m' n, Model.ofJson fixedModel.toJson .structures {} = .ok (m', Supply.skip {} n) ∧
      forget m' = forget fixedModel ∧ counters m' = List.range' 1 n ∧
      ∀ hits : Hits, (∀ c, 1 ≤ c → hits.count c = 0) → ∀ c ∈ counters m', hits.count c = 0 := by
  have hplace : ∀ line < 5, Fits (Location.onLine line) := fun line hline =>
    ⟨Nat.lt_trans hline (by decide), (by decide : 1 < Word.size32), (by decide : 0 < Word.size32),
      (by decide : 0 < Word.size32)⟩
  have hnode : ∀ id < 5, Fits (id : NodeId) := fun id hid => Nat.lt_trans hid (by decide)
  have hreal : Fits (Literal.real (.ofInt 2)) := (by decide : (Binary64.ofInt 2).isFinite = true)
  have hfits : Fits fixedModel := by
    repeat' first | exact trivial | refine And.intro ?_ ?_
    all_goals first | exact hplace _ (by decide) | exact hnode _ (by decide) | exact hreal
  exact ⟨hfits, written_model_reads_back hfits .structures {}⟩

end Example

end Animator
