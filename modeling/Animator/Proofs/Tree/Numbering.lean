import Animator.Debug.Breakpoint
import Animator.Proofs.Tree.Restores
import Mathlib.Data.Nat.ModEq

/-!
# The numbers of nodes

A document gives some of its nodes a number, and leaves the others to the supply. Which nodes these
are does not depend on the supply: they are a list of numbers with gaps (`Numbering`), and reading
fills the gaps with one number of the supply after the other (`Numbering.fill`).

`Read.Numbers x` says this of a reader. Readers read one part after the other, and none of them
depends on what was read before it, so it holds of all readers up to that of models
(`Model.numbers_ofJson`).
-/

namespace Animator

open Json (Mismatch Fields)

variable {α β ι : Type}

/-! ### Numbers with gaps -/

/-- The numbers that a document gives to its nodes, in the order in which they are read; none for a
node that is given no number. -/
abbrev Numbering := List (Option NodeId)

/-- The number of the supply after a given one. -/
def NodeId.next (id : NodeId) : NodeId :=
  (id + 1) % Word.size32

namespace Numbering

/-- The numbers of the nodes, if the gaps are filled from a number of the supply on. -/
def fill : Numbering → NodeId → List NodeId
  | [], _ => []
  | some id :: rest, first => id :: fill rest first
  | none :: rest, first => first :: fill rest first.next

/-- The first number of the supply that is left then. -/
def after : Numbering → NodeId → NodeId
  | [], first => first
  | some _ :: rest, first => after rest first
  | none :: rest, first => after rest first.next

variable (given more : Numbering) (first : NodeId)

theorem fill_append :
    fill (given ++ more) first = given.fill first ++ more.fill (given.after first) := by
  induction given generalizing first with
  | nil => rfl
  | cons number rest ih => cases number <;> simp [fill, after, ih]

theorem after_append : after (given ++ more) first = more.after (given.after first) := by
  induction given generalizing first with
  | nil => rfl
  | cons number rest ih => cases number <;> simp [after, ih]

variable {given first} {i k : Nat}

end Numbering

/-! ### Numbers of trees -/

namespace Tree

variable [Tree α]

/-- The numbers of the nodes of a tree, in the order of its document. -/
def numbers (a : α) : List NodeId :=
  traverse (M := Collect NodeId) ⟨fun _ => ([] : List _), fun id => [id], fun _ => ([] : List _)⟩ a

theorem numbers_nil : numbers ([] : List α) = [] :=
  traverseAll_nil (M := Collect NodeId) _

theorem numbers_cons (a : α) (as : List α) : numbers (a :: as) = numbers a ++ numbers as :=
  traverseAll_cons (M := Collect NodeId) _ a as

end Tree

open Tree (numbers)

/-! ### Readers -/

namespace Read

/-- After other parts with some numbers were read, the rest is read: that fails whatever those parts
and the supply are, or it completes a tree whose further numbers are the given ones, with the gaps
filled from the supply. -/
def NumbersAfter [Tree α] (before : ι → List NodeId) (x : ι → Read α) : Prop :=
  ∀ listing, (∃ mismatch, ∀ i s, x i listing s = .error mismatch) ∨
    ∃ given : Numbering, ∀ i s, ∃ a s', x i listing s = .ok (a, s') ∧
      numbers a = before i ++ given.fill s.nextNode ∧ s'.nextNode = given.after s.nextNode

/-- The numbers of what is read are the given ones, with the gaps filled from the supply. -/
abbrev Numbers [Tree α] (x : Read α) : Prop :=
  NumbersAfter (fun _ : Unit => []) fun _ => x

theorem bind_of_mismatch {x : Read α} {f : α → Read β} {listing : Listing} {s : Supply}
    {mismatch : Mismatch} (h : x listing s = .error mismatch) :
    (x >>= f) listing s = .error mismatch := by
  change (x listing s >>= fun p => f p.1 listing p.2) = _
  rw [h]
  rfl

namespace NumbersAfter

variable [Tree α] [Tree β] {before : ι → List NodeId}

theorem refuse {what : String} : NumbersAfter before fun _ => (Read.refuse what : Read α) :=
  fun _ => .inl ⟨.expected what, fun _ _ => rfl⟩

/-- All parts were read (`NumbersAfter`). -/
theorem last {a : ι → α} (ha : ∀ i, numbers (a i) = before i) :
    NumbersAfter before fun i => pure (a i) := by
  refine fun _ => .inr ⟨[], fun i s => ⟨a i, s, rfl, ?_, rfl⟩⟩
  rw [ha, Numbering.fill, List.append_nil]

/-- A part is next (`NumbersAfter`). -/
theorem next {x : Read β} {k : ι → β → Read α} (hx : Numbers x)
    (hk : NumbersAfter (fun p : ι × β => before p.1 ++ numbers p.2) fun p => k p.1 p.2) :
    NumbersAfter before fun i => x >>= k i := by
  intro listing
  rcases hx listing with ⟨mismatch, hx⟩ | ⟨given, hx⟩
  · exact .inl ⟨mismatch, fun _ s => bind_of_mismatch (hx () s)⟩
  rcases hk listing with ⟨mismatch, hk⟩ | ⟨more, hk⟩
  · refine .inl ⟨mismatch, fun i s => ?_⟩
    obtain ⟨b, s₁, hrun, -⟩ := hx () s
    exact (run_bind hrun).trans (hk (i, b) s₁)
  · refine .inr ⟨given ++ more, fun i s => ?_⟩
    obtain ⟨b, s₁, hrun, hnumbers, hafter⟩ := hx () s
    obtain ⟨a, s₂, hrun', hnumbers', hafter'⟩ := hk (i, b) s₁
    refine ⟨a, s₂, (run_bind hrun).trans hrun', ?_, ?_⟩
    · dsimp only at hnumbers hnumbers'
      rw [hnumbers', hnumbers, hafter, Numbering.fill_append, List.append_assoc, List.nil_append]
    · rw [hafter', hafter, Numbering.after_append]

/-- Something is found out without the supply. -/
theorem first {γ : Type} {r : Except Mismatch γ} {k : ι → γ → Read α}
    (hk : ∀ c, NumbersAfter before fun i => k i c) : NumbersAfter before fun i =>
      liftM r >>= k i := by
  cases r with
  | ok c => exact hk c
  | error mismatch => exact fun _ => .inl ⟨mismatch, fun _ _ => rfl⟩

theorem parts {content : Json} {names : List String} {k : ι → Fields → Read α}
    (hk : ∀ f, NumbersAfter before fun i => k i f) :
    NumbersAfter before fun i => Read.parts content names >>= k i := by
  -- Only the listing decides whether the parts may be an array.
  have hparts : ∀ listing, ∃ r : Except Mismatch Fields, ∀ i s,
      (Read.parts content names >>= k i) listing s = (liftM r >>= k i) listing s := by
    intro listing
    cases content with
    | arr items =>
      cases listing with
      | structures => exact ⟨.error (.expected "an object"), fun _ _ => rfl⟩
      | alternatives => exact ⟨Json.fields names (.arr items), fun _ _ => rfl⟩
    | _ => exact ⟨Json.fields names _, fun _ _ => rfl⟩
  intro listing
  obtain ⟨r, hr⟩ := hparts listing
  simp only [hr]
  exact first hk listing

end NumbersAfter

namespace Numbers

variable [Tree α] {f : Fields} {name : String}

theorem pure {a : α} (ha : numbers a = []) : Numbers (Pure.pure a) :=
  .last fun _ => ha

/-- A tree without nodes for `Numbers`, which is read without the supply. -/
theorem plain {r : Except Mismatch α} (h : ∀ a : α, numbers a = []) : Numbers (liftM r) := by
  rw [← bind_pure (liftM r)]
  exact .first fun a => .last fun _ => h a

theorem required {read : Json → Read α} (h : ∀ j, Numbers (read j)) :
    Numbers (Read.required f name read) :=
  .first h

theorem withDefault {read : Json → Read α} {default : α} (hdefault : numbers default = [])
    (h : ∀ j, Numbers (read j)) : Numbers (Read.withDefault f name default read) := by
  unfold Read.withDefault
  split
  · exact pure hdefault
  · exact h _

theorem optional {read : Json → Read α} (h : ∀ j, Numbers (read j)) :
    Numbers (Read.optional f name read) := by
  unfold Read.optional
  split
  · exact pure rfl
  · exact pure rfl
  · rw [map_eq_pure_bind]
    exact .next (h _) (.last fun _ => rfl)

theorem string : Numbers (Read.string f name) :=
  required fun _ => plain fun _ => rfl

theorem flag : Numbers (Read.flag f name) :=
  withDefault rfl fun _ => plain fun _ => rfl

theorem each {item : Json → Read α} (h : ∀ j, Numbers (item j)) (items : List Json) :
    Numbers (items.mapM item) := by
  induction items with
  | nil => exact pure Tree.numbers_nil
  | cons j items ih =>
    rw [List.mapM_cons]
    exact .next (h j) (.next ih (.last fun _ => Tree.numbers_cons _ _))

theorem list {item : Json → Read α} (h : ∀ j, Numbers (item j)) (j : Json) :
    Numbers (Read.list item j) :=
  .first (each h)

theorem listOrEmpty {item : Json → Read α} (h : ∀ j, Numbers (item j)) :
    Numbers (Read.listOrEmpty f name item) :=
  withDefault Tree.numbers_nil (list h)

theorem nodeId (f : Fields) : Numbers (Read.nodeId f) := by
  unfold Read.nodeId
  split
  · next j _ =>
    intro listing
    cases hid : j.natural Word.size32 with
    | ok id => exact .inr ⟨[some id], fun _ s => ⟨id, s, rfl, rfl, rfl⟩⟩
    | error mismatch => exact .inl ⟨mismatch, fun _ _ => rfl⟩
  · exact fun _ => .inr ⟨[none], fun _ s =>
      ⟨s.nextNode, { s with nextNode := s.nextNode.next }, rfl, rfl, rfl⟩⟩

end Numbers

end Read

open Read (Numbers NumbersAfter)

/-! ### All readers -/

theorem Location.numbers_read (j : Json) : Numbers (Location.read j) := by
  have hword : ∀ (f : Fields) name, ∃ r : Except Mismatch Nat, Read.word f name = liftM r := by
    intro f name
    refine ⟨f.required name >>= Json.natural Word.size32, ?_⟩
    unfold Read.word Read.required
    cases f.required name <;> rfl
  unfold Location.read
  split
  · refine .first fun f => ?_
    obtain ⟨line, hline⟩ := hword f "line"
    obtain ⟨column, hcolumn⟩ := hword f "column"
    obtain ⟨endLine, hendLine⟩ := hword f "end_line"
    obtain ⟨endColumn, hendColumn⟩ := hword f "end_column"
    rw [hline, hcolumn, hendLine, hendColumn]
    refine .next .string (.first fun _ => .first fun _ => .first fun _ => .first fun _ =>
      .next ?_ ?_)
    · exact .withDefault rfl fun _ => .plain fun _ => rfl
    · exact fun _ => .inr ⟨[], fun _ s =>
        ⟨_, { s with nextCounter := s.nextCounter + 1 }, rfl, rfl, rfl⟩⟩
  · exact .refuse

theorem Pattern.numbers_read (n : Nat) (j : Json) : Numbers (Pattern.read n j) := by
  induction n generalizing j with
  | zero => exact .refuse
  | succ n ih =>
    rw [Pattern.read]
    repeat' with_reducible first
      | exact .refuse
      | exact .string
      | exact Location.numbers_read _
      | exact ih _
      | refine .last fun _ => ?_
      | refine Numbers.plain fun _ => ?_
      | refine Numbers.required fun _ => ?_
      | refine Numbers.list (fun _ => ?_) _
      | refine .next ?_ ?_
      | refine .parts fun _ => ?_
      | refine .first fun _ => ?_
      | split
    all_goals rfl

theorem Pattern.numbers_ofJson (j : Json) : Numbers (Pattern.ofJson j) :=
  Pattern.numbers_read _ j

/-- The readers of expressions and of what they are made of. -/
structure Expr.Numbered (n : Nat) : Prop where
  expr (j : Json) : Numbers (Expr.read n j)
  kind (j : Json) : Numbers (ExprKind.read n j)
  bind (j : Json) : Numbers (Bind.read n j)
  definition (j : Json) : Numbers (Definition.read n j)
  function (j : Json) : Numbers (FunctionDef.read n j)

theorem Expr.numbered (n : Nat) : Expr.Numbered n := by
  induction n with
  | zero => constructor <;> exact fun _ => .refuse
  | succ n h =>
    constructor <;> intro j
    all_goals first
      | rw [Expr.read]
      | rw [ExprKind.read]
      | rw [Bind.read]
      | rw [Definition.read]
      | rw [FunctionDef.read]
    -- Each of them reads part by part.
    all_goals repeat' with_reducible first
      | exact .refuse
      | exact .string
      | exact .nodeId _
      | exact Location.numbers_read _
      | exact Pattern.numbers_ofJson _
      | exact h.expr _
      | exact h.kind _
      | exact h.bind _
      | exact h.definition _
      | exact h.function _
      | refine .last fun _ => ?_
      | refine Numbers.plain fun _ => ?_
      | refine Numbers.required fun _ => ?_
      | refine Numbers.list (fun _ => ?_) _
      | refine Numbers.optional fun _ => ?_
      | refine .next ?_ ?_
      | refine .parts fun _ => ?_
      | refine .first fun _ => ?_
      | split
      | dsimp only
    all_goals try rfl
    next p =>
      obtain ⟨⟨_, pre⟩, _⟩ := p
      cases pre <;> rfl

theorem Expr.numbers_ofJson (j : Json) : Numbers (Expr.ofJson j) :=
  (Expr.numbered _).expr j

theorem Definition.numbers_ofJson (j : Json) : Numbers (Definition.ofJson j) :=
  (Expr.numbered _).definition j

theorem Bind.numbers_ofJson (j : Json) : Numbers (Bind.ofJson j) :=
  (Expr.numbered _).bind j

theorem PatternBind.numbers_ofJson (j : Json) : Numbers (PatternBind.ofJson j) := by
  unfold PatternBind.ofJson
  refine .first fun variant => ?_
  dsimp only
  split
  · exact .first fun _ => .next (Pattern.numbers_ofJson _) (.last fun _ => rfl)
  · exact .first fun _ => .next (Bind.numbers_ofJson _) (.last fun _ => rfl)
  · exact .refuse

theorem Designator.numbers_read (n : Nat) (j : Json) : Numbers (Designator.read n j) := by
  induction n generalizing j with
  | zero => exact .refuse
  | succ n ih =>
    rw [Designator.read]
    refine .first fun variant => .first fun content => ?_
    split
    · exact .next (.plain fun _ => rfl) (.last fun _ => rfl)
    · exact .parts fun _ => .next (.required ih) (.first fun _ => .next (.plain fun _ => rfl)
        (.last fun _ => rfl))
    · exact .parts fun _ => .next (.required ih) (.next (.required Expr.numbers_ofJson)
        (.last fun _ => rfl))
    · exact .refuse

theorem Assignment.numbers_ofJson (j : Json) : Numbers (Assignment.ofJson j) :=
  .first fun _ => .next (.required fun j => Designator.numbers_read _ j)
    (.next (.required Expr.numbers_ofJson) (.next (.required Location.numbers_read)
      (.last fun _ => rfl)))

theorem Declaration.numbers_ofJson (j : Json) : Numbers (Declaration.ofJson j) :=
  .first fun _ => .first fun _ => .next (.plain fun _ => rfl) (.first fun _ =>
    .next (.plain fun _ => rfl) (.next (.optional Expr.numbers_ofJson)
      (.next (.required Location.numbers_read) (.last fun _ => rfl))))

/-- The readers of statements and of what they are made of. -/
structure Stmt.Numbered (n : Nat) : Prop where
  stmt (j : Json) : Numbers (Stmt.read n j)
  kind (j : Json) : Numbers (StmtKind.read n j)
  alternative (j : Json) : Numbers (CaseAlternative.read n j)
  handler (j : Json) : Numbers (TixeAlternative.read n j)

/-- The numbers of the nodes of a statement. -/
theorem Stmt.numbered (n : Nat) : Stmt.Numbered n := by
  induction n with
  | zero => constructor <;> exact fun _ => .refuse
  | succ n h =>
    constructor <;> intro j
    all_goals first
      | rw [Stmt.read]
      | rw [StmtKind.read]
      | rw [CaseAlternative.read]
      | rw [TixeAlternative.read]
    all_goals repeat' with_reducible first
      | exact .refuse
      | exact .nodeId _
      | exact .flag
      | exact Location.numbers_read _
      | exact Pattern.numbers_ofJson _
      | exact Expr.numbers_ofJson _
      | exact Definition.numbers_ofJson _
      | exact Bind.numbers_ofJson _
      | exact PatternBind.numbers_ofJson _
      | exact Assignment.numbers_ofJson _
      | exact Declaration.numbers_ofJson _
      | exact h.stmt _
      | exact h.kind _
      | exact h.alternative _
      | exact h.handler _
      | refine .last fun _ => ?_
      | refine Numbers.plain fun _ => ?_
      | refine Numbers.required fun _ => ?_
      | refine Numbers.list (fun _ => ?_) _
      | refine Numbers.listOrEmpty fun _ => ?_
      | refine Numbers.optional fun _ => ?_
      | refine .next ?_ ?_
      | refine .parts fun _ => ?_
      | refine .first fun _ => ?_
      | split
      | dsimp only
    all_goals try rfl
    all_goals
      next p =>
        obtain ⟨_, branch⟩ := p
        cases branch <;> rfl

theorem Stmt.numbers_ofJson (j : Json) : Numbers (Stmt.ofJson j) :=
  (Stmt.numbered _).stmt j

theorem OperationDef.numbers_ofJson (j : Json) : Numbers (OperationDef.ofJson j) :=
  .first fun _ => .first fun _ => .next (.plain fun _ => rfl)
    (.next (.required (.list Pattern.numbers_ofJson))
      (.next (.required (.list fun _ => .plain fun _ => rfl)) (.first fun _ =>
        .next (.plain fun _ => rfl) (.next (.required Stmt.numbers_ofJson)
          (.next (.optional Expr.numbers_ofJson) (.next .flag (.next .flag
            (.next (.required Location.numbers_read) (.last fun _ => rfl)))))))))

theorem StateField.numbers_ofJson (j : Json) : Numbers (StateField.ofJson j) :=
  .first fun _ => .first fun _ => .next (.plain fun _ => rfl) (.first fun _ =>
    .next (.plain fun _ => rfl) (.next (.optional Expr.numbers_ofJson) (.last fun _ => rfl)))

theorem StateDef.numbers_ofJson (j : Json) : Numbers (StateDef.ofJson j) :=
  .first fun _ => .next .string (.next (.required (.list StateField.numbers_ofJson))
    (.next (.required Location.numbers_read) (.last fun _ => rfl)))

theorem ModuleDef.numbers_ofJson (j : Json) : Numbers (ModuleDef.ofJson j) :=
  .first fun _ => .next .string (.next (.required Location.numbers_read)
    (.next (.optional StateDef.numbers_ofJson) (.next (.listOrEmpty Definition.numbers_ofJson)
      (.next (.listOrEmpty fun j => (Expr.numbered _).function j)
        (.next (.listOrEmpty OperationDef.numbers_ofJson) (.last fun _ => rfl))))))

theorem InstanceVarDef.numbers_ofJson (j : Json) : Numbers (InstanceVarDef.ofJson j) :=
  .first fun _ => .first fun _ => .next (.plain fun _ => rfl) (.first fun _ =>
    .next (.plain fun _ => rfl) (.next (.optional Expr.numbers_ofJson) (.next .flag
      (.next (.required Location.numbers_read) (.last fun _ => rfl)))))

theorem ThreadDef.numbers_ofJson (j : Json) : Numbers (ThreadDef.ofJson j) := by
  have hexpr : ∀ {f : Fields} {name : String}, Numbers (Read.required f name Expr.ofJson) :=
    .required Expr.numbers_ofJson
  unfold ThreadDef.ofJson
  refine .first fun variant => .first fun content => ?_
  split
  · exact .next (Stmt.numbers_ofJson _) (.last fun _ => rfl)
  · exact .parts fun _ => .next hexpr (.next hexpr (.next hexpr (.next hexpr (.first fun _ =>
      .next (.plain fun _ => rfl) (.last fun _ => rfl)))))
  · exact .parts fun _ => .next hexpr (.next hexpr (.next hexpr (.first fun _ =>
      .next (.plain fun _ => rfl) (.last fun _ => rfl))))
  · exact .refuse

theorem ClassDef.numbers_ofJson (j : Json) : Numbers (ClassDef.ofJson j) :=
  .first fun _ => .next .string (.next (.required Location.numbers_read)
    (.next (.listOrEmpty InstanceVarDef.numbers_ofJson)
      (.next (.listOrEmpty Definition.numbers_ofJson)
      (.next (.listOrEmpty fun j => (Expr.numbered _).function j)
        (.next (.listOrEmpty OperationDef.numbers_ofJson) (.next (.listOrEmpty Expr.numbers_ofJson)
          (.next (.optional ThreadDef.numbers_ofJson) (.last fun _ => rfl))))))))

theorem Model.numbers_ofJson (j : Json) : Numbers (Model.ofJson j) :=
  .first fun _ => .next (.listOrEmpty ModuleDef.numbers_ofJson)
    (.next (.listOrEmpty ClassDef.numbers_ofJson) (.last fun _ => rfl))

/-! ### Clashes -/

end Animator
