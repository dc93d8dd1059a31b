import Animator.Proofs.Logic.Basic

/-!
# Contexts over different callers

The code of a frame sees the scopes as far as the nearest root, what the root adds, and the globals.
The scopes further out are there for the call stack, and they keep objects alive. So two contexts
with the same scopes as far as the nearest root show the same code the same things
(`Context.Akin.alike`, `Context.Akin.lookup`), whatever their callers are; only the objects that are
kept alive may differ.
-/

namespace Animator

theorem Value.references_ofText (text : String) : (Value.ofText text).references = [] := by
  unfold Value.ofText
  induction text.toList with
  | nil => rfl
  | cons char rest ih =>
    simp only [Value.references, List.map_cons, Value.referencesOfAll, List.nil_append] at ih ⊢
    exact ih

/-- Two chains of scopes that agree as far as the nearest `root`. -/
inductive Scope.Akin : List Scope → List Scope → Prop where
  | refl (chain : List Scope) : Akin chain chain
  | root (s : Scope) (hs : s.root.isSome = true) (rest rest' : List Scope) :
    Akin (s :: rest) (s :: rest')
  | nest (s : Scope) {rest rest' : List Scope} (h : Akin rest rest') : Akin (s :: rest) (s :: rest')

namespace Scope.Akin

variable {chain chain' : List Scope} {s s' : Scope} {rest rest' : List Scope}

theorem lookup (h : Akin chain chain') (g : Globals) (heap : Heap) (name : Name) :
    Scope.lookup g heap name chain = Scope.lookup g heap name chain' := by
  induction h with
  | refl => rfl
  | root s hs =>
    obtain ⟨root, hroot⟩ := Option.isSome_iff_exists.1 hs
    simp only [Scope.lookup, hroot]
  | nest s _ ih => simp only [Scope.lookup, ih]

theorem visible (h : Akin chain chain') (found : Bindings) :
    Scope.visible found chain = Scope.visible found chain' := by
  induction h generalizing found with
  | refl => rfl
  | root s hs =>
    obtain ⟨root, hroot⟩ := Option.isSome_iff_exists.1 hs
    simp only [Scope.visible, hroot]
  | nest s _ ih => simp only [Scope.visible, ih]

theorem head (h : Akin (s :: rest) (s' :: rest')) : s = s' := by
  cases h with
  | refl | root | nest => rfl

theorem fromRoot (h : Akin (s :: rest) (s' :: rest')) :
    (s.fromRoot rest).1 = (s'.fromRoot rest').1 := by
  induction rest generalizing s s' rest' with
  | nil =>
    cases h with
    | refl => rfl
    | root _ hs => cases rest' <;> simp [Scope.fromRoot, hs]
    | nest _ h =>
      cases h
      rfl
  | cons next rest ih =>
    cases h with
    | refl => rfl
    | root _ hs => cases rest' <;> simp [Scope.fromRoot, hs]
    | nest _ h =>
      cases rest' with
      | nil => cases h
      | cons next' rest' =>
        unfold Scope.fromRoot
        split
        · rfl
        · exact ih h

/-- The innermost `Scope` may be replaced in both, if it stays a `root` or stays none. -/
theorem replace (h : Akin (s :: rest) (s' :: rest')) {t : Scope} (ht : t.root = s.root) :
    Akin (t :: rest) (t :: rest') := by
  cases h with
  | refl => exact .refl _
  | root _ hs => exact .root t (ht ▸ hs) _ _
  | nest _ h => exact .nest t h

end Scope.Akin

namespace Context

/-- Whether something outside of the innermost scope refers to a node. -/
def holdsOutside (c : Context) (node : HeapNode) : Bool :=
  c.held.any (·.refersTo node) || c.outer.any (·.values.any (·.refersTo node))

theorem holds_eq (c : Context) (node : HeapNode) :
    c.holds node = (c.inner.values.any (·.refersTo node) || c.holdsOutside node) := by
  simp only [holds, holdsOutside, scopes, List.any_cons]
  exact Bool.or_left_comm _ _ _

/-- Two contexts in which the same code may run. If the contexts that they come from hold the same
nodes then so do they. -/
structure Akin (level : Prop) (c c' : Context) : Prop where
  thread : c'.thread = c.thread
  /-- The `scopes` as far as the nearest root. -/
  scopes : Scope.Akin c.scopes c'.scopes
  /-- What is held outside of the innermost scope. -/
  outside : level → ∀ node, c.holdsOutside node = c'.holdsOutside node

namespace Akin

variable {level : Prop} {c c' : Context}

theorem refl (c : Context) : c.Akin level c :=
  ⟨rfl, .refl _, fun _ _ => rfl⟩

variable (h : c.Akin level c')

include h

theorem inner : c.inner = c'.inner :=
  h.scopes.head

theorem holds (hlevel : level) (node : HeapNode) : c.holds node = c'.holds node := by
  rw [holds_eq, holds_eq, h.inner, h.outside hlevel]

theorem lookup (g : Globals) (heap : Heap) (name : Name) :
    c.lookup g heap name = c'.lookup g heap name :=
  h.scopes.lookup g heap name

theorem rootOf : c.rootOf.inner = c'.rootOf.inner :=
  h.scopes.fromRoot

theorem root? : c.root? = c'.root? :=
  congrArg Scope.root h.rootOf

theorem alike : c.Alike .all c' where
  self := by rw [self?, self?, h.root?]
  owner := by rw [owner, owner, routine?, routine?, h.root?]
  routine := by rw [routine?, routine?, h.root?]
  args _ _ := Values.from_all _
  visible := h.scopes.visible []
  bindings := Bindings.from_all _
  inner := by rw [h.inner]

theorem holding {values values' : List Value}
    (hvalues : ∀ node, values.any (·.refersTo node) = values'.any (·.refersTo node)) :
    (c.holdAll values).Akin level (c'.holdAll values') := by
  refine ⟨h.thread, h.scopes, fun hlevel node => ?_⟩
  have houtside : ∀ (c : Context) (values : List Value), (c.holdAll values).holdsOutside node =
      (values.any (·.refersTo node) || c.holdsOutside node) := by
    intro c values
    simp only [holdsOutside, holdAll, List.any_append, Bool.or_assoc]
  rw [houtside, houtside, hvalues, h.outside hlevel]

theorem holdAll (values : List Value) : (c.holdAll values).Akin level (c'.holdAll values) :=
  h.holding fun _ => rfl

theorem bindAll (matched : List (Name × Value)) :
    (c.bindAll matched).Akin level (c'.bindAll matched) := by
  have hscopes := h.scopes.replace
    (t := { c.inner with bindings := c.inner.bindings.insertAll matched }) rfl
  refine ⟨h.thread, ?_, h.outside⟩
  unfold Context.bindAll
  rw [← h.inner]
  exact hscopes

theorem within (s : Scope) :
    Akin level { c with inner := s, outer := c.scopes }
      { c' with inner := s, outer := c'.scopes } :=
  ⟨h.thread, .nest s h.scopes, fun hlevel => h.holds hlevel⟩

end Akin

theorem akin_frame {level : Prop} {c c' : Context} {s : Scope} (hthread : c'.thread = c.thread)
    (hs : s.root.isSome = true) (hholds : level → ∀ node, c.holds node = c'.holds node) :
    Akin level { c with inner := s, outer := c.scopes }
      { c' with inner := s, outer := c'.scopes } :=
  ⟨hthread, .root s hs _ _, hholds⟩

end Context

end Animator
