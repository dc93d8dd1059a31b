import Animator.Proofs.Effect.Extent
import Mathlib.Data.String.Basic

/-!
# Global names

Which global names there are is a matter of the definitions that have been evaluated, and of nothing
else: whatever is evaluated, the globals stay as they are (`globalDrift`), and constants that are
evaluated with success bind every name of their patterns (`Engine.names_constants`). So the
initialisation of a module or a class consists of definitions in their order (`Machine.Defines`).
-/

namespace Animator

/-! ### Names in order -/

theorem Name.compare_eq_iff (a b : Name) : a.compare b = .eq ↔ a = b := by
  obtain ⟨module, text, signature⟩ := a
  obtain ⟨module', text', signature'⟩ := b
  have hsignature : compareSignatures signature signature' = .eq ↔ signature = signature' := by
    cases signature <;> cases signature' <;> simp [compareSignatures, Ty.compareLists_eq_iff]
  simp [compare, Ordering.then_eq_eq, hsignature]

namespace Bindings

variable {b : Bindings} {n name : Name} {v : Value}

theorem isSome_get?_iff : (b.get? n).isSome ↔ n ∈ b.map (·.1) := by
  simp [get?]

theorem mem_names_insert : n ∈ (b.insert name v).map (·.1) ↔ n = name ∨ n ∈ b.map (·.1) := by
  induction b with
  | nil => simp [insert]
  | cons first rest ih =>
    unfold insert
    split
    · simp
    · next heq =>
      -- The name was bound already, and it has been replaced.
      obtain rfl := (Name.compare_eq_iff _ _).1 heq
      simp
    · simp [ih, or_left_comm]

theorem mem_names_insertAll {matched : List (Name × Value)} :
    n ∈ (insertAll matched b).map (·.1) ↔ n ∈ matched.map (·.1) ∨ n ∈ b.map (·.1) := by
  induction matched generalizing b with
  | nil => simp [insertAll]
  | cons first rest ih =>
    have hrest : insertAll (first :: rest) b = insertAll rest (b.insert first.1 first.2) := rfl
    rw [hrest, ih, mem_names_insert, List.map_cons, List.mem_cons, or_left_comm, or_assoc]

end Bindings

namespace Registry

variable {α : Type} {r : Registry α} {name : String} {entry : α}

theorem insert_perm (hname : name ∉ r.map (·.1)) :
    (r.insert name entry).Perm ((name, entry) :: r) := by
  induction r with
  | nil => rfl
  | cons first rest ih =>
    obtain ⟨hfirst, hrest⟩ : name ≠ first.1 ∧ name ∉ rest.map (·.1) := by simpa using hname
    unfold insert
    split
    · rfl
    · next heq => exact absurd (compare_eq_iff_eq.1 heq) hfirst
    · exact ((ih hrest).cons first).trans (.swap _ _ _)

theorem insert_sorted (hr : r.Pairwise (·.1 < ·.1)) :
    (r.insert name entry).Pairwise (·.1 < ·.1) := by
  induction r with
  | nil => simp [insert]
  | cons first rest ih =>
    obtain ⟨hfirst, hrest⟩ := List.pairwise_cons.1 hr
    unfold insert
    split
    · next hlt =>
      refine List.pairwise_cons.2 ⟨fun e he => ?_, hr⟩
      have hname : name < first.1 := compare_lt_iff_lt.1 hlt
      rcases List.mem_cons.1 he with rfl | he
      · exact hname
      · exact hname.trans (hfirst e he)
    · next heq =>
      obtain rfl := compare_eq_iff_eq.1 heq
      exact List.pairwise_cons.2 ⟨hfirst, hrest⟩
    · next hgt =>
      refine List.pairwise_cons.2 ⟨fun e he => ?_, ih hrest⟩
      rcases Registry.eq_or_mem_of_mem_insert he with rfl | he
      · exact compare_gt_iff_gt.1 hgt
      · exact hfirst e he

theorem ofList_sorted (entries : List (String × α)) : (ofList entries).Pairwise (·.1 < ·.1) := by
  have hfold : ∀ (entries : List (String × α)) (r : Registry α), r.Pairwise (·.1 < ·.1) →
      (entries.foldl (fun r e => r.insert e.1 e.2) r).Pairwise (·.1 < ·.1) := by
    intro entries
    induction entries with
    | nil => exact fun r hr => hr
    | cons first rest ih => exact fun r hr => ih _ (insert_sorted hr)
  exact hfold entries [] .nil

/-- A registry of different names has all `entries` that it is made of. -/
theorem ofList_perm {entries : List (String × α)} (hnames : (entries.map (·.1)).Nodup) :
    (ofList entries).Perm entries := by
  have hfold : ∀ (entries : List (String × α)) (r : Registry α),
      ((entries ++ r).map (·.1)).Nodup →
      (entries.foldl (fun r e => r.insert e.1 e.2) r).Perm (entries ++ r) := by
    intro entries
    induction entries with
    | nil => exact fun r _ => .refl r
    | cons first rest ih =>
      intro r hr
      -- The first entry has been inserted, so it is among those that are there already.
      have hinsert : (r.insert first.1 first.2).Perm (first :: r) := by
        refine insert_perm fun hfirst => ?_
        rw [List.cons_append, List.map_cons, List.nodup_cons, List.map_append] at hr
        exact hr.1 (List.mem_append_right _ hfirst)
      have hmoved : (rest ++ r.insert first.1 first.2).Perm (first :: rest ++ r) :=
        (hinsert.append_left rest).trans List.perm_middle
      exact (ih _ ((hmoved.map _).nodup_iff.2 hr)).trans hmoved
  have hall := hfold entries []
  rw [List.append_nil] at hall
  exact hall hnames

theorem get?_modify {f : α → α} (other : String) :
    (r.modify name f).get? other = (r.get? other).map fun e => if other = name then f e else e := by
  induction r with
  | nil => rfl
  | cons first rest ih =>
    -- A changed entry keeps its name, so what is looked for is found at the same place.
    by_cases hother : first.1 = other
    · subst hother
      by_cases hname : first.1 = name <;> simp [modify, get?, hname]
    · have hrest : ∀ (e : α) (rest : Registry α), get? ((first.1, e) :: rest) other =
          rest.get? other :=
        fun e rest => by simp [get?, hother]
      have hfirst : modify name f (first :: rest) =
          (first.1, if first.1 = name then f first.2 else first.2) :: modify name f rest := by
        by_cases hname : first.1 = name <;> simp [modify, hname]
      rw [hfirst, hrest, ih, ← hrest first.2 rest]

end Registry

/-! ### Definitions of names -/

namespace Globals

/-- The classes by their names, without their static members. -/
def outline (g : Globals) : List (String × ClassDef) :=
  g.classes.map fun entry => (entry.1, entry.2.definition)

variable {g g₁ g' : Globals} {n name : Name} {v : Value} {className : String}

/-- A name is found by `lookup` if it is bound in a module, or if it is a static member of its
class. -/
theorem isSome_lookup_iff :
    (g.lookup n).isSome ↔ (g.values.get? n).isSome ∨ (g.static? n.module n).isSome := by
  rw [lookup, Option.isSome_or, Bool.or_eq_true]

theorem isSome_lookup_define :
    ((g.define name v).lookup n).isSome ↔ n = name ∨ (g.lookup n).isSome := by
  have hvalues : ((g.define name v).values.get? n).isSome ↔ n = name ∨
      (g.values.get? n).isSome := by
    rw [Bindings.isSome_get?_iff, Bindings.isSome_get?_iff]
    exact Bindings.mem_names_insert
  rw [isSome_lookup_iff, isSome_lookup_iff, hvalues, or_assoc]
  rfl

theorem isSome_lookup_defineStatic :
    ((g.defineStatic className name v).lookup n).isSome ↔
      (n = name ∧ n.module = className ∧ (g.class? className).isSome) ∨ (g.lookup n).isSome := by
  have hstatic : ((g.defineStatic className name v).static? n.module n).isSome ↔
      (n = name ∧ n.module = className ∧ (g.class? className).isSome) ∨
        (g.static? n.module n).isSome := by
    have hclasses : (g.defineStatic className name v).class? n.module =
        (g.class? n.module).map fun s =>
          if n.module = className then { s with statics := s.statics.insert name v } else s :=
      Registry.get?_modify
        (f := fun s : ClassScope => { s with statics := s.statics.insert name v }) n.module
    unfold static?
    rw [hclasses]
    by_cases hmodule : n.module = className
    · rw [hmodule]
      cases g.class? className with
      | none => simp
      | some scope => simp [Bindings.isSome_get?_iff, Bindings.mem_names_insert]
    · simp [hmodule]
  rw [isSome_lookup_iff, isSome_lookup_iff, hstatic, or_left_comm]
  rfl

theorem outline_defineStatic : (g.defineStatic className name v).outline = g.outline := by
  unfold outline defineStatic Registry.modify
  rw [List.map_map]
  refine List.map_congr_left fun entry _ => ?_
  simp only [Function.comp_apply]
  split <;> rfl

theorem isSome_class?_iff : (g.class? className).isSome ↔ className ∈ g.outline.map (·.1) := by
  simp [class?, Registry.get?, outline]

/-- The same `Globals` with some more names. -/
structure Adds (names : List Name) (g g' : Globals) : Prop where
  outline : g'.outline = g.outline
  /-- The names are those from before and the new ones. -/
  lookup (n : Name) : (g'.lookup n).isSome ↔ n ∈ names ∨ (g.lookup n).isSome

namespace Adds

variable {names more : List Name}

theorem refl (g : Globals) : Adds [] g g :=
  ⟨rfl, by simp⟩

theorem trans (h : Adds names g g₁) (h' : Adds more g₁ g') : Adds (names ++ more) g g' := by
  refine ⟨h'.outline.trans h.outline, fun n => ?_⟩
  rw [h'.lookup, h.lookup, List.mem_append, or_left_comm, or_assoc]

theorem congr (h : Adds names g g') (hnames : ∀ n, n ∈ names ↔ n ∈ more) : Adds more g g' :=
  ⟨h.outline, fun n => by rw [h.lookup, hnames]⟩

theorem isSome_class? (h : Adds names g g') (hclass : (g.class? className).isSome) :
    (g'.class? className).isSome := by
  rw [isSome_class?_iff] at hclass ⊢
  rwa [h.outline]

end Adds

theorem adds_define (matched : List (Name × Value)) (g : Globals) :
    Adds (matched.map (·.1)) g (matched.foldl (fun g b => g.define b.1 b.2) g) := by
  induction matched generalizing g with
  | nil => exact .refl g
  | cons first rest ih =>
    have hfirst : Adds [first.1] g (g.define first.1 first.2) :=
      ⟨rfl, fun n => by rw [isSome_lookup_define, List.mem_singleton]⟩
    exact hfirst.trans (ih _)

/-- Defining static members of a class, one by one. Those that are qualified by the class can be
found from everywhere. -/
theorem adds_defineStatic (matched : List (Name × Value)) (hclass : (g.class? className).isSome) :
    Adds ((matched.map (·.1)).filter (·.module = className)) g
      (matched.foldl (fun g b => g.defineStatic className b.1 b.2) g) := by
  induction matched generalizing g with
  | nil => exact .refl g
  | cons first rest ih =>
    have hfirst : Adds ([first.1].filter (·.module = className)) g
        (g.defineStatic className first.1 first.2) := by
      refine ⟨outline_defineStatic, fun n => ?_⟩
      rw [isSome_lookup_defineStatic]
      simp [hclass]
    refine (hfirst.trans (ih (hfirst.isSome_class? hclass))).congr fun n => ?_
    rw [← List.filter_append]
    rfl

end Globals

theorem Context.isSome_lookup {g : Globals} {n : Name} (hn : (g.lookup n).isSome) (c : Context)
    (h : Heap) : (c.lookup g h n).isSome := by
  have hscopes : ∀ scopes, (Scope.lookup g h n scopes).isSome := by
    intro scopes
    induction scopes with
    | nil => exact hn
    | cons s rest ih =>
      unfold Scope.lookup
      split
      · rfl
      · split
        · -- The globals come after everything else that a root has.
          rw [Root.lookup, Option.isSome_or, hn, Bool.or_true]
        · exact ih
  exact hscopes c.scopes

/-! ### Patterns -/

namespace Heap

variable {h : Heap} {n : Name}

theorem mem_names_bindName? {found matched : Matched} {name : Name} {v : Value}
    (hm : h.bindName? found name v = some matched) :
    n ∈ matched.map (·.1) ↔ n = name ∨ n ∈ found.map (·.1) := by
  unfold bindName? at hm
  split at hm
  · next existing hfound =>
    -- The name has been bound before.
    have hname : name ∈ found.map (·.1) :=
      Bindings.isSome_get?_iff.1 (by rw [Bindings.get?, hfound]; rfl)
    split at hm
    · cases hm
      exact ⟨.inr, fun hn => hn.elim (fun hn => hn ▸ hname) id⟩
    · cases hm
  · cases hm
    simp [or_comm]

mutual

theorem mem_names_collect? (p : Pattern) {v : Value} {found matched : Matched}
    (hm : h.collect? p v found = some matched) :
    n ∈ matched.map (·.1) ↔ n ∈ p.names ∨ n ∈ found.map (·.1) := by
  cases p with
  | mk location kind =>
    rw [collect?] at hm
    rw [Pattern.names]
    exact mem_names_collectKind? kind hm
termination_by structural p

theorem mem_names_collectKind? (kind : PatternKind) {v : Value} {found matched : Matched}
    (hm : h.collectKind? kind v found = some matched) :
    n ∈ matched.map (·.1) ↔ n ∈ kind.names ∨ n ∈ found.map (·.1) := by
  cases kind with
  | ident name =>
    rw [collectKind?] at hm
    rw [PatternKind.names, List.mem_singleton]
    exact mem_names_bindName? hm
  | ignore =>
    rw [collectKind?] at hm
    cases hm
    simp [PatternKind.names]
  | literal value =>
    rw [collectKind?] at hm
    split at hm
    · cases hm
      simp [PatternKind.names]
    · cases hm
  | tuple ps | seq ps =>
    rw [PatternKind.names]
    cases v with
    | tuple vs | seq vs =>
      -- One of the two fits the pattern.
      simp only [collectKind?] at hm
      first
        | exact mem_names_collectEach? ps hm
        | cases hm
    | _ => simp [collectKind?] at hm
  | record tag ps =>
    rw [PatternKind.names]
    cases v with
    | record t fields =>
      rw [collectKind?] at hm
      split at hm
      · exact mem_names_collectEach? ps hm
      · cases hm
    | _ => simp [collectKind?] at hm
termination_by structural kind

theorem mem_names_collectEach? (ps : List Pattern) {vs : List Value} {found matched : Matched}
    (hm : h.collectEach? ps vs found = some matched) :
    n ∈ matched.map (·.1) ↔ n ∈ Pattern.namesOfAll ps ∨ n ∈ found.map (·.1) := by
  cases ps with
  | nil =>
    cases vs with
    | nil =>
      rw [collectEach?] at hm
      cases hm
      simp [Pattern.namesOfAll]
    | cons => simp [collectEach?] at hm
  | cons p ps =>
    cases vs with
    | nil => simp [collectEach?] at hm
    | cons v vs =>
      rw [collectEach?] at hm
      split at hm
      · next found' hcollect =>
        rw [mem_names_collectEach? ps hm, mem_names_collect? p hcollect, Pattern.namesOfAll,
          List.mem_append, or_left_comm, or_assoc]
      · cases hm
termination_by structural ps

end

theorem mem_names_match? {p : Pattern} {v : Value} {matched : Matched}
    (hm : h.match? p v = some matched) :
    n ∈ matched.map (·.1) ↔ n ∈ p.names := by
  simpa using mem_names_collect? p hm

end Heap

/-! ### Constants -/

/-- Every evaluation leaves the `globals` as they are. -/
def globalDrift (P : Program) : Drift P .all where
  Rel m m' := m'.globals = m.globals
  delegates := P.delegates_from_all
  refl := rfl
  trans h h' := h'.trans h
  moves := by
    rintro m m' - (hs | _ | hs | _)
    · cases hs <;> rfl
    · rfl
    · cases hs <;> rfl
    all_goals rfl
  guard g _ _ h := by cases g <;> exact h

namespace Engine

variable {E : Engine} {c c' : Context} {d : Definition} {defs : List Definition} {n : Name}
  {m m' : Machine}

theorem names_addDefinition (hrun : E.addDefinition d c m = (.ok c', m')) :
    n ∈ c'.inner.bindings.map (·.1) ↔ n ∈ d.names ∨ n ∈ c.inner.bindings.map (·.1) := by
  unfold addDefinition at hrun
  unfold Definition.names
  cases hkind : d.kind with
  | value pattern ty e =>
    rw [hkind] at hrun
    obtain ⟨v, m₁, -, hrun⟩ := exists_of_bind_eq_ok hrun
    -- The value may be converted; in any case something is matched.
    obtain ⟨w, m₂, hrun⟩ : ∃ w m₂,
        (do return c.bindAll (← E.matchOrFail pattern w d.location c) : Eval Context) m₂ =
          (.ok c', m') := by
      cases ty with
      | none => exact ⟨v, m₁, hrun⟩
      | some ty =>
        obtain ⟨w, m₂, -, hrun⟩ := exists_of_bind_eq_ok hrun
        exact ⟨w, m₂, hrun⟩
    obtain ⟨matched, m₃, hmatch, hrun⟩ := exists_of_bind_eq_ok hrun
    cases hrun
    cases hmatched : m₂.heap.match? pattern w with
    | none =>
      rw [matchOrFail_of_none hmatched] at hmatch
      exact absurd hmatch fail_ne_ok
    | some found =>
      rw [matchOrFail_of_some hmatched] at hmatch
      cases hmatch
      rw [← Heap.mem_names_match? hmatched]
      exact Bindings.mem_names_insertAll
  | function definition =>
    rw [hkind] at hrun
    cases hrun
    rw [List.mem_singleton]
    exact Bindings.mem_names_insert

theorem names_addDefinitions (hrun : E.addDefinitions defs c m = (.ok c', m')) :
    n ∈ c'.inner.bindings.map (·.1) ↔
      n ∈ defs.flatMap (·.names) ∨ n ∈ c.inner.bindings.map (·.1) := by
  induction defs generalizing c m with
  | nil =>
    cases hrun
    simp
  | cons d rest ih =>
    obtain ⟨c₁, m₁, hfirst, hrest⟩ := exists_of_bind_eq_ok hrun
    rw [ih hrest, names_addDefinition hfirst, List.flatMap_cons, List.mem_append, or_left_comm,
      or_assoc]

theorem names_constants {matched : List (Name × Value)}
    (hrun : E.constants defs c m = (.ok matched, m')) :
    n ∈ matched.map (·.1) ↔ n ∈ defs.flatMap (·.names) := by
  cases defs with
  | nil =>
    cases hrun
    rfl
  | cons first rest =>
    obtain ⟨child, m₁, hdefs, hread⟩ := exists_of_bind_eq_ok hrun
    obtain ⟨inner, m₂, hderive, hdefs⟩ := exists_of_bind_eq_ok hdefs
    cases hderive
    cases hread
    -- Each name is looked up in a scope that binds all of them.
    have hbound : ∀ name ∈ (first :: rest).flatMap (·.names),
        ∃ v, child.lookup m'.globals m'.heap name = some v := by
      intro name hname
      have hinner := (names_addDefinitions hdefs).2 (.inl hname)
      obtain ⟨v, hv⟩ := Option.isSome_iff_exists.1 (Bindings.isSome_get?_iff.2 hinner)
      refine ⟨v, ?_⟩
      rw [Context.lookup, Context.scopes, Scope.lookup, hv]
    simp only [List.mem_map, List.mem_filterMap]
    constructor
    · rintro ⟨b, ⟨name, hname, hb⟩, rfl⟩
      obtain ⟨v, -, rfl⟩ := Option.map_eq_some_iff.1 hb
      exact hname
    · intro hn
      obtain ⟨v, hv⟩ := hbound n hn
      exact ⟨(n, v), ⟨n, hn, by rw [hv]; rfl⟩, rfl⟩

end Engine

/-! ### Definitions in their order -/

/-- The machine goes on, and no names are defined for what is there. -/
structure Machine.Idles (m m' : Machine) : Prop where
  globals : m'.globals = m.globals
  heap : m.heap.Extends m'.heap

namespace Machine.Idles

variable {m m₁ m₂ : Machine}

theorem refl : m.Idles m :=
  ⟨rfl, .refl⟩

theorem trans (h : m.Idles m₁) (h' : m₁.Idles m₂) : m.Idles m₂ :=
  ⟨h'.globals.trans h.globals, h.heap.trans h'.heap⟩

theorem member? (h : m.Idles m₁) {ref : ObjectRef} (hid : ref.id ≤ m.heap.objects.size) {n : Name} :
    m₁.heap.member? ref n = m.heap.member? ref n := by
  rw [Heap.member?, h.heap.members ref hid, Heap.member?]

end Machine.Idles

/-- Whatever it begins with and however it ends, the evaluation defines no names for what is there.
-/
def Eval.DefinesNothing {α : Type} (x : Eval α) : Prop :=
  ∀ m : Machine, m.Idles (x m).2

namespace Eval.DefinesNothing

variable {α : Type} {x : Eval α} {P : Program} {m m' : Machine}

theorem of_drifts {Q : α → α → Prop} (hx : ∀ D : Drift P .all, D.effect.Does Q x) :
    x.DefinesNothing :=
  fun m => ⟨Drift.rel (hx (globalDrift P)) m trivial,
    (hx (extentDrift P m.heap) m m.from_all .refl).inv⟩

theorem idles {r : Except Halt α} (hx : x.DefinesNothing) (hrun : x m = (r, m')) : m.Idles m' := by
  have hidles := hx m
  rwa [hrun] at hidles

variable (P) (bound : Nat) (c : Context)

theorem task (task : Task) : (task.run (P.engine bound)).DefinesNothing :=
  of_drifts fun D => Effect.holds_task (D.leaves Origin.closed_all bound) trivial task.from_all

theorem constants (defs : List Definition) : ((P.engine bound).constants defs c).DefinesNothing :=
  of_drifts fun D =>
    Effect.holds_constants (D.leaves Origin.closed_all bound) c.from_all fun _ _ => trivial

theorem initialiseFields (fields : List StateField) (cells : List (Name × CellId)) :
    ((P.engine bound).initialiseFields c fields cells).DefinesNothing :=
  of_drifts fun D =>
    Effect.holds_initialiseFields (D.leaves Origin.closed_all bound) c.from_all fun _ _ _ _ =>
      trivial

theorem newVariable (init : Option Expr) (ty : Ty) (owner : Option CellOwner)
    (location : Location) :
    ((P.engine bound).newVariable init ty owner location c).DefinesNothing :=
  of_drifts fun D => (Effect.logic (D.leaves Origin.closed_all bound)).newVariable
    (fun _ _ => trivial) trivial ⟨rfl, c.from_all, trivial⟩

end Eval.DefinesNothing

/-- Groups of names are defined one after the other, and no other names for what is there. -/
inductive Machine.Defines (define : List (Name × Value) → Eval Unit) :
    List (List Name) → Machine → Machine → Prop where
  | idle {m m' : Machine} (h : m.Idles m') : Defines define [] m m'
  | group {m m₁ m' : Machine} {names : List Name} {rest : List (List Name)}
      {matched : List (Name × Value)} (h : m.Idles m₁)
      (hnames : ∀ n, n ∈ matched.map (·.1) ↔ n ∈ names)
      (hrest : Defines define rest (define matched m₁).2 m') : Defines define (names :: rest) m m'

namespace Machine.Defines

variable {define : List (Name × Value) → Eval Unit} {groups more : List (List Name)}
  {P : Program} {bound : Nat} {root c : Context} {m m₁ m' : Machine}

theorem initialiseModule {d : ModuleDef}
    (hrun : (P.engine bound).initialiseModule root d m = (.ok (), m')) :
    Defines Engine.define [d.values.flatMap (·.names)] m m' := by
  obtain ⟨matched, m₁, hconstants, hrun⟩ := exists_of_bind_eq_ok hrun
  obtain ⟨_, m₂, hdefine, hstate⟩ := exists_of_bind_eq_ok hrun
  cases hdefine
  refine .group ((Eval.DefinesNothing.constants P bound root _).idles hconstants)
    (fun n => Engine.names_constants hconstants) (.idle ?_)
  -- The fields of the state have their cells already.
  obtain ⟨scope, m₂, hscope, hstate⟩ := exists_of_bind_eq_ok hstate
  obtain rfl : (Engine.define matched m₁).2 = m₂ := congrArg Prod.snd hscope
  cases hd : d.state with
  | none =>
    rw [hd] at hstate
    cases hstate
    exact .refl
  | some state =>
    rw [hd] at hstate
    cases scope with
    | none =>
      cases hstate
      exact .refl
    | some scope =>
      obtain ⟨ctx, m₂, hframe, hfields⟩ := exists_of_bind_eq_ok hstate
      have hentered : (Engine.define matched m₁).2.Idles m₂ := by
        cases hframe
        exact ⟨rfl, .refl⟩
      exact hentered.trans ((Eval.DefinesNothing.initialiseFields P bound _ _ _).idles hfields)

theorem initialiseStatics {className : String} {vars : List InstanceVarDef}
    (hrun : (P.engine bound).initialiseStatics className c vars m = (.ok (), m')) :
    Defines (Engine.defineStatic className) ((vars.filter (·.isStatic)).map ([·.name])) m m' := by
  induction vars generalizing m with
  | nil =>
    cases hrun
    exact .idle .refl
  | cons d rest ih =>
    unfold Engine.initialiseStatics at hrun
    cases hstatic : d.isStatic with
    | false =>
      rw [hstatic] at hrun
      rw [List.filter_cons_of_neg (by simp [hstatic])]
      exact ih hrun
    | true =>
      rw [hstatic] at hrun
      rw [List.filter_cons_of_pos hstatic]
      obtain ⟨v, m₁, hvariable, hrun⟩ := exists_of_bind_eq_ok hrun
      obtain ⟨_, m₂, hdefine, hrest⟩ := exists_of_bind_eq_ok hrun
      cases hdefine
      exact .group ((Eval.DefinesNothing.newVariable P bound c _ _ _ _).idles hvariable)
        (fun n => Iff.rfl) (ih hrest)

theorem initialiseClass {d : ClassDef}
    (hrun : (P.engine bound).initialiseClass root d m = (.ok (), m')) :
    Defines (Engine.defineStatic d.name) (d.values.flatMap (·.names) ::
      (d.instanceVars.filter (·.isStatic)).map ([·.name])) m m' := by
  obtain ⟨ctx, m₁, hframe, hrun⟩ := exists_of_bind_eq_ok hrun
  obtain ⟨matched, m₂, hconstants, hrun⟩ := exists_of_bind_eq_ok hrun
  obtain ⟨_, m₃, hdefine, hstatics⟩ := exists_of_bind_eq_ok hrun
  have hentered : m.Idles m₁ := by
    cases hframe
    exact ⟨rfl, .refl⟩
  cases hdefine
  exact .group (hentered.trans ((Eval.DefinesNothing.constants P bound _ _).idles hconstants))
    (fun n => Engine.names_constants hconstants) (initialiseStatics hstatics)

end Machine.Defines

end Animator
