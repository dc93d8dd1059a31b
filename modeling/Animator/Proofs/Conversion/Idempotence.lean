import Animator.Proofs.Conversion.Basic

/-!
# Converting twice

What a conversion gives is a member of the type, and converting it once more gives it back. That is
not obvious for a union, which takes the first alternative that accepts the value: an earlier one
might accept the converted value. But no type accepts a converted value without accepting the value
itself (`Heap.laxer_of_convert`), so the alternatives that were passed over are passed over again.

Sets are the delicate part, since building a set drops members that equal others. A type that
accepts one of two equal members has to accept the other one as well (`Heap.laxer_of_compare`). It
does so if there are no reals among the members, which may equal integers, and if one number stands
for one object.
-/

namespace Animator

namespace Value

variable {v w : Value}

def RealFree (v : Value) : Prop :=
  ∀ x, .real x ∉ v.leaves

inductive RealFreeSets : Value → Prop where
  | of_parts {v : Value} (hset : ∀ items, v = .set items → v.RealFree)
      (hparts : ∀ w ∈ v.parts, w.RealFreeSets) : v.RealFreeSets

/-- References to an object with the same number are the same among the leaves. -/
def Coherent (leaves : List Value) : Prop :=
  ∀ a b : ObjectRef, .object a ∈ leaves → .object b ∈ leaves → a.id = b.id → a = b

theorem RealFreeSets.parts (hv : v.RealFreeSets) : ∀ w ∈ v.parts, w.RealFreeSets := by
  obtain ⟨-, hparts⟩ := hv
  exact hparts

theorem RealFreeSets.of_set {items : List Value} (hv : (set items).RealFreeSets) :
    (set items).RealFree := by
  obtain ⟨hset, -⟩ := hv
  exact hset items rfl

theorem RealFree.parts (hv : v.RealFree) : ∀ w ∈ v.parts, w.RealFree :=
  fun _ hw x hx => hv x (leaves_subset_of_mem_parts hw hx)

theorem RealFree.sets (hv : v.RealFree) : v.RealFreeSets := by
  induction v using induction_on_parts with
  | h v ih => exact .of_parts (fun _ _ => hv) fun w hw => ih w hw (hv.parts w hw)

theorem realFreeSets_real (x : Binary64) : (real x).RealFreeSets :=
  .of_parts (fun _ h => by cases h) fun _ hw => absurd hw List.not_mem_nil

theorem RealFree.of_stems (hv : v.RealFree) (hw : ∀ l ∈ w.leaves, Stems v.leaves l) :
    w.RealFree := by
  intro x hx
  cases hw _ hx with
  | same hl => exact hv x hl

theorem Coherent.mono {ls ls' : List Value} (hls : Coherent ls') (hsub : ls ⊆ ls') : Coherent ls :=
  fun a b ha hb => hls a b (hsub ha) (hsub hb)

theorem Coherent.of_stems {ls ls' : List Value} (hls : Coherent ls)
    (hstems : ∀ l ∈ ls', Stems ls l) : Coherent ls' := by
  have hobject : ∀ a : ObjectRef, .object a ∈ ls' → .object a ∈ ls := by
    intro a ha
    cases hstems _ ha with
    | same hl => exact hl
  exact fun a b ha hb => hls a b (hobject a ha) (hobject b hb)

end Value

namespace Heap

variable {h : Heap} {ty t : Ty} {v w : Value} {vs ws : List Value}

/-- Comparing values without cells and reals works as in a linear preorder (`Ordered`). -/
theorem ordered_realFree (h : Heap) : Value.Ordered h.compare fun v => v.CellFree ∧ v.RealFree := by
  refine ordered_of_cellFree And.left ⟨fun _ _ => Value.swap_compare _ _, ?_⟩
  refine Value.chained_compare_of_real? (K := fun v => v.CellFree ∧ v.RealFree)
    (fun v hv w hw => ?_) fun v hv => ?_
  · exact ⟨hv.1.parts w hw, hv.2.parts w hw⟩
  · cases v with
    | real x => exact absurd (List.mem_singleton_self _) (hv.2 x)
    | _ => rfl

/-! ### Values that are accepted wherever others are -/

/-- Every type that accepts the second value accepts the first one. -/
def Laxer (h : Heap) (v w : Value) : Prop :=
  ∀ ty, h.Accepts ty w → h.Accepts ty v

theorem Laxer.refl (v : Value) : h.Laxer v v :=
  fun _ => id

theorem Laxer.trans {u : Value} (huv : h.Laxer u v) (hvw : h.Laxer v w) : h.Laxer u w :=
  fun ty hw => huv ty (hvw ty hw)

theorem accepts_items (hvs : List.Forall₂ h.Laxer vs ws) (hws : ∀ w ∈ ws, h.Accepts t w) :
    ∀ v ∈ vs, h.Accepts t v := by
  intro v hv
  obtain ⟨w, hw, hvw⟩ := exists_of_mem_left hvs hv
  exact hvw t (hws w hw)

theorem accepts_each {ts : List Ty} (hvs : List.Forall₂ h.Laxer vs ws)
    (hws : List.Forall₂ h.Accepts ts ws) : List.Forall₂ h.Accepts ts vs := by
  induction hvs generalizing ts with
  | nil => exact hws
  | cons hvw _ ih =>
    cases hws with
    | cons hw hws => exact .cons (hvw _ hw) (ih hws)

/-- What a type looks at in values, apart from items of collections, which are related in some way.
-/
inductive Resembles (R : Value → Value → Prop) : Value → Value → Prop where
  | integer {x : Binary64} {n : Int} (hn : integerOfReal? x = some n) :
    Resembles R (.real x) (.int n)
  | void : Resembles R .voidReturn .void
  | token (v w : Value) : Resembles R (.token v) (.token w)
  | record (tag : String) (fields fields' : List (String × Value)) :
    Resembles R (.record tag fields) (.record tag fields')
  | function (f g : FunctionValue) : Resembles R (.function f) (.function g)
  | operation (f g : OperationValue) : Resembles R (.operation f) (.operation g)
  | seq {vs ws : List Value} (hitems : List.Forall₂ R vs ws) : Resembles R (.seq vs) (.seq ws)
  | set {vs ws : List Value} (hitems : ∀ v ∈ vs, ∃ w ∈ ws, R v w) : Resembles R (.set vs) (.set ws)
  | tuple {vs ws : List Value} (hitems : List.Forall₂ R vs ws) : Resembles R (.tuple vs) (.tuple ws)

/-- An integer type asks for the integer that a `real` number stands for. -/
theorem exists_convertInteger_real {x : Binary64} {n : Int} {low : Option Int}
    (hn : integerOfReal? x = some n) (hw : ∃ w, h.convertInteger low ty (.int n) = .ok w) :
    ∃ w, h.convertInteger low ty (.real x) = .ok w := by
  simp only [convertInteger, hn] at hw ⊢
  cases low with
  | none => exact hw
  | some b => by_cases hb : n < b <;> simp [hb, noMember] at hw ⊢

theorem laxer_of_resembles (hvw : Resembles h.Laxer v w) : h.Laxer v w := by
  have hv : v.isCell = false := by cases hvw <;> rfl
  have hw : w.isCell = false ∧ w ≠ .nil := by cases hvw <;> simp [Value.isCell]
  intro ty haccepts
  induction ty using Ty.induction_on_parts with
  | h ty ih =>
    cases ty with
    | unknown => exact ⟨_, by rw [convert]⟩
    | optional t =>
      rw [accepts_optional_iff hw.1] at haccepts
      rw [accepts_optional_iff hv]
      exact .inr (ih t (List.mem_singleton_self t) (haccepts.resolve_left hw.2))
    | union ts =>
      rw [accepts_union_iff hw.1] at haccepts
      rw [accepts_union_iff hv]
      obtain ⟨t, ht, haccepts⟩ := haccepts
      exact ⟨t, ht, ih t ht haccepts⟩
    | nat | nat1 | int =>
      simp only [Accepts, convert, deref_of_not_isCell hv, deref_of_not_isCell hw.1] at haccepts ⊢
      cases hvw with
      | integer hn => exact exists_convertInteger_real hn haccepts
      | _ => simp [convertInteger, noMember] at haccepts
    | seq t =>
      cases hvw with
      | seq hitems =>
        rw [accepts_seq_iff] at haccepts ⊢
        exact accepts_items hitems haccepts
      | _ => simp [Accepts, convert, deref, strip, noMember] at haccepts
    | seq1 t =>
      cases hvw with
      | seq hitems =>
        rw [accepts_seq1_iff] at haccepts ⊢
        refine ⟨?_, accepts_items hitems haccepts.2⟩
        rintro rfl
        exact haccepts.1 (List.forall₂_nil_left_iff.1 hitems)
      | _ => simp [Accepts, convert, deref, strip, noMember] at haccepts
    | set t =>
      cases hvw with
      | set hitems =>
        rw [accepts_set_iff] at haccepts ⊢
        intro v hv
        obtain ⟨w, hw, hvw⟩ := hitems v hv
        exact hvw t (haccepts w hw)
      | _ => simp [Accepts, convert, deref, strip, noMember] at haccepts
    | product ts =>
      cases hvw with
      | tuple hitems =>
        rw [accepts_product_iff] at haccepts ⊢
        exact accepts_each hitems haccepts
      | _ => simp [Accepts, convert, deref, strip, noMember] at haccepts
    | record tag =>
      cases hvw with
      | record tag' =>
        by_cases htag : tag = tag' <;>
          simp [Accepts, convert, deref, strip, noMember, htag] at haccepts ⊢
      | _ => simp [Accepts, convert, deref, strip, noMember] at haccepts
    | real | token | void | bool | char | quote | «class» =>
      cases hvw <;> simp [Accepts, convert, deref, strip, noMember] at haccepts ⊢

theorem laxer_of_compare {ls : List Value} (hls : Value.Coherent ls) {a b : Value} (ha : a.CellFree)
    (hb : b.CellFree) (ha' : a.RealFree) (hb' : b.RealFree) (hals : a.leaves ⊆ ls)
    (hbls : b.leaves ⊆ ls) (hab : a.compare b = .eq) : h.Laxer a b := by
  induction a using Value.induction_on_parts generalizing b with
  | h a ih =>
    rw [Value.compare_eq, Ordering.then_eq_eq, Ordering.then_eq_eq] at hab
    obtain ⟨hrank, hhead, hparts⟩ := hab
    replace hrank := Nat.compare_eq_eq.1 hrank
    -- Parts in the same place are equal, so that types accept both or none.
    have hitems : List.Forall₂ h.Laxer a.parts b.parts :=
      (forall₂_mem (compareLex_eq_iff_forall₂.1 hparts)).imp fun x y ⟨hx, hy, hxy⟩ =>
        ih x hx (ha.parts x hx) (hb.parts y hy) (ha'.parts x hx) (hb'.parts y hy)
          (List.Subset.trans (Value.leaves_subset_of_mem_parts hx) hals)
          (List.Subset.trans (Value.leaves_subset_of_mem_parts hy) hbls) hxy
    cases a <;> cases b <;> simp [Value.rank] at hrank
    case real.int | real.real => exact absurd (List.mem_singleton_self _) (ha' _)
    case int.real => exact absurd (List.mem_singleton_self _) (hb' _)
    case updatable.updatable => cases ha.isCell
    case void.void | voidReturn.voidReturn | nil.nil => exact .refl _
    case bool.bool | int.int | char.char | quote.quote =>
      obtain rfl := Std.LawfulEqOrd.eq_of_compare hhead
      exact .refl _
    case object.object r s =>
      have hr : r = s := hls r s (hals (List.mem_singleton_self _))
          (hbls (List.mem_singleton_self _))
        (Nat.compare_eq_eq.1 hhead)
      exact hr ▸ .refl _
    case record.record =>
      obtain rfl := Std.LawfulEqOrd.eq_of_compare hhead
      exact laxer_of_resembles (.record _ _ _)
    case set.set =>
      exact laxer_of_resembles (.set fun _ hx => exists_of_mem_left hitems hx)
    case seq.seq => exact laxer_of_resembles (.seq hitems)
    case tuple.tuple => exact laxer_of_resembles (.tuple hitems)
    case token.token => exact laxer_of_resembles (.token _ _)
    case function.function => exact laxer_of_resembles (.function _ _)
    case operation.operation => exact laxer_of_resembles (.operation _ _)

/-- What the members of a set without reals are converted to has no cells and reals, and its leaves
stem (`Stems`) from those of the set. -/
theorem kept_of_set (hv : (Value.set vs).CellFree) (hreal : (Value.set vs).RealFree)
    (hitems : List.Forall₂ (fun v w => ∃ t, h.convert t v = .ok w) vs ws) :
    ∀ w ∈ ws, (w.CellFree ∧ w.RealFree) ∧ ∀ l ∈ w.leaves, Value.Stems (Value.set vs).leaves l := by
  intro w hw
  obtain ⟨u, hu, t, hconvert⟩ := exists_of_mem_right hitems hw
  have hstems := stems_of_convert (hv.parts u hu) hconvert
  have hsub : u.leaves ⊆ (Value.set vs).leaves := Value.leaves_subset_of_mem_parts hu
  exact ⟨⟨(hv.parts u hu).of_stems hstems, (hreal.parts u hu).of_stems hstems⟩,
    fun l hl => (hstems l hl).mono hsub⟩

/-- Types that accept what a value has been converted to accept the value. -/
theorem laxer_of_convert (hv : v.CellFree) (hsets : v.RealFreeSets)
    (hobjects : Value.Coherent v.leaves) (hw : h.convert ty v = .ok w) : h.Laxer v w := by
  induction ty using Ty.induction_on_parts generalizing v w with
  | h ty ih =>
    have hitem : ∀ {vs ws}, (∀ u ∈ vs, u ∈ v.parts) →
        List.Forall₂ (fun v w => ∃ t ∈ ty.parts, h.convert t v = .ok w) vs ws →
        List.Forall₂ h.Laxer vs ws := by
      intro vs ws hvs hws
      refine (forall₂_mem hws).imp fun u w ⟨hu, _, t, ht, hconvert⟩ => ?_
      replace hu := hvs u hu
      exact ih t ht (hv.parts u hu) (hsets.parts u hu)
        (hobjects.mono (Value.leaves_subset_of_mem_parts hu)) hconvert
    have hconverted := converted_of_convert hw
    rw [deref_of_not_isCell hv.isCell] at hconverted
    cases hconverted with
    | same => exact .refl v
    | integer hn => exact laxer_of_resembles (.integer hn)
    | void => exact laxer_of_resembles .void
    | seq hitems => exact laxer_of_resembles (.seq (hitem (fun _ => id) hitems))
    | tuple hitems => exact laxer_of_resembles (.tuple (hitem (fun _ => id) hitems))
    | @set vs ws hitems =>
      have hlax := hitem (fun _ => id) hitems
      have hkept := kept_of_set hv hsets.of_set (hitems.imp fun _ _ ⟨t, _, hw⟩ => ⟨t, hw⟩)
      rw [mkSet_of_not_isCell fun w hw => (hkept w hw).1.1.isCell]
      refine laxer_of_resembles (.set fun u hu => ?_)
      obtain ⟨w, hw, huw⟩ := exists_of_mem_left hlax hu
      obtain ⟨x, hx, hxw⟩ := Value.covers_members h.ordered_realFree (fun w hw => (hkept w hw).1) hw
      refine ⟨x, hx, huw.trans ?_⟩
      -- The member that stands for the converted one may be another one that it equals.
      have hx' := mem_members hx
      have hstems : ∀ l ∈ w.leaves ++ x.leaves, Value.Stems (Value.set vs).leaves l := by
        intro l hl
        rcases List.mem_append.1 hl with hl | hl
        · exact (hkept w hw).2 l hl
        · exact (hkept x hx').2 l hl
      rw [compare_of_cellFree (hkept x hx').1.1 (hkept w hw).1.1] at hxw
      have hwx : w.compare x = .eq := by rw [← Value.swap_compare, hxw]; rfl
      exact laxer_of_compare (hobjects.of_stems hstems) (hkept w hw).1.1 (hkept x hx').1.1
        (hkept w hw).1.2 (hkept x hx').1.2 (List.subset_append_left _ _)
        (List.subset_append_right _ _) hwx
    | part ht hw => exact ih _ ht hv hsets hobjects hw

/-! ### Members that stay as they are -/

theorem admits_of_cellFree (hv : v.CellFree) (hw : h.convert ty v = .ok w) : ty.admits w =
    true := by
  refine admits_convert (K := Value.CellFree) (fun v hv => ?_) ty v w hv hw
  rw [deref_of_not_isCell hv.isCell]
  exact ⟨hv.isCell, hv, hv.parts⟩

/-- What has been converted to a type stays as it is when it is converted again. -/
theorem convert_convert (hv : v.CellFree) (hsets : v.RealFreeSets)
    (hobjects : Value.Coherent v.leaves) (hw : h.convert ty v = .ok w) : h.convert ty w =
      .ok w := by
  induction ty using Ty.induction_on_parts generalizing v w with
  | h ty ih =>
    have hlax := laxer_of_convert hv hsets hobjects hw
    have hpart : ∀ t ∈ ty.parts, ∀ u ∈ v.parts, ∀ w, h.convert t u = .ok w → h.convert t w =
        .ok w :=
      fun t ht u hu w hw => ih t ht (hv.parts u hu) (hsets.parts u hu)
        (hobjects.mono (Value.leaves_subset_of_mem_parts hu)) hw
    have hitems : ∀ {t vs ws}, t ∈ ty.parts → vs = v.parts →
        List.Forall₂ (fun v w => h.convert t v = .ok w) vs ws →
        List.Forall₂ (fun v w => h.convert t v = .ok w) ws ws := by
      rintro t _ ws ht rfl hws
      refine List.forall₂_same.2 fun w hw => ?_
      obtain ⟨u, hu, hconvert⟩ := exists_of_mem_right hws hw
      exact hpart t ht u hu w hconvert
    have hcell := Ty.not_isCell_of_admits (admits_of_cellFree hv hw)
    rw [convert_eq_ok_iff_of_not_isCell hcell]
    cases (convert_eq_ok_iff_of_not_isCell hv.isCell).1 hw with
    | same hkeeps => exact .same hkeeps
    | integer _ hint _ => exact .same (.inr hint)
    | void => exact .same (.inr ⟨rfl, rfl⟩)
    | seq hws => exact .seq (hitems (List.mem_singleton_self _) rfl hws)
    | seq1 hne hws =>
      refine .seq1 ?_ (hitems (List.mem_singleton_self _) rfl hws)
      rintro rfl
      exact hne (List.forall₂_nil_right_iff.1 hws)
    | @set t vs ws hws =>
      have hkept := kept_of_set hv hsets.of_set (hws.imp fun _ _ hw => ⟨t, hw⟩)
      have hinc := Value.increasing_members h.ordered_realFree fun w hw => (hkept w hw).1
      have hfree : ∀ w ∈ Value.members h.compare ws, w.CellFree ∧ w.RealFree :=
        fun w hw => (hkept w (mem_members hw)).1
      have hset : h.mkSet (Value.members h.compare ws) = .set (Value.members h.compare ws) := by
        rw [mkSet_of_not_isCell fun w hw => (hfree w hw).1.isCell,
          Value.members_of_isChain (h.ordered_realFree.pairwise_gt hfree hinc).isChain]
      have hsame := List.forall₂_same.1 (hitems (List.mem_singleton_self t) rfl hws)
      rw [mkSet_of_not_isCell fun w hw => (hkept w hw).1.1.isCell]
      nth_rewrite 2 [← hset]
      exact .set (List.forall₂_same.2 fun w hw => hsame w (mem_members hw))
    | product items hconvert =>
      have hagain := Converts.product (h := h) (items.map fun i => (i.1, i.2.2, i.2.2)) <|
        List.forall_mem_map.2 fun i hi =>
          hpart _ (List.mem_map_of_mem hi) _ (List.mem_map_of_mem hi) _ (hconvert i hi)
      rwa [List.map_map, List.map_map, List.map_map] at hagain
    | nil t => exact .nil t
    | @optional t _ _ hne hconvert =>
      by_cases hnil : w = .nil
      · exact hnil ▸ .nil t
      · exact .optional hnil (ih t (List.mem_singleton_self t) hv hsets hobjects hconvert)
    | union before t after hbefore hconvert =>
      have ht : t ∈ before ++ t :: after := List.mem_append_right _ List.mem_cons_self
      -- The alternatives that were passed over are passed over again.
      exact .union before t after (fun u hu x hx => (hlax u ⟨x, hx⟩).elim (hbefore u hu))
        (ih t ht hv hsets hobjects hconvert)

/-- Conversion by `convert` is sound with respect to `admits`, complete and idempotent: it gives
members of the type, which stay as they are when they are converted again, and it accepts all
members. -/
theorem convert_members (h : Heap) (ty : Ty) (v : Value) (hcells : v.CellFree)
    (hreals : v.RealFreeSets) (hobjects : Value.Coherent v.leaves) :
    (∀ w, h.convert ty v = .ok w → ty.admits w = true ∧ h.convert ty w = .ok w) ∧
      (ty.admits v = true → ∃ w, h.convert ty v = .ok w) :=
  ⟨fun _ hw => ⟨admits_of_cellFree hcells hw, convert_convert hcells hreals hobjects hw⟩,
    h.convert_of_admits ty v⟩

/-- A value in which everything happens that a conversion does: reals become integers where one is
asked for, a result of a return becomes the result of a statement, and so equals another member. -/
def mixedValue : Value :=
  .tuple [.seq [.real (.ofInt 2), .int 3], .set [.object ⟨1, "Lamp"⟩, .void, .voidReturn],
    .real (.ofInt 7)]

def mixedType : Ty :=
  .product [.optional (.seq1 (.union [.char, .nat1])), .set (.union [.class "Lamp", .void]),
    .union [.bool, .real, .int]]

def mixedMember : Value :=
  .tuple [.seq [.int 2, .int 3], .set [.object ⟨1, "Lamp"⟩, .void], .real (.ofInt 7)]

theorem convert_members_mixed :
    convert {} mixedType mixedValue = .ok mixedMember ∧ mixedType.admits mixedMember = true ∧
      convert {} mixedType mixedMember = .ok mixedMember := by
  have hconvert : convert {} mixedType mixedValue = .ok mixedMember := by rfl
  have hcells : mixedValue.CellFree :=
    Value.cellFree_iff.2 (by simp [mixedValue, Value.leaves, Value.leavesOfItems, Value.isCell])
  have hreals : mixedValue.RealFreeSets := by
    refine .of_parts (by simp [mixedValue]) ?_
    simp only [mixedValue, Value.parts, List.forall_mem_cons]
    refine ⟨.of_parts (by simp) ?_, Value.RealFree.sets ?_, Value.realFreeSets_real _, by simp⟩
    · simp only [Value.parts, List.forall_mem_cons]
      refine ⟨Value.realFreeSets_real _, Value.RealFree.sets ?_, by simp⟩
      simp [Value.RealFree, Value.leaves]
    · simp [Value.RealFree, Value.leaves, Value.leavesOfItems]
  have hobjects : Value.Coherent mixedValue.leaves := by
    simp [Value.Coherent, mixedValue, Value.leaves, Value.leavesOfItems]
  exact ⟨hconvert, (convert_members {} mixedType mixedValue hcells hreals hobjects).1 _ hconvert⟩

end Heap

end Animator
