import Animator.Heap.Conversion
import Animator.Proofs.Origin.Basic
import Animator.Proofs.Parts
import Mathlib.Data.List.Forall2

/-!
# The cases of conversion

A conversion looks at the type from outside in. `Heap.Converts` lists what it may find there and
what it gives then, and nothing else happens (`Heap.convert_eq_ok_iff`). What it does to a value can
also be said without the type: the value stays as it is, a real number becomes the integer that it
stands for, the result of a return becomes the result of a statement, or the items of a collection
are converted one by one (`Heap.Converted`).

Whether a value is a member of a type can be told without a heap (`Ty.admits`), since a member is
never a cell.
-/

namespace Animator

/-! ### Items one by one -/

theorem bind_eq_ok {α β ε : Type} {x : Except ε α} {f : α → Except ε β} {b : β}
    (hb : x >>= f = .ok b) : ∃ a, x = .ok a ∧ f a = .ok b := by
  cases x with
  | error e => cases hb
  | ok a => exact ⟨a, rfl, hb⟩

theorem mapM_eq_ok_iff {α β ε : Type} {f : α → Except ε β} {items : List α} {ws : List β} :
    items.mapM f = .ok ws ↔ List.Forall₂ (fun v w => f v = .ok w) items ws := by
  induction items generalizing ws with
  | nil =>
    rw [List.mapM_nil, List.forall₂_nil_left_iff]
    exact ⟨fun h => (Except.ok.inj h).symm, fun h => congrArg Except.ok h.symm⟩
  | cons v rest ih =>
    rw [List.mapM_cons, List.forall₂_cons_left_iff]
    constructor
    · intro h
      obtain ⟨w, hw, h⟩ := bind_eq_ok h
      obtain ⟨ws', hws', h⟩ := bind_eq_ok h
      exact ⟨w, ws', hw, ih.1 hws', (Except.ok.inj h).symm⟩
    · rintro ⟨w, ws', hw, hws', rfl⟩
      rw [hw, ih.2 hws']
      rfl

section Forall₂

variable {α β : Type} {R : α → β → Prop} {as : List α} {bs : List β}

theorem exists_of_mem_left (h : List.Forall₂ R as bs) {a : α} (ha : a ∈ as) : ∃ b ∈ bs, R a b := by
  induction h with
  | nil => cases ha
  | cons hab _ ih =>
    rcases List.mem_cons.1 ha with rfl | ha
    · exact ⟨_, List.mem_cons_self, hab⟩
    · obtain ⟨b, hb, hab⟩ := ih ha
      exact ⟨b, List.mem_cons_of_mem _ hb, hab⟩

theorem exists_of_mem_right (h : List.Forall₂ R as bs) {b : β} (hb : b ∈ bs) : ∃ a ∈ as, R a b :=
  exists_of_mem_left h.flip hb

theorem mem_of_mapM_eq_ok {ε : Type} {f : α → Except ε β} (hm : as.mapM f = .ok bs) {b : β}
    (hb : b ∈ bs) : ∃ a ∈ as, f a = .ok b :=
  exists_of_mem_right (mapM_eq_ok_iff.1 hm) hb

theorem forall₂_mem (h : List.Forall₂ R as bs) :
    List.Forall₂ (fun a b => a ∈ as ∧ b ∈ bs ∧ R a b) as bs := by
  refine List.forall₂_iff_zip.2 ⟨h.length_eq, fun {a b} hab => ?_⟩
  obtain ⟨ha, hb⟩ := List.of_mem_zip hab
  exact ⟨ha, hb, List.forall₂_zip h hab⟩

end Forall₂

/-! ### Membership -/

namespace Ty

mutual

/-- The value is a member of the type. -/
def admits : Ty → Value → Bool
  | .bool, .bool _ => true
  | .nat, .int n => decide (0 ≤ n)
  | .nat1, .int n => decide (1 ≤ n)
  | .int, .int _ => true
  | .real, .int _ | .real, .real _ => true
  | .char, .char _ => true
  | .token, .token _ => true
  | .quote tag, .quote t => decide (tag = t)
  | .seq t, .seq items => items.all fun v => t.admits v
  | .seq1 t, .seq items => !items.isEmpty && items.all fun v => t.admits v
  | .set t, .set items => items.all fun v => t.admits v
  | .product ts, .tuple items => admitsEach ts items
  | .record tag, .record t _ => decide (tag = t)
  | .class name, .object ref => decide (ref.className = name)
  | .optional _, .nil => true
  | .optional t, v => t.admits v
  | .union ts, v => admitsAny ts v
  | .void, .void => true
  | .unknown, v => !v.isCell
  | _, _ => false

/-- Each value is a member of the type in the same place. -/
def admitsEach : List Ty → List Value → Bool
  | [], [] => true
  | t :: ts, v :: vs => t.admits v && admitsEach ts vs
  | _, _ => false

/-- The value is a member of one of the types. -/
def admitsAny : List Ty → Value → Bool
  | [], _ => false
  | t :: ts, v => t.admits v || admitsAny ts v

end

variable {ts : List Ty} {t : Ty} {v : Value}

theorem admitsEach_iff {vs : List Value} :
    admitsEach ts vs = true ↔ List.Forall₂ (fun t v => t.admits v = true) ts vs := by
  induction ts generalizing vs with
  | nil => cases vs <;> simp [admitsEach]
  | cons t ts ih => cases vs <;> simp [admitsEach, ih]

theorem admitsAny_iff : admitsAny ts v = true ↔ ∃ t ∈ ts, t.admits v = true := by
  induction ts with
  | nil => simp [admitsAny]
  | cons t ts ih => simp [admitsAny, ih]

theorem admits_optional :
    (optional t).admits v = true ↔ v = .nil ∨ t.admits v = true := by
  cases v <;> simp [admits]

theorem not_isCell_of_admits {ty : Ty} (h : ty.admits v = true) : v.isCell = false := by
  cases v with
  | updatable c =>
    induction ty using induction_on_parts with
    | h ty ih =>
      cases ty with
      | optional t => exact ih t (List.mem_singleton_self t) (by simpa [admits] using h)
      | union ts =>
        rw [admits, admitsAny_iff] at h
        obtain ⟨t, ht, h⟩ := h
        exact ih t ht h
      | unknown => simp [admits, Value.isCell] at h
      | _ => simp [admits] at h
  | _ => rfl

end Ty

namespace Heap

variable {h : Heap} {ty : Ty} {v w : Value}

/-! ### The cases of a conversion -/

/-- What a conversion to a type gives for a value that is behind no cell. -/
inductive Converts (h : Heap) : Ty → Value → Value → Prop where
  | same {ty : Ty} {v : Value} (hkeeps : ty = .unknown ∨ ty.parts = [] ∧ ty.admits v = true) :
    Converts h ty v v
  | integer {ty : Ty} {x : Binary64} {n : Int} (hn : integerOfReal? x = some n)
      (hint : ty.parts = [] ∧ ty.admits (.int n) = true) (hreal : ty ≠ .unknown ∧ ty ≠ .real) :
    Converts h ty (.real x) (.int n)
  | void : Converts h .void .voidReturn .void
  | seq {t : Ty} {vs ws : List Value}
      (hitems : List.Forall₂ (fun v w => h.convert t v = .ok w) vs ws) :
    Converts h (.seq t) (.seq vs) (.seq ws)
  | seq1 {t : Ty} {vs ws : List Value} (hne : vs ≠ [])
      (hitems : List.Forall₂ (fun v w => h.convert t v = .ok w) vs ws) :
    Converts h (.seq1 t) (.seq vs) (.seq ws)
  | set {t : Ty} {vs ws : List Value}
      (hitems : List.Forall₂ (fun v w => h.convert t v = .ok w) vs ws) :
    Converts h (.set t) (.set vs) (h.mkSet ws)
  /-- A type, an item and what it is converted to in each place. -/
  | product (items : List (Ty × Value × Value))
      (hitems : ∀ i ∈ items, h.convert i.1 i.2.1 = .ok i.2.2) :
    Converts h (.product (items.map (·.1))) (.tuple (items.map (·.2.1)))
      (.tuple (items.map (·.2.2)))
  | nil (t : Ty) : Converts h (.optional t) .nil .nil
  | optional {t : Ty} {v w : Value} (hne : v ≠ .nil) (hw : h.convert t v = .ok w) :
    Converts h (.optional t) v w
  /-- The first type that accepts the value. -/
  | union (before : List Ty) (t : Ty) (after : List Ty) {v w : Value}
      (hbefore : ∀ u ∈ before, ∀ w, h.convert u v ≠ .ok w) (hw : h.convert t v = .ok w) :
    Converts h (.union (before ++ t :: after)) v w

theorem strip_of_not_isCell (hv : v.isCell = false) (n : Nat) : h.strip n v = v := by
  cases v with
  | updatable c => cases hv
  | _ => cases n <;> rfl

theorem deref_of_not_isCell (hv : v.isCell = false) : h.deref v = v :=
  strip_of_not_isCell hv _

theorem mkSet_of_not_isCell {items : List Value} (hitems : ∀ v ∈ items, v.isCell = false) :
    h.mkSet items = .set (Value.members h.compare items) := by
  have hderef : items.map h.deref = items :=
    (List.map_congr_left fun v hv => deref_of_not_isCell (hitems v hv)).trans items.map_id
  rw [mkSet, hderef]

theorem convertInteger_eq_ok_iff {low : Option Int} :
    h.convertInteger low ty v = .ok w ↔ ∃ n : Int, w = .int n ∧ (∀ b, low = some b → b ≤ n) ∧
      (v = .int n ∨ ∃ x, v = .real x ∧ integerOfReal? x = some n) := by
  unfold convertInteger
  dsimp only
  constructor
  · intro hw
    repeat' split at hw
    all_goals cases hw
    all_goals grind
  · rintro ⟨n, rfl, hlow, rfl | ⟨x, rfl, hx⟩⟩
    all_goals cases low <;> grind

/-- Components are converted one by one, each to its type. -/
theorem convertEach_eq_ok_iff {ts : List Ty} {vs ws : List Value}
    (hlength : ts.length = vs.length) :
    h.convertEach ts vs = .ok ws ↔ ∃ items : List (Ty × Value × Value),
      ts = items.map (·.1) ∧ vs = items.map (·.2.1) ∧ ws = items.map (·.2.2) ∧
      ∀ i ∈ items, h.convert i.1 i.2.1 = .ok i.2.2 := by
  constructor
  · intro hws
    induction ts generalizing vs ws with
    | nil =>
      obtain rfl := List.eq_nil_of_length_eq_zero hlength.symm
      obtain rfl : [] = ws := by simpa [convertEach, pure, Except.pure] using hws
      exact ⟨[], rfl, rfl, rfl, List.forall_mem_nil _⟩
    | cons t ts ih =>
      cases vs with
      | nil => cases hlength
      | cons v vs =>
        rw [convertEach] at hws
        obtain ⟨w, hw, hws⟩ := bind_eq_ok hws
        obtain ⟨rest, hrest, hws⟩ := bind_eq_ok hws
        obtain rfl := Except.ok.inj hws
        obtain ⟨items, rfl, rfl, rfl, hitems⟩ := ih (Nat.succ.inj hlength) hrest
        exact ⟨(t, v, w) :: items, rfl, rfl, rfl, List.forall_mem_cons.2 ⟨hw, hitems⟩⟩
  · rintro ⟨items, rfl, rfl, rfl, hitems⟩
    clear hlength
    induction items with
    | nil => rw [List.map_nil, convertEach] <;> simp [pure, Except.pure]
    | cons i items ih =>
      obtain ⟨hi, hitems⟩ := List.forall_mem_cons.1 hitems
      simp only [List.map_cons, convertEach, hi, ih hitems]
      rfl

theorem convertFirst_eq_some_iff {ts : List Ty} :
    h.convertFirst ts v = some w ↔ ∃ before t after, ts = before ++ t :: after ∧
      (∀ u ∈ before, ∀ w, h.convert u v ≠ .ok w) ∧ h.convert t v = .ok w := by
  induction ts with
  | nil => simp [convertFirst]
  | cons t ts ih =>
    rw [convertFirst]
    cases ht : h.convert t v with
    | ok u =>
      constructor
      · rintro ⟨⟩
        exact ⟨[], t, ts, rfl, List.forall_mem_nil _, ht⟩
      · rintro ⟨_ | ⟨first, before⟩, t', after, hts, hbefore, hw⟩ <;> cases hts
        · exact congrArg some (Except.ok.inj (ht.symm.trans hw))
        · exact absurd ht (hbefore t List.mem_cons_self u)
    | error fault =>
      dsimp only
      rw [ih]
      constructor
      · rintro ⟨before, t', after, rfl, hbefore, hw⟩
        refine ⟨t :: before, t', after, rfl, List.forall_mem_cons.2 ⟨?_, hbefore⟩, hw⟩
        exact fun w hw => by cases ht.symm.trans hw
      · rintro ⟨_ | ⟨first, before⟩, t', after, hts, hbefore, hw⟩ <;> cases hts
        · cases ht.symm.trans hw
        · exact ⟨before, t', after, rfl, (List.forall_mem_cons.1 hbefore).2, hw⟩

/-- What `convert` gives, as a relation (`Converts`). -/
theorem convert_eq_ok_iff : h.convert ty v = .ok w ↔ h.Converts ty (h.deref v) w := by
  constructor
  · intro hw
    cases ty <;> rw [convert] at hw <;> generalize h.deref v = u at hw ⊢
    case unknown => exact Except.ok.inj hw ▸ .same (.inl rfl)
    case nat | nat1 | int =>
      obtain ⟨n, rfl, hlow, rfl | ⟨x, rfl, hx⟩⟩ := convertInteger_eq_ok_iff.1 hw
      · exact .same (.inr ⟨rfl, by simp_all [Ty.admits]⟩)
      · exact .integer hx ⟨rfl, by simp_all [Ty.admits]⟩ ⟨Ty.noConfusion, Ty.noConfusion⟩
    case bool | real | char | token | void =>
      cases u <;> cases hw <;> first | exact .void | exact .same (.inr ⟨rfl, rfl⟩)
    case quote tag | record tag | «class» tag =>
      split at hw
      · split at hw
        · next htag => exact Except.ok.inj hw ▸ .same (.inr ⟨rfl, decide_eq_true htag⟩)
        · cases hw
      · cases hw
    case seq t | set t =>
      split at hw
      · obtain ⟨ws, hws, hw⟩ := bind_eq_ok hw
        cases hw
        constructor
        exact mapM_eq_ok_iff.1 hws
      · cases hw
    case seq1 t =>
      split at hw
      · obtain ⟨ws, hws, hw⟩ := bind_eq_ok hw
        exact Except.ok.inj hw ▸ .seq1 (List.cons_ne_nil _ _) (mapM_eq_ok_iff.1 hws)
      · cases hw
    case product ts =>
      split at hw
      · split at hw
        · next hlength =>
          obtain ⟨ws, hws, hw⟩ := bind_eq_ok hw
          obtain ⟨items, rfl, rfl, rfl, hitems⟩ := (convertEach_eq_ok_iff hlength).1 hws
          exact Except.ok.inj hw ▸ .product items hitems
        · cases hw
      · cases hw
    case optional t =>
      split at hw
      · exact Except.ok.inj hw ▸ .nil t
      · next hne => exact .optional hne hw
    case union ts =>
      split at hw
      · next hfirst =>
        obtain ⟨before, t, after, rfl, hbefore, hconvert⟩ := convertFirst_eq_some_iff.1 hfirst
        exact Except.ok.inj hw ▸ .union before t after hbefore hconvert
      · cases hw
  · intro hw
    generalize hu : h.deref v = u at hw
    cases hw with
    | same hkeeps =>
      rcases hkeeps with rfl | ⟨hparts, hadmits⟩
      · rw [convert, hu]
      · cases ty <;> cases w <;> simp [Ty.admits, Ty.parts] at hadmits hparts
        case nat.int | nat1.int | int.int =>
          rw [convert, hu]
          exact convertInteger_eq_ok_iff.2 ⟨_, rfl, by simp_all, .inl rfl⟩
        case product.tuple ts items =>
          obtain rfl := hparts
          cases items with
          | nil => simp [convert, hu, convertEach, pure, Except.pure, bind, Except.bind]
          | cons => cases hadmits
        all_goals simp_all [convert, Ty.admitsAny]
    | integer hn hint hreal =>
      cases ty <;> simp [Ty.admits, Ty.parts] at hint hreal
      case union ts =>
        obtain ⟨rfl, hint⟩ := hint
        cases hint
      all_goals
        rw [convert, hu]
        exact convertInteger_eq_ok_iff.2 ⟨_, rfl, by simp_all, .inr ⟨_, rfl, hn⟩⟩
    | void => rw [convert, hu]
    | seq hitems | set hitems =>
      rw [convert, hu]
      dsimp only
      rw [mapM_eq_ok_iff.2 hitems]
      rfl
    | seq1 hne hitems =>
      rename_i vs ws
      cases vs with
      | nil => exact absurd rfl hne
      | cons v vs =>
        rw [convert, hu]
        dsimp only
        rw [mapM_eq_ok_iff.2 hitems]
        rfl
    | product items hitems =>
      have hlength : (items.map (·.1)).length = (items.map (·.2.1)).length := by simp
      rw [convert, hu]
      dsimp only
      rw [if_pos hlength, (convertEach_eq_ok_iff hlength).2 ⟨items, rfl, rfl, rfl, hitems⟩]
      rfl
    | nil => rw [convert, hu]
    | optional hne hw =>
      rw [convert, hu]
      split
      · exact absurd rfl hne
      · exact hw
    | union before t after hbefore hw =>
      rw [convert, hu, convertFirst_eq_some_iff.2 ⟨_, _, _, rfl, hbefore, hw⟩]

theorem convert_eq_ok_iff_of_not_isCell (hv : v.isCell = false) :
    h.convert ty v = .ok w ↔ h.Converts ty v w := by
  rw [convert_eq_ok_iff, deref_of_not_isCell hv]

/-! ### What becomes of a value -/

/-- One value becomes another one by conversion to a type. Items of collections are `Converted` to
types that the type is made of. -/
inductive Converted (h : Heap) (ty : Ty) : Value → Value → Prop where
  | same (v : Value) : Converted h ty v v
  | integer {x : Binary64} {n : Int} (hn : integerOfReal? x = some n) :
    Converted h ty (.real x) (.int n)
  | void : Converted h ty .voidReturn .void
  | seq {vs ws : List Value}
      (hitems : List.Forall₂ (fun v w => ∃ t ∈ ty.parts, h.convert t v = .ok w) vs ws) :
    Converted h ty (.seq vs) (.seq ws)
  | set {vs ws : List Value}
      (hitems : List.Forall₂ (fun v w => ∃ t ∈ ty.parts, h.convert t v = .ok w) vs ws) :
    Converted h ty (.set vs) (h.mkSet ws)
  | tuple {vs ws : List Value}
      (hitems : List.Forall₂ (fun v w => ∃ t ∈ ty.parts, h.convert t v = .ok w) vs ws) :
    Converted h ty (.tuple vs) (.tuple ws)
  | part {v w : Value} {t : Ty} (ht : t ∈ ty.parts) (hw : h.convert t v = .ok w) :
    Converted h ty v w

theorem converted_of_convert (hw : h.convert ty v = .ok w) : h.Converted ty (h.deref v) w := by
  have hcase := convert_eq_ok_iff.1 hw
  generalize h.deref v = u at hcase ⊢
  cases hcase with
  | same _ | nil t => exact .same _
  | integer hn _ _ => exact .integer hn
  | void => exact .void
  | seq hitems | seq1 _ hitems =>
    exact .seq (hitems.imp fun _ _ hw => ⟨_, List.mem_singleton_self _, hw⟩)
  | set hitems => exact .set (hitems.imp fun _ _ hw => ⟨_, List.mem_singleton_self _, hw⟩)
  | product items hitems =>
    refine .tuple (List.forall₂_map_left_iff.2 (List.forall₂_map_right_iff.2 ?_))
    exact List.forall₂_same.2 fun i hi => ⟨i.1, List.mem_map_of_mem hi, hitems i hi⟩
  | optional _ hw => exact .part (List.mem_singleton_self _) hw
  | union before t after _ hw => exact .part (List.mem_append_right _ List.mem_cons_self) hw

end Heap

end Animator
