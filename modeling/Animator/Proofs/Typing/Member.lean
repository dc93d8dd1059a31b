import Animator.Proofs.Origin.Heap

/-!
# Members of types

Whether a value is a member of a type can be told without a heap (`Ty.admits`), since a member is
never a cell. Conversion gives members (`Heap.Grounded.admits_convert`) and accepts members
(`Heap.convert_of_admits`), whatever the heap. A member stays one when a component of it is replaced
by a value that has all the types of the component (`Value.Fits`).

The only thing that conversion asks of a heap is that no chain of cells comes back to a cell, which
is so as long as a cell that holds a cell holds an older one (`Heap.Grounded`).
-/

namespace Animator

variable {items : List Value}

/-! ### Replacing components -/

/-- The first value has all the types that the second one has. -/
def Value.Fits (w v : Value) : Prop :=
  ∀ ty : Ty, ty.admits v = true → ty.admits w = true

namespace Value

theorem fits_record (tag : String) (fields fields' : List (String × Value)) :
    (record tag fields').Fits (record tag fields) := by
  intro ty h
  induction ty using Ty.induction_on_parts with
  | h ty ih =>
    cases ty with
    | record t => exact h
    | optional t => exact ih t (List.mem_singleton_self t) h
    | union ts =>
      rw [Ty.admits, Ty.admitsAny_iff] at h ⊢
      obtain ⟨t, ht, h⟩ := h
      exact ⟨t, ht, ih t ht h⟩
    | unknown => rfl
    | _ => simp [Ty.admits] at h

/-- An item of a sequence may be replaced by a value that has all its types (`Fits`). -/
theorem fits_seq_set {i : Nat} {w v : Value} (hv : items[i]? = some v) (hw : w.Fits v) :
    (seq (items.set i w)).Fits (seq items) := by
  have hall : ∀ t : Ty, (items.all fun u => t.admits u) = true →
      ((items.set i w).all fun u => t.admits u) = true := by
    intro t h
    rw [List.all_eq_true] at h ⊢
    intro u hu
    rcases List.mem_or_eq_of_mem_set hu with hu | rfl
    · exact h u hu
    · exact hw t (h v (List.mem_of_getElem? hv))
  intro ty h
  induction ty using Ty.induction_on_parts with
  | h ty ih =>
    cases ty with
    | seq t => exact hall t h
    | seq1 t =>
      rw [Ty.admits, Bool.and_eq_true] at h ⊢
      exact ⟨by simpa using h.1, hall t h.2⟩
    | optional t => exact ih t (List.mem_singleton_self t) h
    | union ts =>
      rw [Ty.admits, Ty.admitsAny_iff] at h ⊢
      obtain ⟨t, ht, h⟩ := h
      exact ⟨t, ht, ih t ht h⟩
    | unknown => rfl
    | _ => simp [Ty.admits] at h

end Value

/-! ### Chains of cells -/

namespace Heap

/-- A cell that holds a cell holds an older one. -/
def Grounded (h : Heap) : Prop :=
  ∀ c c', h.content c = .updatable c' → c' < c

variable {h : Heap} {t : Ty} {v w : Value} {vs ws : List Value}

theorem Grounded.not_isCell_deref (hh : h.Grounded) (v : Value) : (h.deref v).isCell = false := by
  have hstrip : ∀ n c, c < n → (h.strip n (.updatable c)).isCell = false := by
    intro n
    induction n with
    | zero => exact fun c hc => absurd hc (Nat.not_lt_zero c)
    | succ n ih =>
      intro c hc
      rw [strip]
      cases hcontent : h.content c with
      | updatable c' => exact ih c' (Nat.lt_of_lt_of_le (hh c c' hcontent) (Nat.le_of_lt_succ hc))
      | _ => cases n <;> rfl
  cases v with
  | updatable c =>
    by_cases hc : c < h.cells.size + 1
    · exact hstrip _ c hc
    · -- A cell that does not exist stands for nil.
      have hnone : h.cells[c]? = none :=
        Array.getElem?_eq_none (Nat.le_of_succ_le (Nat.le_of_not_lt hc))
      rw [deref, strip, content, hnone]
      rw [strip_of_not_isCell rfl]
      rfl
  | _ => rfl

/-! ### Conversion gives members -/

/-- Values of some kind are converted to members (`admits`) if there is no cell left when they are
read, and their parts are of that kind again. -/
theorem admits_convert {K : Value → Prop}
    (hK : ∀ v, K v → (h.deref v).isCell = false ∧ K (h.deref v) ∧ ∀ u ∈ (h.deref v).parts, K u)
    (ty : Ty) : ∀ v w, K v → h.convert ty v = .ok w → ty.admits w = true := by
  induction ty using Ty.induction_on_parts with
  | h ty ih =>
    intro v w hv hw
    obtain ⟨hcell, hself, hparts⟩ := hK v hv
    have hcase := convert_eq_ok_iff.1 hw
    generalize h.deref v = u at hcell hself hparts hcase
    have hall : ∀ {t vs ws}, t ∈ ty.parts → vs = u.parts →
        List.Forall₂ (fun v w => h.convert t v = .ok w) vs ws → ∀ w ∈ ws, t.admits w = true := by
      rintro t _ ws ht rfl hitems w hw
      obtain ⟨v, hv, hconvert⟩ := exists_of_mem_right hitems hw
      exact ih t ht v w (hparts v hv) hconvert
    cases hcase with
    | same hkeeps =>
      rcases hkeeps with rfl | ⟨-, hadmits⟩
      · rw [Ty.admits, hcell]
        rfl
      · exact hadmits
    | integer _ hint _ => exact hint.2
    | void => rfl
    | seq hitems => exact List.all_eq_true.2 (hall (List.mem_singleton_self _) rfl hitems)
    | seq1 hne hitems =>
      rw [Ty.admits, List.all_eq_true.2 (hall (List.mem_singleton_self _) rfl hitems),
        Bool.and_true]
      cases hitems with
      | nil => exact absurd rfl hne
      | cons => rfl
    | set hitems =>
      have hall := hall (List.mem_singleton_self _) rfl hitems
      rw [mkSet, Ty.admits, List.all_eq_true]
      intro x hx
      obtain ⟨u, hu, rfl⟩ := List.mem_map.1 (mem_members hx)
      rw [deref_of_not_isCell (Ty.not_isCell_of_admits (hall u hu))]
      exact hall u hu
    | product items hitems =>
      rw [Ty.admits, Ty.admitsEach_iff, List.forall₂_map_left_iff, List.forall₂_map_right_iff]
      exact List.forall₂_same.2 fun i hi =>
        ih _ (List.mem_map_of_mem hi) _ _ (hparts _ (List.mem_map_of_mem hi)) (hitems i hi)
    | nil => rfl
    | optional _ hw =>
      exact Ty.admits_optional.2 (.inr (ih _ (List.mem_singleton_self _) _ w hself hw))
    | union before t after _ hw =>
      have ht : t ∈ before ++ t :: after := List.mem_append_right _ List.mem_cons_self
      exact Ty.admitsAny_iff.2 ⟨t, ht, ih t ht _ w hself hw⟩

theorem Grounded.admits_convert (hh : h.Grounded) (ty : Ty) (v w : Value)
    (hw : h.convert ty v = .ok w) : ty.admits w = true :=
  Heap.admits_convert (K := fun _ => True)
    (fun v _ => ⟨hh.not_isCell_deref v, trivial, fun _ _ => trivial⟩) ty v w trivial hw

/-! ### Accepted values -/

def Accepts (h : Heap) (ty : Ty) (v : Value) : Prop :=
  ∃ w, h.convert ty v = .ok w

theorem exists_bind_eq_ok_iff {α β ε : Type} {x : Except ε α} {f : α → β} :
    (∃ b, (do return f (← x)) = Except.ok b) ↔ ∃ a, x = .ok a := by
  constructor
  · rintro ⟨b, hb⟩
    obtain ⟨a, ha, -⟩ := bind_eq_ok hb
    exact ⟨a, ha⟩
  · rintro ⟨a, rfl⟩
    exact ⟨f a, rfl⟩

theorem exists_mapM {f : Value → Except ValueFault Value} (hf : ∀ v ∈ items, ∃ w, f v = .ok w) :
    ∃ ws, items.mapM f = .ok ws := by
  induction items with
  | nil => exact ⟨[], rfl⟩
  | cons v rest ih =>
    rw [List.forall_mem_cons] at hf
    obtain ⟨w, hw⟩ := hf.1
    obtain ⟨ws, hws⟩ := ih hf.2
    exact ⟨w :: ws, by rw [List.mapM_cons, hw, hws]; rfl⟩

theorem exists_mapM_iff : (∃ ws, (vs.mapM fun v => h.convert t v) = .ok ws) ↔
    ∀ v ∈ vs, h.Accepts t v := by
  constructor
  · rintro ⟨ws, hws⟩ v hv
    obtain ⟨w, -, hw⟩ := exists_of_mem_left (mapM_eq_ok_iff.1 hws) hv
    exact ⟨w, hw⟩
  · exact exists_mapM

theorem accepts_seq_iff : h.Accepts (.seq t) (.seq vs) ↔ ∀ v ∈ vs, h.Accepts t v := by
  rw [Accepts]
  simp only [convert, deref_of_not_isCell (v := .seq vs) rfl]
  rw [exists_bind_eq_ok_iff, exists_mapM_iff]

theorem accepts_seq1_iff :
    h.Accepts (.seq1 t) (.seq vs) ↔ vs ≠ [] ∧ ∀ v ∈ vs, h.Accepts t v := by
  rw [Accepts]
  simp only [convert, deref_of_not_isCell (v := .seq vs) rfl]
  cases vs with
  | nil => simp [noMember]
  | cons v rest =>
    dsimp only
    rw [exists_bind_eq_ok_iff, exists_mapM_iff]
    simp

theorem accepts_set_iff : h.Accepts (.set t) (.set vs) ↔ ∀ v ∈ vs, h.Accepts t v := by
  rw [Accepts]
  simp only [convert, deref_of_not_isCell (v := .set vs) rfl]
  rw [exists_bind_eq_ok_iff, exists_mapM_iff]

theorem exists_convertEach_iff {ts : List Ty} :
    (ts.length = vs.length ∧ ∃ ws, h.convertEach ts vs = .ok ws) ↔
      List.Forall₂ h.Accepts ts vs := by
  induction ts generalizing vs with
  | nil => cases vs <;> simp [convertEach, pure, Except.pure]
  | cons t ts ih =>
    cases vs with
    | nil => simp
    | cons v vs =>
      rw [List.forall₂_cons, ← ih, List.length_cons, List.length_cons, Nat.succ_inj, convertEach]
      constructor
      · rintro ⟨hlength, ws, hws⟩
        obtain ⟨w, hw, hws⟩ := bind_eq_ok hws
        obtain ⟨rest, hrest, -⟩ := bind_eq_ok hws
        exact ⟨⟨w, hw⟩, hlength, rest, hrest⟩
      · rintro ⟨⟨w, hw⟩, hlength, rest, hrest⟩
        exact ⟨hlength, w :: rest, by rw [hw, hrest]; rfl⟩

theorem accepts_product_iff {ts : List Ty} :
    h.Accepts (.product ts) (.tuple vs) ↔ List.Forall₂ h.Accepts ts vs := by
  rw [Accepts, ← exists_convertEach_iff]
  simp only [convert, deref_of_not_isCell (v := .tuple vs) rfl]
  by_cases hlength : ts.length = vs.length
  · rw [if_pos hlength, exists_bind_eq_ok_iff, and_iff_right hlength]
  · simp [hlength, noMember]

theorem accepts_optional_iff (hv : v.isCell = false) :
    h.Accepts (.optional t) v ↔ v = .nil ∨ h.Accepts t v := by
  rw [Accepts, convert, deref_of_not_isCell hv]
  split
  · simp
  · next hne => exact (or_iff_right hne).symm

theorem exists_convertFirst_iff {ts : List Ty} :
    (∃ w, h.convertFirst ts v = some w) ↔ ∃ t ∈ ts, h.Accepts t v := by
  induction ts with
  | nil => simp [convertFirst]
  | cons t ts ih =>
    rw [convertFirst, List.exists_mem_cons_iff, ← ih]
    cases ht : h.convert t v <;> simp [Accepts, ht]

theorem accepts_union_iff {ts : List Ty} (hv : v.isCell = false) :
    h.Accepts (.union ts) v ↔ ∃ t ∈ ts, h.Accepts t v := by
  rw [Accepts, convert, deref_of_not_isCell hv, ← exists_convertFirst_iff]
  cases h.convertFirst ts v <;> simp [noMember]

/-- A member of a type can be converted to it. -/
theorem convert_of_admits (h : Heap) (ty : Ty) :
    ∀ v, ty.admits v = true → ∃ w, h.convert ty v = .ok w := by
  induction ty using Ty.induction_on_parts with
  | h ty ih =>
    intro v hv
    have hcell := Ty.not_isCell_of_admits hv
    cases ty with
    | unknown => exact ⟨_, by rw [convert]⟩
    | optional t =>
      rw [Ty.admits_optional] at hv
      exact (accepts_optional_iff hcell).2 (hv.imp_right (ih t (List.mem_singleton_self t) v))
    | union ts =>
      obtain ⟨t, ht, hv⟩ := Ty.admitsAny_iff.1 hv
      exact (accepts_union_iff hcell).2 ⟨t, ht, ih t ht v hv⟩
    | seq t =>
      cases v <;> simp [Ty.admits] at hv
      exact accepts_seq_iff.2 fun u hu => ih t (List.mem_singleton_self t) u (hv u hu)
    | seq1 t =>
      cases v <;> simp [Ty.admits] at hv
      exact accepts_seq1_iff.2 ⟨hv.1, fun u hu => ih t (List.mem_singleton_self t) u (hv.2 u hu)⟩
    | set t =>
      cases v <;> simp [Ty.admits] at hv
      exact accepts_set_iff.2 fun u hu => ih t (List.mem_singleton_self t) u (hv u hu)
    | product ts =>
      cases v <;> simp [Ty.admits] at hv
      refine accepts_product_iff.2 ((forall₂_mem (Ty.admitsEach_iff.1 hv)).imp fun t v hboth => ?_)
      exact ih t hboth.1 v hboth.2.2
    | _ => exact ⟨v, (convert_eq_ok_iff_of_not_isCell hcell).2 (.same (.inr ⟨rfl, hv⟩))⟩

end Heap

end Animator
