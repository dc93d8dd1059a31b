import Animator.Proofs.Matching.Product
import Animator.Proofs.Typing.Member

/-!
# Types that can be enumerated

A type bind goes through the values of its type. The types with a list of values are those that are
built from truth values and quotes (`Ty.values?_isSome_iff`). The list has the members of the type
(`Ty.mem_iff_admits`), which are the values that conversion accepts (`Heap.admits_of_convert`), and
conversion leaves them as they are.

`type_enumeration_exact` says this of the list and of the binds that go through it.
-/

namespace Animator

namespace Ty

/-- The type is built from truth values, quotes, `optional` types, unions and products only. -/
inductive Enumerable : Ty → Prop where
  | bool : Enumerable .bool
  | quote (tag : String) : Enumerable (.quote tag)
  | optional {t : Ty} (ht : t.Enumerable) : Enumerable (.optional t)
  | union {ts : List Ty} (hts : ∀ t ∈ ts, t.Enumerable) : Enumerable (.union ts)
  | product {ts : List Ty} (hts : ∀ t ∈ ts, t.Enumerable) : Enumerable (.product ts)

variable {ty : Ty} {ts : List Ty} {v : Value} {vs : List Value}

/-! ### Which types have a list -/

theorem valuesOfAny?_isSome : (valuesOfAny? ts).isSome = true ↔ ∀ t ∈ ts, t.values?.isSome =
    true := by
  induction ts with
  | nil => simp [valuesOfAny?]
  | cons t ts ih =>
    rw [List.forall_mem_cons, ← ih, valuesOfAny?]
    cases t.values? <;> cases valuesOfAny? ts <;> simp

theorem tuples?_isSome : (tuples? ts).isSome = true ↔ ∀ t ∈ ts, t.values?.isSome = true := by
  induction ts with
  | nil => simp [tuples?]
  | cons t ts ih =>
    rw [List.forall_mem_cons, ← ih, tuples?]
    cases t.values? <;> cases tuples? ts <;> simp

theorem values?_isSome_iff : ty.values?.isSome = true ↔ ty.Enumerable := by
  constructor
  · intro h
    induction ty using induction_on_parts with
    | h ty ih =>
      cases ty with
      | bool => exact .bool
      | quote tag => exact .quote tag
      | optional t =>
        rw [values?, Option.isSome_map] at h
        exact .optional (ih t (List.mem_singleton_self t) h)
      | union ts =>
        rw [values?, valuesOfAny?_isSome] at h
        exact .union fun t ht => ih t ht (h t ht)
      | product ts =>
        rw [values?, Option.isSome_map, tuples?_isSome] at h
        exact .product fun t ht => ih t ht (h t ht)
      | _ => simp [values?] at h
  · intro h
    induction h with
    | bool | quote => rfl
    | optional _ ih => rwa [values?, Option.isSome_map]
    | union _ ih => rwa [values?, valuesOfAny?_isSome]
    | product _ ih => rwa [values?, Option.isSome_map, tuples?_isSome]

/-! ### The lists -/

theorem mem_valuesOfAny? (hvs : valuesOfAny? ts = some vs)
    (hmem : ∀ t ∈ ts, ∀ ws, t.values? = some ws → (v ∈ ws ↔ t.admits v = true)) :
    v ∈ vs ↔ admitsAny ts v = true := by
  induction ts generalizing vs with
  | nil =>
    cases hvs
    simp [admitsAny]
  | cons t ts ih =>
    rw [List.forall_mem_cons] at hmem
    rw [valuesOfAny?] at hvs
    split at hvs
    · next ws rest hws hrest =>
      cases hvs
      rw [List.mem_append, hmem.1 ws hws, ih hrest hmem.2, admitsAny, Bool.or_eq_true]
    · cases hvs

theorem mem_tuples? {tuples : List (List Value)} {items : List Value}
    (htuples : tuples? ts = some tuples)
    (hmem : ∀ t ∈ ts, ∀ ws, t.values? = some ws → ∀ v, v ∈ ws ↔ t.admits v = true) :
    items ∈ tuples ↔ admitsEach ts items = true := by
  induction ts generalizing tuples items with
  | nil =>
    cases htuples
    cases items <;> simp [admitsEach]
  | cons t ts ih =>
    rw [List.forall_mem_cons] at hmem
    rw [tuples?] at htuples
    split at htuples
    · next ws rest hws hrest =>
      cases htuples
      simp only [List.mem_flatMap, List.mem_map, hmem.1 ws hws, ih hrest hmem.2]
      cases items with
      | nil => simp [admitsEach]
      | cons v items => simp [admitsEach]
    · cases htuples

/-- The listed values are the members of the type (`admits`). -/
theorem mem_iff_admits (hvs : ty.values? = some vs) : v ∈ vs ↔ ty.admits v = true := by
  induction ty using induction_on_parts generalizing v vs with
  | h ty ih =>
    cases ty with
    | bool =>
      cases hvs
      cases v <;> simp [admits]
    | quote tag =>
      cases hvs
      cases v <;> simp [admits, eq_comm]
    | optional t =>
      rw [values?, Option.map_eq_some_iff] at hvs
      obtain ⟨ws, hws, rfl⟩ := hvs
      rw [List.mem_cons, ih t (List.mem_singleton_self t) hws, admits_optional]
    | union ts => exact mem_valuesOfAny? hvs fun t ht ws hws => ih t ht hws
    | product ts =>
      rw [values?, Option.map_eq_some_iff] at hvs
      obtain ⟨tuples, htuples, rfl⟩ := hvs
      have hitems : ∀ items, items ∈ tuples ↔ admitsEach ts items = true := fun items =>
        mem_tuples? htuples fun t ht ws hws v => ih t ht hws
      cases v <;> simp [admits, hitems]
    | _ => simp [values?] at hvs

theorem Enumerable.isPlain (hty : ty.Enumerable) : ∀ v, ty.admits v = true → v.isPlain = true := by
  induction hty with
  | bool | quote =>
    intro v hv
    cases v <;> simp [admits, Value.isPlain] at hv ⊢
  | optional _ ih =>
    intro v hv
    rcases admits_optional.1 hv with rfl | hv
    · rfl
    · exact ih v hv
  | union _ ih =>
    intro v hv
    obtain ⟨t, ht, hv⟩ := admitsAny_iff.1 hv
    exact ih t ht v hv
  | product _ ih =>
    intro v hv
    cases v with
    | tuple items =>
      refine Value.arePlain_iff.2 fun w hw => ?_
      obtain ⟨t, ht, hw⟩ := exists_of_mem_right (admitsEach_iff.1 hv) hw
      exact ih t ht w hw
    | _ => simp [admits] at hv

end Ty

theorem Value.exact_of_isPlain {v : Value} (hv : v.isPlain = true) : v.Exact := by
  induction v using induction_on_parts with
  | h v ih =>
    intro leaf hleaf
    rcases v.leaves_cases with ⟨hleaves, -⟩ | ⟨hleaves, -⟩ <;> rw [hleaves] at hleaf
    · obtain rfl := List.mem_singleton.1 hleaf
      cases leaf with
      | real | updatable => cases hv
      | _ => exact ⟨rfl, rfl⟩
    · obtain ⟨w, hw, hleaf⟩ := List.mem_flatMap.1 hleaf
      exact ih w hw (isPlain_of_mem_parts hv hw) leaf hleaf

/-! ### Conversion -/

namespace Heap

variable {h : Heap} {ty : Ty} {ts : List Ty}

/-- What a type that can be enumerated accepts in `convert` is a member of it. -/
theorem admits_of_convert (hty : ty.Enumerable) :
    ∀ v w, v.CellFree → h.convert ty v = .ok w → ty.admits v = true := by
  induction hty with
  | bool | quote =>
    intro v w hv hw
    cases (convert_eq_ok_iff_of_not_isCell hv.isCell).1 hw with
    | same hkeeps => exact (hkeeps.resolve_left Ty.noConfusion).2
    | integer _ hint _ => simp [Ty.admits] at hint
  | optional _ ih =>
    intro v w hv hw
    refine Ty.admits_optional.2 (((accepts_optional_iff hv.isCell).1 ⟨w, hw⟩).imp_right ?_)
    rintro ⟨w, hw⟩
    exact ih v w hv hw
  | union _ ih =>
    intro v w hv hw
    obtain ⟨t, ht, w, hw⟩ := (accepts_union_iff hv.isCell).1 ⟨w, hw⟩
    exact Ty.admitsAny_iff.2 ⟨t, ht, ih t ht v w hv hw⟩
  | product _ ih =>
    intro v w hv hw
    cases (convert_eq_ok_iff_of_not_isCell hv.isCell).1 hw with
    | same hkeeps => exact (hkeeps.resolve_left Ty.noConfusion).2
    | integer _ hint _ => simp [Ty.admits] at hint
    | product items hitems =>
      rw [Ty.admits, Ty.admitsEach_iff, List.forall₂_map_left_iff, List.forall₂_map_right_iff]
      refine List.forall₂_same.2 fun i hi => ?_
      exact ih _ (List.mem_map_of_mem hi) _ _ (hv.parts _ (List.mem_map_of_mem hi)) (hitems i hi)

theorem convert_of_enumerable (hty : ty.Enumerable) {v : Value} (hv : ty.admits v = true) :
    h.convert ty v = .ok v := by
  obtain ⟨w, hw⟩ := convert_of_admits h ty v hv
  rw [hw, convert_eq_self h ty (hty.isPlain v hv) hw]

theorem combinations_singleton {p : Pattern} {values : List Value}
    (hexact : ∀ v ∈ values, v.Exact) :
    h.combinations [(p, values)] = values.filterMap (h.match? p) := by
  have hnil : ∀ a ∈ ([] : Matched), a.2.Exact := fun a ha => absurd ha List.not_mem_nil
  rw [combinations_eq_foldl, List.foldl_cons, List.foldl_nil, extend, List.flatMap_singleton]
  refine List.filterMap_congr fun v hv => ?_
  rw [← collect?_eq_bind_merge? rfl hnil (hexact v hv), match?,
    deref_of_not_isCell (hexact v hv).cellFree.isCell]

end Heap

/-! ### Binds -/

namespace Engine

variable {E : Engine} {place : Location} {c : Context} {m : Machine} {ty : Ty} {vs : List Value}

theorem candidates_type (hvs : ty.values? = some vs) (p : Pattern) :
    E.candidates (.type p ty) place c m = (.ok vs, m) := by
  rw [candidates, hvs]
  rfl

theorem combinations_type (hvs : ty.values? = some vs) (hexact : ∀ v ∈ vs, v.Exact) (p : Pattern) :
    E.combinations [.type p ty] place c m = (.ok (vs.filterMap (m.heap.match? p)), m) := by
  have hcandidates : E.allCandidates place c [.type p ty] m = (.ok [(p, vs)], m) :=
    bind_of_ok (candidates_type hvs p)
  rw [← Heap.combinations_singleton hexact]
  exact bind_of_ok hcandidates

theorem candidates_of_not_enumerable (hty : ¬ty.Enumerable) (p : Pattern) :
    E.candidates (.type p ty) place c =
      E.fail .typeNotEnumerable ("type " ++ ty.text ++ " cannot be enumerated") place c := by
  have hnone : ty.values? = none := by
    rwa [← Ty.values?_isSome_iff, Option.not_isSome_iff_eq_none] at hty
  rw [candidates, hnone]

end Engine

/-- A type has a list of values exactly if it is built from truth values, quotes, optional types,
unions and products only. Then conversion leaves each listed value as it is, and the values without
cells that it accepts are the listed ones. These are the candidates of every bind with the type, and
their matches are what a bind of `let be st`, `exists` or `forall` searches (`Engine.Searches`). A
bind with another type is refused. -/
theorem type_enumeration_exact (ty : Ty) :
    (ty.values?.isSome = true ↔ ty.Enumerable) ∧
    (∀ vs, ty.values? = some vs →
      (∀ (h : Heap), ∀ v ∈ vs, h.convert ty v = .ok v ∧ h.equal v v = true) ∧
      (∀ (h : Heap) v, v.CellFree → ((∃ w, h.convert ty v = .ok w) ↔ v ∈ vs)) ∧
      ∀ (E : Engine) (place : Location) (c : Context) (m : Machine) (p : Pattern),
        E.candidates (.type p ty) place c m = (.ok vs, m) ∧
        E.Searches [.type p ty] place c m (vs.filterMap (m.heap.match? p)) m) ∧
    (¬ty.Enumerable → ∀ (E : Engine) (place : Location) (c : Context) p,
      E.candidates (.type p ty) place c =
        E.fail .typeNotEnumerable ("type " ++ ty.text ++ " cannot be enumerated") place c) := by
  refine ⟨Ty.values?_isSome_iff, fun vs hvs => ?_, fun hty E place c p =>
    Engine.candidates_of_not_enumerable hty p⟩
  have hty : ty.Enumerable := Ty.values?_isSome_iff.1 (by rw [hvs]; rfl)
  have hmem : ∀ v, v ∈ vs ↔ ty.admits v = true := fun v => Ty.mem_iff_admits hvs
  have hexact : ∀ v ∈ vs, v.Exact := fun v hv =>
    Value.exact_of_isPlain (hty.isPlain v ((hmem v).1 hv))
  refine ⟨fun h v hv => ⟨Heap.convert_of_enumerable hty ((hmem v).1 hv), ?_⟩, fun h v hfree => ?_,
    fun E place c m p => ?_⟩
  · rw [Heap.equal_of_cellFree (hexact v hv).cellFree (hexact v hv).cellFree]
    exact Value.compare_self v
  · rw [hmem]
    constructor
    · rintro ⟨w, hw⟩
      exact Heap.admits_of_convert hty v w hfree hw
    · exact fun hv => ⟨v, Heap.convert_of_enumerable hty hv⟩
  · exact ⟨Engine.candidates_type hvs p,
      Engine.searches_of_combinations (Engine.combinations_type hvs hexact p)⟩

end Animator
