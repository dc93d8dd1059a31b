import Animator.Eval.Assign
import Animator.Proofs.Store.Plain

/-!
# Components of values

A path leads through records and sequences to a component of a value (`Value.at?`), and the
component can be replaced (`Value.put`). What has been put somewhere is there (`Value.at?_put`),
what is somewhere else stays as it is (`Value.at?_put_of_diverge`), and plain values stay plain.
-/

namespace Animator

deriving instance DecidableEq for Segment

/-- What a step of a path looks for: the text of a name, or an `index`. -/
def Segment.key : Segment → String ⊕ Int
  | .field name => .inl name.text
  | .index i => .inr i

namespace Value

/-- The component that one step of a path leads to, if there is one. -/
def component? : Value → Segment → Option Value
  | .record _ fields, .field name => (fields.find? (·.1 == name.text)).map (·.2)
  | .seq items, .index i => if 1 ≤ i then items[(i - 1).toNat]? else none
  | _, _ => none

def replace (x : Value) : Value → Segment → Value
  | .record tag fields, .field name => .record tag (Heap.replaceField name.text x fields)
  | .seq items, .index i => .seq (items.set (i - 1).toNat x)
  | v, _ => v

def at? : Value → List Segment → Option Value
  | v, [] => some v
  | v, s :: rest =>
    match v.component? s with
    | some x => x.at? rest
    | none => none

def put (x : Value) : Value → List Segment → Value
  | _, [] => x
  | v, s :: rest =>
    match v.component? s with
    | some old => replace (put x old rest) v s
    | none => v

/-- Two paths part at some step. -/
def Diverge : List Segment → List Segment → Prop
  | s :: rest, s' :: rest' => s.key ≠ s'.key ∨ Diverge rest rest'
  | _, _ => False

section Fields

variable {name name' key : String} {x old : Value} {fields : List (String × Value)}

theorem replaceField_cons {f : String × Value} {rest : List (String × Value)} :
    Heap.replaceField name x (f :: rest) =
      if f.1 == name then (f.1, x) :: rest else f :: Heap.replaceField name x rest :=
  rfl

theorem find?_replaceField (h : fields.find? (·.1 == name) = some (key, old)) :
    (Heap.replaceField name x fields).find? (·.1 == name) = some (key, x) := by
  induction fields with
  | nil => cases h
  | cons f rest ih =>
    rw [List.find?_cons] at h
    rw [replaceField_cons]
    cases hname : f.1 == name with
    | true =>
      rw [hname] at h
      cases h
      rw [if_pos rfl, List.find?_cons, hname]
    | false =>
      rw [hname] at h
      rw [if_neg Bool.false_ne_true, List.find?_cons, hname]
      exact ih h

theorem find?_replaceField_of_ne (hne : name' ≠ name) :
    (Heap.replaceField name x fields).find? (·.1 == name') = fields.find? (·.1 == name') := by
  induction fields with
  | nil => rfl
  | cons f rest ih =>
    rw [replaceField_cons]
    split
    · next hname =>
      have hother : (f.1 == name') = false := by
        rw [beq_iff_eq.1 hname]
        exact beq_eq_false_iff_ne.2 hne.symm
      rw [List.find?_cons, List.find?_cons]
      simp only [hother]
    · rw [List.find?_cons, List.find?_cons, ih]

theorem replaceField_self (h : fields.find? (·.1 == name) = some (key, old)) :
    Heap.replaceField name old fields = fields := by
  induction fields with
  | nil => cases h
  | cons f rest ih =>
    rw [List.find?_cons] at h
    rw [replaceField_cons]
    cases hname : f.1 == name with
    | true =>
      rw [hname] at h
      cases h
      rw [if_pos rfl]
    | false =>
      rw [hname] at h
      rw [if_neg Bool.false_ne_true, ih h]

theorem mem_replaceField {f : String × Value} (hf : f ∈ Heap.replaceField name x fields) :
    f ∈ fields ∨ f.2 = x := by
  induction fields with
  | nil => cases hf
  | cons g rest ih =>
    rw [replaceField_cons] at hf
    split at hf
    · rcases List.mem_cons.1 hf with rfl | hf
      · exact .inr rfl
      · exact .inl (List.mem_cons_of_mem _ hf)
    · rcases List.mem_cons.1 hf with rfl | hf
      · exact .inl List.mem_cons_self
      · exact (ih hf).imp_left (List.mem_cons_of_mem _)

end Fields

section Component

variable {o : Origin} {v x old : Value} {s s' : Segment}

/-- What has a component is a `record` with a field of that name, or a sequence that is long enough.
-/
theorem component?_cases (h : v.component? s = some x) :
    (∃ tag fields name key, v = .record tag fields ∧ s = .field name ∧
      fields.find? (·.1 == name.text) = some (key, x)) ∨
    (∃ items i, v = .seq items ∧ s = .index i ∧ 1 ≤ i ∧ items[(i - 1).toNat]? = some x) := by
  cases s with
  | field name =>
    cases v with
    | record tag fields =>
      obtain ⟨⟨key, _⟩, hfind, rfl⟩ := Option.map_eq_some_iff.1 h
      exact .inl ⟨tag, fields, name, key, rfl, rfl, hfind⟩
    | _ => cases h
  | index i =>
    cases v with
    | seq items =>
      obtain ⟨hi, hitem⟩ := Option.ite_none_right_eq_some.1 h
      exact .inr ⟨items, i, rfl, rfl, hi, hitem⟩
    | _ => cases h

theorem component?_congr (h : s'.key = s.key) : v.component? s' = v.component? s := by
  cases s with
  | field name =>
    cases s' with
    | field name' =>
      have hname : name'.text = name.text := Sum.inl.inj h
      cases v with
      | record tag fields => exact congrArg (fun t => (fields.find? (·.1 == t)).map (·.2)) hname
      | _ => rfl
    | index => cases h
  | index i =>
    cases s' with
    | field => cases h
    | index j => rw [Sum.inr.inj h]

theorem component?_replace (h : v.component? s = some old) :
    (replace x v s).component? s = some x := by
  obtain ⟨tag, fields, name, key, rfl, rfl, hfind⟩ | ⟨items, i, rfl, rfl, hi, hitem⟩ :=
    component?_cases h
  · exact congrArg (Option.map (·.2)) (find?_replaceField hfind)
  · have hlt := (List.getElem?_eq_some_iff.1 hitem).1
    exact (if_pos hi).trans (List.getElem?_set_self hlt)

theorem component?_replace_of_ne (h : v.component? s = some old) (hne : s'.key ≠ s.key) :
    (replace x v s).component? s' = v.component? s' := by
  obtain ⟨tag, fields, name, key, rfl, rfl, hfind⟩ | ⟨items, i, rfl, rfl, hi, hitem⟩ :=
    component?_cases h
  · cases s' with
    | index => rfl
    | field name' =>
      have hname : name'.text ≠ name.text := fun h => hne (congrArg Sum.inl h)
      exact congrArg (Option.map (·.2)) (find?_replaceField_of_ne hname)
  · cases s' with
    | field => rfl
    | index j =>
      have hj : j ≠ i := fun h => hne (congrArg Sum.inr h)
      refine ite_congr rfl (fun hle => ?_) fun _ => rfl
      -- Both indices are positive, so they stay different when they are counted from zero.
      rw [List.getElem?_set_ne]
      omega

theorem replace_self (h : v.component? s = some old) : replace old v s = v := by
  obtain ⟨tag, fields, name, key, rfl, rfl, hfind⟩ | ⟨items, i, rfl, rfl, hi, hitem⟩ :=
    component?_cases h
  · exact congrArg (Value.record tag) (replaceField_self hfind)
  · obtain ⟨hlt, rfl⟩ := List.getElem?_eq_some_iff.1 hitem
    exact congrArg Value.seq (List.set_getElem_self hlt)

theorem mem_parts_of_component (h : v.component? s = some old) : old ∈ v.parts := by
  obtain ⟨tag, fields, name, key, rfl, rfl, hfind⟩ | ⟨items, i, rfl, rfl, hi, hitem⟩ :=
    component?_cases h
  · exact List.mem_map_of_mem (List.mem_of_find?_eq_some hfind)
  · exact List.mem_of_getElem? hitem

/-- What `replace` gives: the value itself, or a record or a sequence with one other component. -/
theorem replace_cases (x v : Value) (s : Segment) :
    replace x v s = v ∨
    (∃ tag fields name, v = .record tag fields ∧
      replace x v s = .record tag (Heap.replaceField name x fields)) ∨
    (∃ items i, v = .seq items ∧ replace x v s = .seq (items.set i x)) := by
  cases s with
  | field name =>
    cases v with
    | record tag fields => exact .inr (.inl ⟨tag, fields, name.text, rfl, rfl⟩)
    | _ => exact .inl rfl
  | index i =>
    cases v with
    | seq items => exact .inr (.inr ⟨items, _, rfl, rfl⟩)
    | _ => exact .inl rfl

theorem From.replace (hv : v.From o) (hx : x.From o) : (replace x v s).From o := by
  obtain heq | ⟨tag, fields, name, rfl, heq⟩ | ⟨items, i, rfl, heq⟩ := replace_cases x v s
  · rwa [heq]
  · rw [heq]
    refine fromFields_iff.2 fun f hf => ?_
    rcases mem_replaceField hf with hf | hf
    · exact fromFields_iff.1 hv f hf
    · exact hf ▸ hx
  · rw [heq]
    refine fromItems_iff.2 fun w hw => ?_
    rcases List.mem_or_eq_of_mem_set hw with hw | rfl
    · exact fromItems_iff.1 hv w hw
    · exact hx

theorem isPlain_replace (hv : v.isPlain = true) (hx : x.isPlain = true) :
    (replace x v s).isPlain = true := by
  obtain heq | ⟨tag, fields, name, rfl, heq⟩ | ⟨items, i, rfl, heq⟩ := replace_cases x v s
  · rwa [heq]
  · rw [heq]
    refine fieldsArePlain_iff.2 fun f hf => ?_
    rcases mem_replaceField hf with hf | hf
    · exact fieldsArePlain_iff.1 hv f hf
    · exact hf ▸ hx
  · rw [heq]
    refine arePlain_iff.2 fun w hw => ?_
    rcases List.mem_or_eq_of_mem_set hw with hw | rfl
    · exact arePlain_iff.1 hv w hw
    · exact hx

end Component

section Path

variable {v x old : Value} {s : Segment} {rest path path' : List Segment}

theorem at?_cons : v.at? (s :: rest) = (v.component? s).bind (·.at? rest) := by
  rw [at?]
  cases v.component? s <;> rfl

theorem put_cons :
    put x v (s :: rest) = (v.component? s).elim v fun old => replace (put x old rest) v s := by
  rw [put]
  cases v.component? s <;> rfl

theorem at?_append : v.at? (path ++ path') = (v.at? path).bind (·.at? path') := by
  induction path generalizing v with
  | nil => rfl
  | cons s rest ih =>
    rw [List.cons_append, at?_cons, at?_cons, Option.bind_assoc]
    exact congrArg _ (funext fun _ => ih)

theorem at?_put (h : v.at? path = some old) : (put x v path).at? path = some x := by
  induction path generalizing v with
  | nil => rfl
  | cons s rest ih =>
    rw [at?_cons] at h
    obtain ⟨u, hu, h⟩ := Option.bind_eq_some_iff.1 h
    rw [put_cons, hu, Option.elim_some, at?_cons, component?_replace hu]
    exact ih h

theorem at?_put_of_diverge (h : Diverge path path') : (put x v path).at? path' = v.at? path' := by
  induction path generalizing v path' with
  | nil => cases h
  | cons s rest ih =>
    cases path' with
    | nil => cases h
    | cons s' rest' =>
      cases hu : v.component? s with
      | none => rw [put_cons, hu, Option.elim_none]
      | some u =>
        rw [put_cons, hu, Option.elim_some, at?_cons, at?_cons]
        by_cases hs : s'.key = s.key
        · -- The paths share their first component, so they part later.
          have hrest := h.resolve_left fun hne => hne hs.symm
          rw [component?_congr hs, component?_congr hs, component?_replace hu, hu]
          exact ih hrest
        · rw [component?_replace_of_ne hu hs]

theorem isPlain_at (hv : v.isPlain = true) (h : v.at? path = some x) : x.isPlain = true := by
  induction path generalizing v with
  | nil => exact Option.some.inj h ▸ hv
  | cons s rest ih =>
    rw [at?_cons] at h
    obtain ⟨u, hu, h⟩ := Option.bind_eq_some_iff.1 h
    exact ih (isPlain_of_mem_parts hv (mem_parts_of_component hu)) h

theorem isPlain_put (hv : v.isPlain = true) (hx : x.isPlain = true) :
    (put x v path).isPlain = true := by
  induction path generalizing v with
  | nil => exact hx
  | cons s rest ih =>
    rw [put_cons]
    cases hu : v.component? s with
    | none => exact hv
    | some u =>
      have hplain := isPlain_of_mem_parts hv (mem_parts_of_component hu)
      exact isPlain_replace hv (ih hplain)

end Path

end Value

end Animator
