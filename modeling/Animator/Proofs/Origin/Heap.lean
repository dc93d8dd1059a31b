import Animator.Heap.Matching
import Animator.Heap.Operator
import Animator.Proofs.Conversion.Cases
import Animator.Proofs.Origin.Basic

/-!
# Origins on the heap

If the cells and the members of objects come from an origin (`Heap.From`), then so does everything
that is read from the heap, computed from values, matched against patterns, or converted to types,
and every update of the heap with such a value keeps it that way.
-/

namespace Animator

variable {b : Bindings} {name : Name} {v w l r : Value} {matched : Matched} {items : List Value}

/-- The cells and the `members` of objects come from the `Origin`. -/
structure Heap.From (o : Origin) (h : Heap) : Prop where
  cells : ∀ c, (h.content c).From o
  members : ∀ ref, Bindings.From o (h.members ref)

theorem Heap.from_all (h : Heap) : h.From .all :=
  ⟨fun _ => Value.from_all _, fun _ => Bindings.from_all _⟩

theorem Heap.from_empty (o : Origin) : Heap.From o {} where
  cells c := by simp [Heap.content, Value.From]
  members ref := by
    have hnone : Heap.object? {} ref.id = none := by
      cases ref.id <;> simp [Heap.object?]
    simp [Heap.members, hnone, Bindings.From]

variable {o : Origin} {h : Heap}

/-! ### Bindings -/

namespace Bindings

theorem From.get? (hb : From o b) (hv : b.get? name = some v) : v.Bound o := by
  obtain ⟨p, hp, rfl⟩ := Option.map_eq_some_iff.1 hv
  exact hb p (List.mem_of_find?_eq_some hp)

theorem From.insert (hb : From o b) (hv : v.Bound o) :
    From o (Bindings.insert name v b) := by
  induction b with
  | nil => simpa [Bindings.insert, From] using hv
  | cons p rest ih =>
    have hrest : From o rest := fun q hq => hb q (List.mem_cons_of_mem _ hq)
    have hp := hb p List.mem_cons_self
    intro q hq
    unfold Bindings.insert at hq
    -- The name goes before the first one, replaces it, or goes further down.
    split at hq
    · rcases List.mem_cons.1 hq with rfl | hq
      · exact hv
      · exact hb q hq
    · rcases List.mem_cons.1 hq with rfl | hq
      · exact hv
      · exact hrest q hq
    · rcases List.mem_cons.1 hq with rfl | hq
      · exact hp
      · exact ih hrest q hq

theorem From.insertAll {matched : List (Name × Value)} (hm : From o matched) (hb : From o b) :
    From o (Bindings.insertAll matched b) := by
  induction matched generalizing b with
  | nil => exact hb
  | cons p rest ih =>
    refine ih (fun q hq => hm q (List.mem_cons_of_mem _ hq)) ?_
    exact hb.insert (hm p List.mem_cons_self)

end Bindings

/-! ### Sorting -/

namespace Value

variable {cmp : Value → Value → Ordering}

theorem insertDown_perm (x : Value) (items : List Value) :
    (insertDown cmp x items).Perm (x :: items) := by
  induction items with
  | nil => rfl
  | cons y ys ih =>
    unfold insertDown
    split
    · exact (ih.cons y).trans (.swap x y ys)
    · rfl

theorem sort_perm (items : List Value) : (sort cmp items).Perm items := by
  have hfold : ∀ (rest sorted : List Value),
      (rest.foldl (fun sorted x => insertDown cmp x sorted) sorted).Perm (rest ++ sorted) := by
    intro rest
    induction rest with
    | nil => exact fun sorted => .refl sorted
    | cons x xs ih =>
      intro sorted
      exact (ih _).trans (((insertDown_perm x sorted).append_left xs).trans List.perm_middle)
  have hall := hfold items []
  rw [List.append_nil] at hall
  exact (List.reverse_perm _).trans hall

theorem dropRepeated_sublist (last : Value) (items : List Value) :
    (dropRepeated cmp last items).Sublist items := by
  induction items generalizing last with
  | nil => exact .refl []
  | cons x xs ih =>
    unfold dropRepeated
    split
    · exact .cons x (ih last)
    · exact .cons_cons x (ih x)

end Value

/-! ### Reading -/

namespace Heap

theorem From.strip (hh : h.From o) (n : Nat) (hv : v.From o) :
    (h.strip n v).From o := by
  induction n generalizing v with
  | zero => simpa [Heap.strip] using hv
  | succ n ih =>
    cases v with
    | updatable c => exact ih (hh.cells c)
    | _ => simpa [Heap.strip] using hv

theorem From.deref (hh : h.From o) (hv : v.Bound o) : (h.deref v).From o := by
  cases v with
  -- A bound cell may be anything; only what it holds comes from the origin.
  | updatable c => exact hh.strip h.cells.size (hh.cells c)
  | _ => exact hh.strip _ (hv.resolve_left (by simp [Value.isCell]))

theorem From.member? (hh : h.From o) {ref : ObjectRef} (hv : h.member? ref name = some v) :
    v.Bound o :=
  (hh.members ref).get? hv

theorem From.field (hh : h.From o) {ref : ObjectRef} (hv : h.field ref name = .ok v) :
    v.Bound o := by
  -- An exact name comes first, then a text that only one member has.
  unfold Heap.field at hv
  split at hv
  · next w hw =>
    cases hv
    exact hh.member? hw
  · split at hv
    · next n _ hfilter =>
      cases hv
      have hmem := List.mem_singleton_self (n, v)
      rw [← hfilter] at hmem
      exact hh.members ref _ (List.mem_filter.1 hmem).1
    · cases hv

theorem From.setItems (hh : h.From o) (hv : v.Bound o) (hi : h.setItems v = .ok items) :
    Values.From o items := by
  have hd := hh.deref hv
  unfold Heap.setItems Heap.wrong at hi
  split at hi
  · next hset =>
    cases hi
    rw [hset] at hd
    exact Value.fromItems_iff.1 hd
  · cases hi

theorem From.seqItems (hh : h.From o) (hv : v.Bound o) (hi : h.seqItems v = .ok items) :
    Values.From o items := by
  have hd := hh.deref hv
  unfold Heap.seqItems Heap.wrong at hi
  split at hi
  · next hseq =>
    cases hi
    rw [hseq] at hd
    exact Value.fromItems_iff.1 hd
  · cases hi

theorem From.select (hh : h.From o) (hv : v.Bound o) (hw : h.select v name = .ok w) :
    w.Bound o := by
  have hd := hh.deref hv
  unfold Heap.select Heap.wrong at hw
  split at hw
  · next hrecord =>
    rw [hrecord] at hd
    split at hw
    · next hfind =>
      cases hw
      exact (Value.fromFields_iff.1 hd _ (List.mem_of_find?_eq_some hfind)).bound
    · cases hw
  · exact hh.field hw
  · cases hw

/-! ### Sets -/

theorem mem_members {cmp : Value → Value → Ordering} (hv : v ∈ Value.members cmp items) :
    v ∈ items := by
  unfold Value.members at hv
  split at hv
  · simp at hv
  · next x xs hsort =>
    have hsublist : (x :: Value.dropRepeated cmp x xs).Sublist (Value.sort cmp items) :=
      hsort ▸ (Value.dropRepeated_sublist x xs).cons_cons x
    exact (Value.sort_perm items).mem_iff.1 (hsublist.subset hv)

theorem From.mkSet (hh : h.From o) (hi : Values.From o items) :
    (h.mkSet items).From o := by
  refine Value.fromItems_iff.2 fun v hv => ?_
  obtain ⟨w, hw, rfl⟩ := List.mem_map.1 (mem_members hv)
  exact hh.deref (hi w hw).bound

/-! ### Conversion -/

theorem From.convert (hh : h.From o) (ty : Ty) :
    ∀ {v w : Value}, v.Bound o → h.convert ty v = .ok w → w.From o := by
  induction ty using Ty.induction_on_parts with
  | h ty ih =>
    intro v w hv hw
    have hd := hh.deref hv
    have hitems : ∀ {vs ws : List Value}, Values.From o vs →
        List.Forall₂ (fun v w => ∃ t ∈ ty.parts, h.convert t v = .ok w) vs ws →
        Values.From o ws := by
      intro vs ws hvs hws w hw
      obtain ⟨v, hv, t, ht, hconvert⟩ := exists_of_mem_right hws hw
      exact ih t ht (hvs v hv).bound hconvert
    have hconverted := converted_of_convert hw
    generalize h.deref v = u at hd hconverted
    cases hconverted with
    | same => exact hd
    | integer | void => trivial
    | seq hws | tuple hws => exact Value.fromItems_iff.2 (hitems (Value.fromItems_iff.1 hd) hws)
    | set hws => exact hh.mkSet (hitems (Value.fromItems_iff.1 hd) hws)
    | part ht hw => exact ih _ ht hd.bound hw

/-! ### Operators -/

theorem from_intOr (n : Int) (x : Binary64) : (intOr n x).From o := by
  unfold Heap.intOr
  split <;> trivial

theorem From.unary (hh : h.From o) {op : UnaryOp} (hv : v.Bound o) (hw : h.unary op v = .ok w) :
    w.From o := by
  cases op with
  | neg | abs =>
    dsimp only [Heap.unary] at hw
    split at hw
    · cases hw
      exact from_intOr _ _
    · obtain ⟨x, -, hw⟩ := bind_eq_ok hw
      cases hw
      trivial
  | not | floor | card | len =>
    obtain ⟨x, -, hw⟩ := bind_eq_ok hw
    cases hw
    trivial
  | elems =>
    obtain ⟨items, hitems, hw⟩ := bind_eq_ok hw
    cases hw
    exact hh.mkSet (hh.seqItems hv hitems)
  | inds =>
    obtain ⟨items, -, hw⟩ := bind_eq_ok hw
    cases hw
    refine hh.mkSet fun u hu => ?_
    obtain ⟨i, -, rfl⟩ := List.mem_map.1 hu
    trivial
  | hd =>
    obtain ⟨items, hitems, hw⟩ := bind_eq_ok hw
    have hfrom := hh.seqItems hv hitems
    cases items with
    | nil => cases hw
    | cons item rest =>
      cases hw
      exact hfrom _ List.mem_cons_self
  | tl =>
    obtain ⟨items, hitems, hw⟩ := bind_eq_ok hw
    have hfrom := hh.seqItems hv hitems
    cases items with
    | nil => cases hw
    | cons item rest =>
      cases hw
      exact Value.fromItems_iff.2 fun u hu => hfrom u (List.mem_cons_of_mem _ hu)

theorem from_of_arithmetic {whole : Int → Int → Int} {rounded : Binary64 → Binary64 → Binary64}
    (hw : h.arithmetic whole rounded l r = .ok w) : w.From o := by
  -- Numbers that are no integers, and results that do not fit.
  have happrox : ∀ {w : Value},
      (do let a ← h.number l; let b ← h.number r; return Value.real (rounded a b)) = .ok w →
        w.From o := by
    intro w hw
    obtain ⟨a, -, hw⟩ := bind_eq_ok hw
    obtain ⟨b, -, hw⟩ := bind_eq_ok hw
    cases hw
    trivial
  unfold Heap.arithmetic at hw
  dsimp only at hw
  split at hw
  · split at hw
    · cases hw
      trivial
    · exact happrox hw
  · exact happrox hw

theorem from_of_divide (hw : h.divide l r = .ok w) : w.From o := by
  have happrox : ∀ {d : Binary64} {w : Value},
      (do let n ← h.number l; return Value.real (n / d)) = .ok w → w.From o := by
    intro d w hw
    obtain ⟨n, -, hw⟩ := bind_eq_ok hw
    cases hw
    trivial
  obtain ⟨d, -, hw⟩ := bind_eq_ok hw
  dsimp only at hw
  split at hw
  · cases hw
  · split at hw
    · split at hw
      · cases hw
        trivial
      · exact happrox hw
    · exact happrox hw

theorem From.partition (hh : h.From o) {keep : Bool} (hl : l.Bound o)
    (hi : h.partition keep l r = .ok items) : Values.From o items := by
  obtain ⟨right, -, hi⟩ := bind_eq_ok hi
  obtain ⟨left, hleft, hi⟩ := bind_eq_ok hi
  obtain ⟨kept, hkept, hi⟩ := bind_eq_ok hi
  cases hi
  have hfrom := hh.setItems hl hleft
  -- Filtering collects in reverse what it has kept so far.
  have hmem : ∀ {left found kept : List Value},
      left.filterAuxM (fun item => return (← h.contains (h.mkSet right) item) == keep) found =
        .ok kept → ∀ v ∈ kept, v ∈ found ∨ v ∈ left := by
    intro left
    induction left with
    | nil =>
      intro found kept hkept v hv
      cases hkept
      exact .inl hv
    | cons a rest ih =>
      intro found kept hkept v hv
      rw [List.filterAuxM] at hkept
      obtain ⟨b, -, hkept⟩ := bind_eq_ok hkept
      rcases ih hkept v hv with hv | hv
      · cases b with
        | true =>
          rcases List.mem_cons.1 hv with rfl | hv
          · exact .inr List.mem_cons_self
          · exact .inl hv
        | false => exact .inl hv
      · exact .inr (List.mem_cons_of_mem _ hv)
  intro v hv
  rcases hmem hkept v (List.mem_reverse.1 hv) with hv | hv
  · cases hv
  · exact hfrom v hv

theorem From.binary (hh : h.From o) {op : BinaryOp} (hl : l.Bound o) (hr : r.Bound o)
    (hw : h.binary op l r = .ok w) : w.From o := by
  cases op with
  | add | sub | mul => exact from_of_arithmetic hw
  | div => exact from_of_divide hw
  | intDiv =>
    obtain ⟨⟨a, b⟩, -, hw⟩ := bind_eq_ok hw
    cases hw
    exact from_intOr _ _
  | rem | mod =>
    obtain ⟨⟨a, b⟩, -, hw⟩ := bind_eq_ok hw
    cases hw
    trivial
  | lt | le | gt | ge | inSet | notInSet | subset =>
    obtain ⟨x, -, hw⟩ := bind_eq_ok hw
    cases hw
    trivial
  | eq | ne =>
    cases hw
    trivial
  | and | or | implies =>
    obtain ⟨a, -, hw⟩ := bind_eq_ok hw
    split at hw
    all_goals first
      | (cases hw; trivial)
      | (obtain ⟨b, -, hw⟩ := bind_eq_ok hw; cases hw; trivial)
  | union =>
    obtain ⟨left, hleft, hw⟩ := bind_eq_ok hw
    obtain ⟨right, hright, hw⟩ := bind_eq_ok hw
    cases hw
    refine hh.mkSet fun v hv => ?_
    rcases List.mem_append.1 hv with hv | hv
    · exact hh.setItems hl hleft v hv
    · exact hh.setItems hr hright v hv
  | inter | difference =>
    obtain ⟨items, hitems, hw⟩ := bind_eq_ok hw
    cases hw
    exact hh.mkSet (hh.partition hl hitems)
  | concat =>
    obtain ⟨left, hleft, hw⟩ := bind_eq_ok hw
    obtain ⟨right, hright, hw⟩ := bind_eq_ok hw
    cases hw
    refine Value.fromItems_iff.2 fun v hv => ?_
    rcases List.mem_append.1 hv with hv | hv
    · exact hh.seqItems hl hleft v hv
    · exact hh.seqItems hr hright v hv

/-! ### Patterns -/

end Heap

/-- What names have been bound to comes from the `Origin`. It is never a cell. -/
def Matched.From (o : Origin) (matched : Matched) : Prop :=
  ∀ b ∈ matched, b.2.From o

theorem Matched.From.bindings (hm : Matched.From o matched) :
    Bindings.From o matched :=
  fun b hb => (hm b hb).bound

namespace Heap

theorem from_of_bindName? {found : Matched} (hf : Matched.From o found) (hv : v.From o)
    (hm : h.bindName? found name v = some matched) :
    Matched.From o matched := by
  unfold Heap.bindName? at hm
  split at hm
  · split at hm
    · cases hm
      exact hf
    · cases hm
  · cases hm
    intro b hb
    rcases List.mem_append.1 hb with hb | hb
    · exact hf b hb
    · rw [List.mem_singleton.1 hb]
      exact hv

mutual

theorem from_of_collect? : ∀ (p : Pattern) {v : Value} {found matched : Matched}, v.From o →
    Matched.From o found → h.collect? p v found = some matched → Matched.From o matched
  | ⟨_, kind⟩, v, found, matched, hv, hf, hm => by
    rw [Heap.collect?] at hm
    exact from_of_collectKind? kind hv hf hm

theorem from_of_collectKind? : ∀ (p : PatternKind) {v : Value} {found matched : Matched}, v.From o →
    Matched.From o found → h.collectKind? p v found = some matched → Matched.From o matched
  | .ignore, _, _, _, _, hf, hm => by
    rw [Heap.collectKind?] at hm
    cases hm
    exact hf
  | .ident _, _, _, _, hv, hf, hm => by
    rw [Heap.collectKind?] at hm
    exact from_of_bindName? hf hv hm
  | .literal _, _, _, _, _, hf, hm => by
    rw [Heap.collectKind?] at hm
    split at hm
    · cases hm
      exact hf
    · cases hm
  | .tuple ps, v, _, _, hv, hf, hm => by
    cases v with
    | tuple vs =>
      refine from_of_collectEach? ps (Value.fromItems_iff.1 hv) hf ?_
      simpa [Heap.collectKind?] using hm
    | _ => simp [Heap.collectKind?] at hm
  | .seq ps, v, _, _, hv, hf, hm => by
    cases v with
    | seq vs =>
      refine from_of_collectEach? ps (Value.fromItems_iff.1 hv) hf ?_
      simpa [Heap.collectKind?] using hm
    | _ => simp [Heap.collectKind?] at hm
  | .record _ ps, v, _, _, hv, hf, hm => by
    cases v with
    | record t fields =>
      rw [Heap.collectKind?] at hm
      split at hm
      · refine from_of_collectEach? ps (fun w hw => ?_) hf hm
        obtain ⟨f, hf, rfl⟩ := List.mem_map.1 hw
        exact Value.fromFields_iff.1 hv f hf
      · cases hm
    | _ => simp [Heap.collectKind?] at hm

theorem from_of_collectEach? : ∀ (ps : List Pattern) {vs : List Value} {found matched : Matched},
    Values.From o vs → Matched.From o found → h.collectEach? ps vs found = some matched →
      Matched.From o matched
  | [], [], _, _, _, hf, hm => by
    rw [Heap.collectEach?] at hm
    cases hm
    exact hf
  | p :: ps, v :: vs, _, _, hvs, hf, hm => by
    rw [Heap.collectEach?] at hm
    split at hm
    · next hcollect =>
      have hfound := from_of_collect? p (hvs v List.mem_cons_self) hf hcollect
      exact from_of_collectEach? ps (fun w hw => hvs w (List.mem_cons_of_mem _ hw)) hfound hm
    · cases hm
  | [], _ :: _, _, _, _, _, hm | _ :: _, [], _, _, _, _, hm => by
    simp [Heap.collectEach?] at hm

end

theorem From.match? (hh : h.From o) {p : Pattern} (hv : v.Bound o)
    (hm : h.match? p v = some matched) : Matched.From o matched :=
  from_of_collect? p (hh.deref hv) (by simp [Matched.From]) hm

theorem from_of_merge? {left right : Matched} (hl : Matched.From o left) (hr : Matched.From o right)
    (hm : h.merge? left right = some matched) :
    Matched.From o matched := by
  -- The names on the right are added one by one to those on the left.
  unfold Heap.merge? at hm
  induction right generalizing left with
  | nil =>
    cases hm
    exact hl
  | cons b rest ih =>
    rw [List.foldlM_cons] at hm
    obtain ⟨next, hnext, hm⟩ := Option.bind_eq_some_iff.1 hm
    refine ih ?_ (fun c hc => hr c (List.mem_cons_of_mem _ hc)) hm
    exact from_of_bindName? hl (hr b List.mem_cons_self) hnext

theorem foldl_extend_nil (candidates : List (Pattern × List Value)) :
    candidates.foldl (fun found c => h.extend found c.1 c.2) [] = [] := by
  induction candidates with
  | nil => rfl
  | cons c rest ih => exact ih

/-- Nothing is lost when `Heap.extendAll` stops as soon as there are no matches. -/
theorem extendAll_eq_foldl (partials : List Matched) (candidates : List (Pattern × List Value)) :
    h.extendAll partials candidates =
      candidates.foldl (fun found c => h.extend found c.1 c.2) partials := by
  induction candidates generalizing partials with
  | nil => rfl
  | cons c rest ih =>
    rw [extendAll, List.foldl_cons]
    cases hnext : h.extend partials c.1 c.2 with
    | nil => exact (foldl_extend_nil rest).symm
    | cons found others => exact ih (found :: others)

theorem combinations_eq_foldl (candidates : List (Pattern × List Value)) :
    h.combinations candidates =
      candidates.foldl (fun found c => h.extend found c.1 c.2) [[]] :=
  extendAll_eq_foldl [[]] candidates

/-- All `combinations` bind values of the origin. -/
theorem From.combinations (hh : h.From o) {candidates : List (Pattern × List Value)}
    (hc : ∀ c ∈ candidates, Values.From o c.2) :
    ∀ matched ∈ h.combinations candidates, Matched.From o matched := by
  -- Each pattern extends the matches that have been found so far.
  have hfold : ∀ (cs : List (Pattern × List Value)) (partials : List Matched),
      (∀ c ∈ cs, Values.From o c.2) → (∀ found ∈ partials, Matched.From o found) →
        ∀ matched ∈ cs.foldl (fun found c => h.extend found c.1 c.2) partials,
          Matched.From o matched := by
    intro cs
    induction cs with
    | nil => exact fun partials _ hp matched hm => hp matched hm
    | cons c rest ih =>
      intro partials hcs hp matched hm
      refine ih _ (fun d hd => hcs d (List.mem_cons_of_mem _ hd)) ?_ matched hm
      intro found hfound
      obtain ⟨left, hleft, hfound⟩ := List.mem_flatMap.1 hfound
      obtain ⟨v, hv, hfound⟩ := List.mem_filterMap.1 hfound
      obtain ⟨right, hright, hfound⟩ := Option.bind_eq_some_iff.1 hfound
      have hfrom := hcs c List.mem_cons_self v hv
      exact from_of_merge? (hp left hleft) (hh.match? hfrom.bound hright) hfound
  rw [combinations_eq_foldl]
  exact hfold candidates [[]] hc (by simp [Matched.From])

end Heap

namespace Ty

mutual

theorem from_of_values? : ∀ (ty : Ty) {vs : List Value}, ty.values? = some vs → Values.From o vs
  | .bool, vs, hvs | .quote _, vs, hvs => by
    rw [Ty.values?] at hvs
    cases hvs
    simp [Values.From, Value.From]
  | .optional t, vs, hvs => by
    rw [Ty.values?] at hvs
    obtain ⟨ws, hws, rfl⟩ := Option.map_eq_some_iff.1 hvs
    intro v hv
    rcases List.mem_cons.1 hv with rfl | hv
    · trivial
    · exact from_of_values? t hws v hv
  | .union ts, vs, hvs => by
    rw [Ty.values?] at hvs
    exact from_of_valuesOfAny? ts hvs
  | .product ts, vs, hvs => by
    rw [Ty.values?] at hvs
    obtain ⟨ws, hws, rfl⟩ := Option.map_eq_some_iff.1 hvs
    intro v hv
    obtain ⟨w, hw, rfl⟩ := List.mem_map.1 hv
    exact Value.fromItems_iff.2 (from_of_tuples? ts hws w hw)
  | .nat, vs, hvs | .nat1, vs, hvs | .int, vs, hvs | .real, vs, hvs | .char, vs, hvs
  | .token, vs, hvs | .seq _, vs, hvs | .seq1 _, vs, hvs | .set _, vs, hvs | .record _, vs, hvs
  | .class _, vs, hvs | .void, vs, hvs | .unknown, vs, hvs => by
    simp [Ty.values?] at hvs

theorem from_of_valuesOfAny? : ∀ (ts : List Ty) {vs : List Value}, valuesOfAny? ts = some vs →
    Values.From o vs
  | [], vs, hvs => by
    rw [Ty.valuesOfAny?] at hvs
    cases hvs
    simp [Values.From]
  | t :: ts, vs, hvs => by
    rw [Ty.valuesOfAny?] at hvs
    split at hvs
    · next hfirst hrest =>
      cases hvs
      intro v hv
      rcases List.mem_append.1 hv with hv | hv
      · exact from_of_values? t hfirst v hv
      · exact from_of_valuesOfAny? ts hrest v hv
    · cases hvs

theorem from_of_tuples? : ∀ (ts : List Ty) {vs : List (List Value)}, tuples? ts = some vs →
    ∀ w ∈ vs, Values.From o w
  | [], vs, hvs => by
    rw [Ty.tuples?] at hvs
    cases hvs
    simp [Values.From]
  | t :: ts, vs, hvs => by
    rw [Ty.tuples?] at hvs
    split at hvs
    · next hfirst hrest =>
      cases hvs
      intro w hw
      obtain ⟨v, hv, hw⟩ := List.mem_flatMap.1 hw
      obtain ⟨rest, hmem, rfl⟩ := List.mem_map.1 hw
      intro u hu
      rcases List.mem_cons.1 hu with rfl | hu
      · exact from_of_values? t hfirst u hv
      · exact from_of_tuples? ts hrest rest hmem u hu
    · cases hvs

end

end Ty

end Animator
