import Animator.Proofs.Leakage
import Animator.Proofs.Typing.Member

/-!
# Sets

Sets hold their members in increasing order, each once. As long as no real numbers are involved,
they are finite sets in the sense of mathematics: what an operator makes of them is again such a
set, with the members that it should have, and sets are equal exactly if they have the same members.

`Value.Proper` says of a value that there is no real number and no cell in it, and that the sets in
it are increasing. `Heap.IsSetOf` says of a value that it is a proper set and which members it has.
`sets_are_finite_sets` puts it all together.
-/

namespace Animator

namespace Value

/-- There is no real number and no cell in the value, at any depth, and all sets in it are
`Increasing`. -/
inductive Proper : Value → Prop where
  | of_parts {v : Value} (hcell : v.isCell = false) (hreal : v.real? = none)
      (hset : ∀ items, v = .set items → Increasing compare items) (hparts : ∀ w ∈ v.parts,
        w.Proper) :
      v.Proper

namespace Proper

variable {v : Value}

theorem parts (hv : v.Proper) : ∀ w ∈ v.parts, w.Proper := by
  obtain ⟨-, -, -, hparts⟩ := hv
  exact hparts

theorem cellFree (hv : v.Proper) : v.CellFree := by
  induction hv with
  | of_parts hcell _ _ _ ih => exact .of_parts hcell ih

theorem isCell (hv : v.Proper) : v.isCell = false := by
  obtain ⟨hcell, -⟩ := hv
  exact hcell

theorem real? (hv : v.Proper) : v.real? = none := by
  obtain ⟨-, hreal, -⟩ := hv
  exact hreal

theorem ordered : Ordered compare Proper where
  swap {a b} _ _ := swap_compare a b
  chained := chained_compare_of_real? (fun _ => parts) fun _ => real?

end Proper

theorem proper_int (i : Int) : (Value.int i).Proper :=
  .of_parts rfl rfl nofun nofun

theorem proper_void : Value.void.Proper :=
  .of_parts rfl rfl nofun nofun

theorem proper_tuple {items : List Value} (h : ∀ v ∈ items, v.Proper) :
    (Value.tuple items).Proper :=
  .of_parts rfl rfl nofun h

theorem proper_seq_iff {items : List Value} :
    (Value.seq items).Proper ↔ ∀ v ∈ items, v.Proper :=
  ⟨fun h => h.parts, fun h => .of_parts rfl rfl nofun h⟩

theorem proper_set_iff {items : List Value} :
    (Value.set items).Proper ↔ Increasing compare items ∧ ∀ v ∈ items, v.Proper := by
  constructor
  · rintro ⟨-, -, hset, hparts⟩
    exact ⟨hset items rfl, hparts⟩
  · rintro ⟨hinc, hparts⟩
    refine .of_parts rfl rfl (fun items' h => ?_) hparts
    cases h
    exact hinc

theorem Proper.compare_int {x : Value} (hx : x.Proper) (i : Int) :
    compare (.int i) x = .eq ↔ x = .int i := by
  cases x with
  | int j =>
    rw [compare, Int.compare_eq_eq, Value.int.injEq, eq_comm]
  | real x =>
    obtain ⟨-, hreal, -⟩ := hx
    cases hreal
  | _ => simp [compare, rank]

theorem increasing_of_plain {items : List Value} (hitems : ∀ v ∈ items, v.Proper)
    (h : increasing items = true) : Increasing compare items := by
  induction items with
  | nil => exact .nil
  | cons a rest ih =>
    obtain ⟨ha, hrest⟩ := List.forall_mem_cons.1 hitems
    cases rest with
    | nil => exact List.pairwise_singleton _ a
    | cons b rest =>
      rw [increasing, Bool.and_eq_true, beq_iff_eq] at h
      have hinc := ih hrest h.2
      have hb := hrest b List.mem_cons_self
      have hab : compare a b = .lt := (Proper.ordered.gt_iff_lt hb ha).1 h.1
      refine List.pairwise_cons.2 ⟨fun z hz => ?_, hinc⟩
      rcases List.mem_cons.1 hz with rfl | hz'
      · exact hab
      · exact Proper.ordered.lt_trans ha hb (hrest z hz) hab ((List.pairwise_cons.1 hinc).1 z hz')

theorem proper_of_isPlain {v : Value} (hv : v.isPlain = true) : v.Proper := by
  induction v using induction_on_parts with
  | h v ih =>
    have hparts : ∀ w ∈ v.parts, w.Proper := fun w hw => ih w hw (isPlain_of_mem_parts hv hw)
    refine .of_parts (cellFree_of_isPlain hv).isCell ?_ (fun items hset => ?_) hparts
    · cases v with
      | real => cases hv
      | _ => rfl
    · subst hset
      rw [isPlain, Bool.and_eq_true] at hv
      exact increasing_of_plain hparts hv.2

end Value

open Value (Proper Increasing Covers)

namespace Heap

variable {h : Heap} {as bs items : List Value} {x v : Value}

/-! ### Membership -/

def Member (h : Heap) (x s : Value) : Prop :=
  h.contains s x = .ok true

/-- The value is a `proper` set, and its members are the values with a property. -/
structure IsSetOf (h : Heap) (s : Value) (p : Value → Prop) : Prop where
  proper : ∃ items, s = .set items ∧ Increasing h.compare items ∧ ∀ v ∈ items, v.Proper
  member : ∀ x, x.Proper → (h.Member x s ↔ p x)

theorem compare_eq_of_proper {a b : Value} (ha : a.Proper) (hb : b.Proper) :
    h.compare a b = a.compare b :=
  compare_of_cellFree ha.cellFree hb.cellFree

theorem covers_iff_of_proper (hitems : ∀ v ∈ items, v.Proper) (hx : x.Proper) :
    Covers h.compare items x ↔ Covers Value.compare items x :=
  exists_congr fun _ => and_congr_right fun hv => by rw [compare_eq_of_proper (hitems _ hv) hx]

theorem ordered_proper (h : Heap) : Value.Ordered h.compare Proper :=
  ordered_of_cellFree Proper.cellFree Proper.ordered

/-- Whether a set is `Proper` can be seen in every heap. -/
theorem proper_set_iff (h : Heap) :
    (Value.set items).Proper ↔ Increasing h.compare items ∧ ∀ v ∈ items, v.Proper := by
  rw [Value.proper_set_iff]
  refine and_congr_left fun hitems => List.Pairwise.iff_of_mem fun ha hb => ?_
  rw [compare_eq_of_proper (hitems _ ha) (hitems _ hb)]

theorem contains_of_proper (hset : (Value.set items).Proper) (hx : x.Proper) :
    h.contains (.set items) x = .ok (items.any (h.equal · x)) := by
  obtain ⟨hinc, hitems⟩ := (proper_set_iff h).1 hset
  have hplace : items.Pairwise fun a b => h.compare a x ≠ .lt → h.compare b x = .gt :=
    hinc.imp_of_mem fun ha hb hab hne =>
      h.ordered_proper.gt_of_lt_of_ne_lt (hitems _ ha) (hitems _ hb) hx hab hne
  exact congrArg Except.ok (Value.search_eq_any hplace)

theorem any_equal_iff : items.any (h.equal · x) = true ↔ Covers h.compare items x := by
  simp [Covers, equal]

theorem member_iff_of_proper (hset : (Value.set items).Proper) (hx : x.Proper) :
    h.Member x (.set items) ↔ Covers h.compare items x := by
  rw [Member, contains_of_proper hset hx, Except.ok.injEq, any_equal_iff]

/-! ### Building sets -/

theorem isSetOf_mkSet (hitems : ∀ v ∈ items, v.Proper) :
    h.IsSetOf (h.mkSet items) (Covers h.compare items) := by
  have hmembers : ∀ v ∈ Value.members h.compare items, v.Proper :=
    fun v hv => hitems v (mem_members hv)
  have hinc := Value.increasing_members h.ordered_proper hitems
  rw [mkSet_of_not_isCell fun v hv => (hitems v hv).isCell]
  refine ⟨⟨_, rfl, hinc, hmembers⟩, fun x hx => ?_⟩
  rw [member_iff_of_proper ((proper_set_iff h).2 ⟨hinc, hmembers⟩) hx,
    Value.covers_members_iff h.ordered_proper hitems hx]

theorem IsSetOf.congr {s : Value} {p q : Value → Prop} (hs : h.IsSetOf s p)
    (hpq : ∀ x, x.Proper → (p x ↔ q x)) : h.IsSetOf s q :=
  ⟨hs.proper, fun x hx => (hs.member x hx).trans (hpq x hx)⟩

theorem IsSetOf.proper_value {s : Value} {p : Value → Prop} (hs : h.IsSetOf s p) : s.Proper := by
  obtain ⟨items, rfl, hset⟩ := hs.proper
  exact (proper_set_iff h).2 hset

theorem isSetOf_integers (low : Int) (count : Nat) :
    h.IsSetOf (h.mkSet (integersFrom low count))
      fun x => ∃ i : Int, low ≤ i ∧ i < low + count ∧ x = .int i := by
  have hitems : ∀ v ∈ integersFrom low count, v.Proper := by
    intro v hv
    obtain ⟨i, -, rfl⟩ := List.mem_map.1 hv
    exact Value.proper_int _
  refine (isSetOf_mkSet hitems).congr fun x hx => ?_
  constructor
  · rintro ⟨v, hv, hvx⟩
    obtain ⟨i, hi, rfl⟩ := List.mem_map.1 hv
    rw [compare_eq_of_proper (hitems _ hv) hx, hx.compare_int] at hvx
    have hlt := List.mem_range.1 hi
    exact ⟨low + i, by omega, by omega, hvx⟩
  · rintro ⟨i, hlow, hhigh, rfl⟩
    refine ⟨.int i, List.mem_map.2 ⟨(i - low).toNat, List.mem_range.2 (by omega), ?_⟩, ?_⟩
    · rw [Int.toNat_of_nonneg (by omega)]
      congr 1
      omega
    · exact h.ordered_proper.self hx

/-! ### Operators -/

theorem filterM_eq_ok {ε : Type} {f : Value → Except ε Bool} {g : Value → Bool}
    (hf : ∀ v ∈ items, f v = .ok (g v)) : items.filterM f = .ok (items.filter g) := by
  -- Filtering collects in reverse what it has kept so far.
  have haux : ∀ found, items.filterAuxM f found = .ok ((items.filter g).reverse ++ found) := by
    induction items with
    | nil => exact fun found => rfl
    | cons a rest ih =>
      intro found
      obtain ⟨ha, hrest⟩ := List.forall_mem_cons.1 hf
      rw [List.filterAuxM, ha]
      refine (ih hrest _).trans ?_
      cases hg : g a <;> simp [hg]
  rw [List.filterM, haux]
  simp [bind, Except.bind, pure, Except.pure]

theorem partition_eq (has : (Value.set as).Proper) (hbs : (Value.set bs).Proper) (keep : Bool) :
    h.partition keep (.set as) (.set bs) =
      .ok (as.filter fun a => bs.any (h.equal · a) == keep) := by
  have hright : h.IsSetOf (h.mkSet bs) (Covers h.compare bs) := isSetOf_mkSet hbs.parts
  refine filterM_eq_ok fun a ha => ?_
  have haK := has.parts a ha
  obtain ⟨members, hset, hmembers⟩ := hright.proper
  have hproper := (proper_set_iff h).2 hmembers
  have hmember := hright.member a haK
  rw [hset, member_iff_of_proper hproper haK, ← any_equal_iff, ← any_equal_iff,
    ← Bool.eq_iff_iff] at hmember
  rw [hset, contains_of_proper hproper haK, hmember]
  rfl

theorem covers_congr (hitems : ∀ v ∈ items, v.Proper) (hv : v.Proper) (hx : x.Proper)
    (hvx : h.compare v x = .eq) : Covers h.compare items v ↔ Covers h.compare items x := by
  have ho := h.ordered_proper
  constructor
  · rintro ⟨w, hw, hwv⟩
    exact ⟨w, hw, ho.eq_trans (hitems w hw) hv hx hwv hvx⟩
  · rintro ⟨w, hw, hwx⟩
    exact ⟨w, hw, ho.eq_trans (hitems w hw) hx hv hwx (ho.eq_symm hv hx hvx)⟩

/-- What is left of a set (`Covers`) after a filter that treats equal values alike. -/
theorem covers_filter {p : Value → Prop} {keep : Value → Bool}
    (hkeep : ∀ v ∈ as, (keep v = true ↔ p v))
    (hp : ∀ v ∈ as, ∀ x, x.Proper → h.compare v x = .eq → (p v ↔ p x)) (hx : x.Proper) :
    Covers h.compare (as.filter keep) x ↔ Covers h.compare as x ∧ p x := by
  constructor
  · rintro ⟨v, hv, hvx⟩
    obtain ⟨hmem, hkept⟩ := List.mem_filter.1 hv
    exact ⟨⟨v, hmem, hvx⟩, (hp v hmem x hx hvx).1 ((hkeep v hmem).1 hkept)⟩
  · rintro ⟨⟨v, hv, hvx⟩, hpx⟩
    exact ⟨v, List.mem_filter.2 ⟨hv, (hkeep v hv).2 ((hp v hv x hx hvx).2 hpx)⟩, hvx⟩

section Binary

variable (has : (Value.set as).Proper) (hbs : (Value.set bs).Proper)

include has hbs

theorem exists_union : ∃ s, h.binary .union (.set as) (.set bs) = .ok s ∧
    h.IsSetOf s fun x => h.Member x (.set as) ∨ h.Member x (.set bs) := by
  have hitems : ∀ v ∈ as ++ bs, v.Proper := by
    intro v hv
    rcases List.mem_append.1 hv with hv | hv
    · exact has.parts v hv
    · exact hbs.parts v hv
  refine ⟨_, rfl, (isSetOf_mkSet hitems).congr fun x hx => ?_⟩
  rw [member_iff_of_proper has hx, member_iff_of_proper hbs hx]
  simp only [Covers, List.mem_append, or_and_right, exists_or]

theorem isSetOf_filter (b : Bool) :
    h.IsSetOf (h.mkSet (as.filter fun a => bs.any (h.equal · a) == b))
      fun x => h.Member x (.set as) ∧ (h.Member x (.set bs) ↔ b = true) := by
  refine (isSetOf_mkSet fun v hv => has.parts v (List.mem_filter.1 hv).1).congr fun x hx => ?_
  rw [member_iff_of_proper has hx, member_iff_of_proper hbs hx]
  refine covers_filter (fun v _ => ?_)
    (fun v hv x hx hvx => iff_congr (covers_congr hbs.parts (has.parts v hv) hx hvx) .rfl) hx
  rw [beq_iff_eq, Bool.eq_iff_iff, any_equal_iff]
  exact .rfl

theorem exists_inter : ∃ s, h.binary .inter (.set as) (.set bs) = .ok s ∧
    h.IsSetOf s fun x => h.Member x (.set as) ∧ h.Member x (.set bs) := by
  refine ⟨h.mkSet (as.filter fun a => bs.any (h.equal · a) == true), ?_,
    (isSetOf_filter has hbs true).congr fun x _ => by simp⟩
  rw [binary, partition_eq has hbs]
  rfl

theorem exists_difference : ∃ s, h.binary .difference (.set as) (.set bs) = .ok s ∧
    h.IsSetOf s fun x => h.Member x (.set as) ∧ ¬h.Member x (.set bs) := by
  refine ⟨h.mkSet (as.filter fun a => bs.any (h.equal · a) == false), ?_,
    (isSetOf_filter has hbs false).congr fun x _ => by simp⟩
  rw [binary, partition_eq has hbs]
  rfl

theorem exists_subset : ∃ b, h.binary .subset (.set as) (.set bs) = .ok (.bool b) ∧
    (b = true ↔ ∀ x, x.Proper → h.Member x (.set as) → h.Member x (.set bs)) := by
  have hrun : h.binary .subset (.set as) (.set bs) =
      .ok (.bool (as.filter fun a => bs.any (h.equal · a) == false).isEmpty) := by
    rw [binary, partition_eq has hbs]
    rfl
  refine ⟨_, hrun, ?_⟩
  rw [List.isEmpty_iff, List.filter_eq_nil_iff]
  simp only [beq_false, Bool.not_eq_true', Bool.not_eq_false, any_equal_iff]
  constructor
  · intro hall x hx hmem
    rw [member_iff_of_proper has hx] at hmem
    rw [member_iff_of_proper hbs hx]
    obtain ⟨v, hv, hvx⟩ := hmem
    exact (covers_congr hbs.parts (has.parts v hv) hx hvx).1 (hall v hv)
  · intro hall v hv
    have hvK := has.parts v hv
    rw [← member_iff_of_proper hbs hvK]
    refine hall v hvK ((member_iff_of_proper has hvK).2 ⟨v, hv, h.ordered_proper.self hvK⟩)

theorem equal_iff_members : h.equal (.set as) (.set bs) = true ↔
    ∀ x, x.Proper → (h.Member x (.set as) ↔ h.Member x (.set bs)) := by
  obtain ⟨hinc, hitems⟩ := Value.proper_set_iff.1 has
  obtain ⟨hinc', hitems'⟩ := Value.proper_set_iff.1 hbs
  rw [equal, beq_iff_eq, compare_eq_of_proper has hbs, Value.compare, Value.compareLists_eq,
    Value.compareLex_eq_iff Proper.ordered hitems hitems' hinc hinc']
  refine forall₂_congr fun x hx => ?_
  rw [member_iff_of_proper has hx, member_iff_of_proper hbs hx, covers_iff_of_proper hitems hx,
    covers_iff_of_proper hitems' hx]

end Binary

/-! ### Conversion -/

theorem proper_convert (ty : Ty) : ∀ v w, v.Proper → h.convert ty v = .ok w → w.Proper := by
  induction ty using Ty.induction_on_parts with
  | h ty ih =>
    intro v w hv hw
    have hitems : ∀ {vs ws : List Value}, (∀ u ∈ vs, u.Proper) →
        List.Forall₂ (fun v w => ∃ t ∈ ty.parts, h.convert t v = .ok w) vs ws →
        ∀ w ∈ ws, w.Proper := by
      intro vs ws hvs hws w hw
      obtain ⟨v, hv, t, ht, hconvert⟩ := exists_of_mem_right hws hw
      exact ih t ht v w (hvs v hv) hconvert
    have hconverted := converted_of_convert hw
    rw [deref_of_not_isCell hv.isCell] at hconverted
    cases hconverted with
    | same => exact hv
    | integer => exact Value.proper_int _
    | void => exact Value.proper_void
    | seq hws => exact Value.proper_seq_iff.2 (hitems hv.parts hws)
    | set hws => exact (isSetOf_mkSet (hitems hv.parts hws)).proper_value
    | tuple hws => exact Value.proper_tuple (hitems hv.parts hws)
    | part ht hw => exact ih _ ht v w hv hw

theorem isSetOf_convert {t : Ty} {w : Value} (has : (Value.set as).Proper)
    (hw : h.convert (.set t) (.set as) = .ok w) :
    h.IsSetOf w fun x => ∃ v ∈ as, ∃ u, h.convert t v = .ok u ∧ h.equal u x = true := by
  rw [convert] at hw
  obtain ⟨ws, hws, hw⟩ := bind_eq_ok hw
  cases hw
  have hproper : ∀ u ∈ ws, u.Proper := by
    intro u hu
    obtain ⟨v, hv, hconvert⟩ := mem_of_mapM_eq_ok hws hu
    exact proper_convert t v u (has.parts v hv) hconvert
  refine (isSetOf_mkSet hproper).congr fun x _ => ?_
  constructor
  · rintro ⟨u, hu, hux⟩
    obtain ⟨v, hv, hconvert⟩ := mem_of_mapM_eq_ok hws hu
    exact ⟨v, hv, u, hconvert, beq_iff_eq.2 hux⟩
  · rintro ⟨v, hv, u, hconvert, hux⟩
    obtain ⟨u', hu', hconvert'⟩ := exists_of_mem_left (mapM_eq_ok_iff.1 hws) hv
    cases hconvert.symm.trans hconvert'
    exact ⟨u, hu', beq_iff_eq.1 hux⟩

/-! ### Counting -/

theorem card_eq_length {different : List Value} (has : (Value.set as).Proper)
    (hdifferent : ∀ v ∈ different, v.Proper)
    (hunequal : different.Pairwise fun a b => h.equal a b = false)
    (hsame : ∀ x, x.Proper → (h.Member x (.set as) ↔ Covers h.compare different x)) :
    h.unary .card (.set as) = .ok (.int different.length) := by
  have ho := h.ordered_proper
  obtain ⟨hinc, hitems⟩ := (proper_set_iff h).1 has
  have hle : different.length ≤ as.length := by
    refine Value.length_le_of_covers ho hdifferent hitems ?_ fun a ha => ?_
    · exact hunequal.imp fun hab heq => by simp [equal, heq] at hab
    · have haK := hdifferent a ha
      exact (member_iff_of_proper has haK).1 ((hsame a haK).2 ⟨a, ha, ho.self haK⟩)
  have hge : as.length ≤ different.length := by
    refine Value.length_le_of_covers ho hitems hdifferent ?_ fun a ha => ?_
    · exact hinc.imp fun hab heq => by simp [heq] at hab
    · have haK := hitems a ha
      exact (hsame a haK).1 ((member_iff_of_proper has haK).2 ⟨a, ha, ho.self haK⟩)
  rw [Nat.le_antisymm hle hge]
  rfl

theorem equal_mkSet_iff {others : List Value} (hitems : ∀ v ∈ items, v.Proper)
    (hothers : ∀ v ∈ others, v.Proper) :
    h.equal (h.mkSet items) (h.mkSet others) = true ↔
      ∀ x, x.Proper → (Covers h.compare items x ↔ Covers h.compare others x) := by
  have hset : h.IsSetOf (h.mkSet items) (Covers h.compare items) := isSetOf_mkSet hitems
  have hset' : h.IsSetOf (h.mkSet others) (Covers h.compare others) := isSetOf_mkSet hothers
  obtain ⟨as, has, -⟩ := hset.proper
  obtain ⟨bs, hbs, -⟩ := hset'.proper
  have hproper := hset.proper_value
  have hproper' := hset'.proper_value
  rw [has] at hset hproper
  rw [hbs] at hset' hproper'
  rw [has, hbs, equal_iff_members hproper hproper']
  refine forall₂_congr fun x hx => ?_
  rw [hset.member x hx, hset'.member x hx]

end Heap

/-! ### Evaluations -/

namespace Engine

variable {E : Engine} {c : Context} {m m₁ m₂ : Machine} {location : Location}

theorem range_of_int {low high : Expr} {lo hi : Int} (hlow : E.int low c m = (.ok lo, m₁))
    (hhigh : E.int high c m₁ = (.ok hi, m₂)) (hsize : hi - lo + 1 ≤ rangeLimit) :
    E.range low high location c m =
      (.ok (m₂.heap.mkSet (integersFrom lo (hi - lo + 1).toNat)), m₂) := by
  unfold range
  rw [bind_of_ok hlow, bind_of_ok hhigh, if_neg (Int.not_lt.2 hsize)]
  rfl

/-- The restriction by a set (`restrict`) looks at all members, and the search gives the same
answer. -/
theorem restrict_of_contains {e : Expr} {p : Pattern} {x : Value} {items : List Value} {b : Bool}
    {code : Code} (hrun : E.set e (c.hold x) m = (.ok items, m₁)) (hset : (Value.set items).Proper)
    (hx : x.Proper) (hb : m₁.heap.contains (.set items) x = .ok b) :
    E.restrict (.set p e) x code location c m =
      if b then (.ok x, m₁)
      else E.fail code (m₁.heap.text x ++ " is not in set " ++ m₁.heap.text (.set items)) location
        (c.hold x) m₁ := by
  rw [Heap.contains_of_proper hset hx, Except.ok.injEq] at hb
  have hamong : E.restrict (.set p e) x code location c m =
      E.among x items "set" (.set items) code location (c.hold x) m₁ := bind_of_ok hrun
  rw [hamong]
  unfold among
  refine (reads_bind _ _ _).trans ?_
  have htext : m₁.heap.text x ++ " is not in " ++ "set" ++ " " =
      m₁.heap.text x ++ " is not in set " := by
    rw [String.append_assoc, String.append_assoc]
    rfl
  rw [hb, htext]
  cases b <;> rfl

end Engine

/-- Sets are finite sets. What builds a set gives a `Proper` one with the right members, whatever
the order and the number of occurrences of the values that it is built from; the search agrees with
looking at all members; sets are `equal` exactly if they have the same members, and the cardinality
is the number of members that differ from each other. -/
theorem sets_are_finite_sets (h : Heap) :
    (∀ items : List Value, (∀ v ∈ items, v.Proper) →
      h.IsSetOf (h.mkSet items) (Covers h.compare items) ∧
      (∃ s, h.unary .elems (.seq items) = .ok s ∧ h.IsSetOf s (Covers h.compare items)) ∧
      (∃ s, h.unary .inds (.seq items) = .ok s ∧
        h.IsSetOf s fun x => ∃ i : Int, 1 ≤ i ∧ i ≤ items.length ∧ x = .int i) ∧
      ∀ others : List Value, (∀ v ∈ others, v.Proper) →
        (h.equal (h.mkSet items) (h.mkSet others) = true ↔
          ∀ x, x.Proper → (Covers h.compare items x ↔ Covers h.compare others x))) ∧
    (∀ as bs : List Value, (Value.set as).Proper → (Value.set bs).Proper →
      (∃ s, h.binary .union (.set as) (.set bs) = .ok s ∧
        h.IsSetOf s fun x => h.Member x (.set as) ∨ h.Member x (.set bs)) ∧
      (∃ s, h.binary .inter (.set as) (.set bs) = .ok s ∧
        h.IsSetOf s fun x => h.Member x (.set as) ∧ h.Member x (.set bs)) ∧
      (∃ s, h.binary .difference (.set as) (.set bs) = .ok s ∧
        h.IsSetOf s fun x => h.Member x (.set as) ∧ ¬h.Member x (.set bs)) ∧
      (∃ b, h.binary .subset (.set as) (.set bs) = .ok (.bool b) ∧
        (b = true ↔ ∀ x, x.Proper → h.Member x (.set as) → h.Member x (.set bs))) ∧
      (h.equal (.set as) (.set bs) = true ↔
        ∀ x, x.Proper → (h.Member x (.set as) ↔ h.Member x (.set bs)))) ∧
    (∀ as : List Value, (Value.set as).Proper →
      (∀ x, x.Proper → h.contains (.set as) x = .ok (as.any (h.equal · x))) ∧
      (∀ different : List Value, (∀ v ∈ different, v.Proper) →
        different.Pairwise (fun a b => h.equal a b = false) →
        (∀ x, x.Proper → (h.Member x (.set as) ↔ Covers h.compare different x)) →
        h.unary .card (.set as) = .ok (.int different.length)) ∧
      ∀ t w, h.convert (.set t) (.set as) = .ok w →
        h.IsSetOf w fun x => ∃ v ∈ as, ∃ u, h.convert t v = .ok u ∧ h.equal u x = true) ∧
    ∀ (E : Engine) (c : Context) (m m₁ : Machine) (location : Location),
      (∀ low high lo hi m₂, E.int low c m = (.ok lo, m₁) → E.int high c m₁ = (.ok hi, m₂) →
        hi - lo + 1 ≤ rangeLimit → ∃ s, E.range low high location c m = (.ok s, m₂) ∧
          m₂.heap.IsSetOf s fun x => ∃ i : Int, lo ≤ i ∧ i ≤ hi ∧ x = .int i) ∧
      ∀ (e : Expr) (p : Pattern) (x : Value) (items : List Value) (code : Code) (b : Bool),
        E.set e (c.hold x) m = (.ok items, m₁) → (Value.set items).Proper → x.Proper →
        m₁.heap.contains (.set items) x = .ok b →
        E.restrict (.set p e) x code location c m =
          if b then (.ok x, m₁)
          else E.fail code (m₁.heap.text x ++ " is not in set " ++ m₁.heap.text (.set items))
            location (c.hold x) m₁ := by
  refine ⟨fun items hitems => ⟨Heap.isSetOf_mkSet hitems, ⟨_, rfl, Heap.isSetOf_mkSet hitems⟩, ?_,
      fun others hothers => Heap.equal_mkSet_iff hitems hothers⟩,
    fun as bs has hbs => ⟨Heap.exists_union has hbs, Heap.exists_inter has hbs,
      Heap.exists_difference has hbs, Heap.exists_subset has hbs, Heap.equal_iff_members has hbs⟩,
    fun as has => ⟨fun x hx => Heap.contains_of_proper has hx,
      fun different hdifferent hunequal hsame =>
        Heap.card_eq_length has hdifferent hunequal hsame,
      fun t w hw => Heap.isSetOf_convert has hw⟩,
    fun E c m m₁ location => ⟨fun low high lo hi m₂ hlow hhigh hsize => ?_,
      fun e p x items code b hrun hset hx hb => Engine.restrict_of_contains hrun hset hx hb⟩⟩
  -- The indices are the integers from one to the length.
  · have hindices : (List.range items.length).map (fun i : Nat => Value.int (i + 1)) =
        integersFrom 1 items.length :=
      List.map_congr_left fun i _ => by rw [Int.add_comm]
    refine ⟨h.mkSet (integersFrom 1 items.length), hindices ▸ rfl, ?_⟩
    refine (Heap.isSetOf_integers 1 items.length).congr fun x _ => exists_congr fun i => ?_
    rw [show i < 1 + (items.length : Int) ↔ i ≤ items.length by omega]
  · refine ⟨_, Engine.range_of_int hlow hhigh hsize, ?_⟩
    refine (Heap.isSetOf_integers lo _).congr fun x _ => exists_congr fun i => ?_
    constructor
    · rintro ⟨hle, hlt, rfl⟩
      exact ⟨hle, by omega, rfl⟩
    · rintro ⟨hle, hle', rfl⟩
      exact ⟨hle, by omega, rfl⟩

/-- A set of sets and an integer. Its members are in order, the inner set among them. -/
def nestedSet : Value :=
  .set [.int 1, .set [.int 2, .int 3]]

/-- The set that is built from a set, an integer and an equal set is the same set with two members,
and the search finds the `inner` set in it. -/
theorem sets_are_finite_sets_nested :
    let h : Heap := {}
    let inner : Value := .set [.int 2, .int 3]
    nestedSet.Proper ∧ h.mkSet [inner, .int 1, inner] = nestedSet ∧
      h.IsSetOf (h.mkSet [inner, .int 1, inner]) (Covers h.compare [inner, .int 1, inner]) ∧
      h.Member inner nestedSet ∧ h.unary .card nestedSet = .ok (.int 2) ∧
      ∃ s, h.binary .inter nestedSet (.set [inner]) = .ok s ∧
        h.IsSetOf s fun x => h.Member x nestedSet ∧ h.Member x (.set [inner]) := by
  intro h inner
  have hset : nestedSet.Proper := Value.proper_of_isPlain (by decide)
  have hinner : inner.Proper := Value.proper_of_isPlain (by decide)
  have hsingle : (Value.set [inner]).Proper := Value.proper_of_isPlain (by decide)
  have hitems : ∀ v ∈ [inner, .int 1, inner], v.Proper := by
    simp [hinner, Value.proper_int]
  obtain ⟨hbuild, hoperators, hsearch, -⟩ := sets_are_finite_sets h
  have hbuilt := (hbuild _ hitems).1
  have hdifferent : [inner, .int 1].Pairwise fun a b => h.equal a b = false :=
    List.pairwise_pair.2 (by decide)
  refine ⟨hset, rfl, hbuilt, (hsearch _ hset).1 inner hinner, ?_, (hoperators _ _ hset hsingle).2.1⟩
  refine (hsearch _ hset).2.1 [inner, .int 1] (fun v hv => hitems v ?_) hdifferent fun x hx => ?_
  · exact List.mem_append_left [inner] hv
  · refine (hbuilt.member x hx).trans ?_
    simp only [Covers, List.mem_cons, List.not_mem_nil, or_false, exists_eq_or_imp, exists_eq_left]
    tauto

end Animator
