import Animator.Proofs.Order.Comparison
import Animator.Proofs.Origin.Heap

/-!
# Sorted lists

Where comparing works as in a linear preorder (`Value.Ordered`), sorting gives a sorted list, and
dropping what is repeated leaves each value in it once. Such an increasing list stands for a set:
-/

namespace Animator

theorem compareLex_eq_iff_forall₂ {α : Type} {cmp : α → α → Ordering} {as bs : List α} :
    List.compareLex cmp as bs = .eq ↔ List.Forall₂ (fun a b => cmp a b = .eq) as bs := by
  induction as generalizing bs with
  | nil => cases bs <;> simp [List.compareLex_nil_nil, List.compareLex_nil_cons]
  | cons a as ih =>
    cases bs with
    | nil => simp [List.compareLex_cons_nil]
    | cons b bs => rw [List.compareLex_cons_cons, Ordering.then_eq_eq, List.forall₂_cons, ih]

namespace Value

/-- Comparing works as in a linear preorder on the values of some kind. -/
structure Ordered (cmp : Value → Value → Ordering) (K : Value → Prop) : Prop where
  /-- Comparing the other way round gives the opposite result. -/
  swap : ∀ {a b}, K a → K b → (cmp a b).swap = cmp b a
  /-- The results of comparing three values fit together. -/
  chained : ∀ {a b c}, K a → K b → K c → Chained (cmp a b) (cmp b c) (cmp a c)

/-- Each value comes after all those before it. -/
def Increasing (cmp : Value → Value → Ordering) (items : List Value) : Prop :=
  items.Pairwise fun a b => cmp a b = .lt

/-- One of the values equals the given one. -/
def Covers (cmp : Value → Value → Ordering) (items : List Value) (x : Value) : Prop :=
  ∃ v ∈ items, cmp v x = .eq

variable {cmp : Value → Value → Ordering} {K : Value → Prop} {items as bs : List Value}

namespace Ordered

variable (ho : Ordered cmp K) {a b c : Value}

include ho

theorem self (ha : K a) : cmp a a = .eq :=
  eq_of_swap_eq (ho.swap ha ha)

theorem eq_symm (ha : K a) (hb : K b) (hab : cmp a b = .eq) : cmp b a = .eq := by
  rw [← ho.swap ha hb, hab]
  rfl

theorem gt_iff_lt (ha : K a) (hb : K b) : cmp a b = .gt ↔ cmp b a = .lt := by
  rw [← ho.swap ha hb]
  cases cmp a b <;> simp

theorem congr_left (ha : K a) (hb : K b) (hc : K c) (hab : cmp a b = .eq) : cmp a c = cmp b c :=
  (ho.chained ha hb hc).1 hab

theorem congr_right (ha : K a) (hb : K b) (hc : K c) (hbc : cmp b c = .eq) : cmp a c = cmp a b :=
  (ho.chained ha hb hc).2.1 hbc

theorem eq_trans (ha : K a) (hb : K b) (hc : K c) (hab : cmp a b = .eq) (hbc : cmp b c = .eq) :
    cmp a c = .eq :=
  (ho.congr_left ha hb hc hab).trans hbc

theorem lt_trans (ha : K a) (hb : K b) (hc : K c) (hab : cmp a b = .lt) (hbc : cmp b c = .lt) :
    cmp a c = .lt :=
  ((ho.chained ha hb hc).2.2 (hab.trans hbc.symm)).trans hab

theorem ne_lt_trans (ha : K a) (hb : K b) (hc : K c) (hab : cmp a b ≠ .lt) (hbc : cmp b c ≠ .lt) :
    cmp a c ≠ .lt :=
  (chained_iff.1 (ho.chained ha hb hc)).2.1 hab hbc

theorem pairwise_gt {items : List Value} (hitems : ∀ v ∈ items, K v) (hinc : Increasing cmp items) :
    items.Pairwise fun a b => cmp b a = .gt :=
  hinc.imp_of_mem fun ha hb hab => (ho.gt_iff_lt (hitems _ hb) (hitems _ ha)).2 hab

theorem gt_of_lt_of_ne_lt (ha : K a) (hb : K b) (hc : K c) (hab : cmp a b = .lt)
    (hac : cmp a c ≠ .lt) : cmp b c = .gt := by
  have hba : cmp b a = .gt := (ho.gt_iff_lt hb ha).2 hab
  exact (chained_iff.1 (ho.chained hb ha hc)).2.2.2.2.1 hba hac

end Ordered

/-! ### Sorting -/

theorem pairwise_insertDown (ho : Ordered cmp K) {x : Value} (hx : K x) (hK : ∀ v ∈ items, K v)
    (h : items.Pairwise fun a b => cmp a b ≠ .lt) :
    (insertDown cmp x items).Pairwise fun a b => cmp a b ≠ .lt := by
  induction items with
  | nil => exact List.pairwise_singleton _ x
  | cons y ys ih =>
    obtain ⟨hy, hys⟩ := List.forall_mem_cons.1 hK
    obtain ⟨hhead, htail⟩ := List.pairwise_cons.1 h
    unfold insertDown
    split
    · next hlt =>
      refine List.pairwise_cons.2 ⟨fun z hz => ?_, ih hys htail⟩
      rcases List.mem_cons.1 ((insertDown_perm x ys).mem_iff.1 hz) with rfl | hz
      · rw [(ho.gt_iff_lt hy hx).2 hlt]
        decide
      · exact hhead z hz
    · next hge =>
      refine List.pairwise_cons.2 ⟨fun z hz => ?_, h⟩
      rcases List.mem_cons.1 hz with rfl | hz
      · exact hge
      · exact ho.ne_lt_trans hx hy (hys z hz) hge (hhead z hz)

theorem pairwise_sort (ho : Ordered cmp K) (hK : ∀ v ∈ items, K v) :
    (sort cmp items).Pairwise fun a b => cmp b a ≠ .lt := by
  -- The list is built in decreasing order and turned round at the end.
  have hfold : ∀ (rest sorted : List Value), (∀ v ∈ rest, K v) → (∀ v ∈ sorted, K v) →
      sorted.Pairwise (fun a b => cmp a b ≠ .lt) →
      (rest.foldl (fun sorted x => insertDown cmp x sorted) sorted).Pairwise
        fun a b => cmp a b ≠ .lt := by
    intro rest
    induction rest with
    | nil => exact fun _ _ _ h => h
    | cons x xs ih =>
      intro sorted hrest hsorted h
      obtain ⟨hx, hxs⟩ := List.forall_mem_cons.1 hrest
      refine ih _ hxs (fun v hv => ?_) (pairwise_insertDown ho hx hsorted h)
      exact List.forall_mem_cons.2 ⟨hx, hsorted⟩ v ((insertDown_perm x sorted).mem_iff.1 hv)
  exact List.pairwise_reverse.2 (hfold items [] hK nofun .nil)

/-! ### Members -/

/-- What `dropRepeated` leaves is in increasing order. -/
theorem increasing_dropRepeated (ho : Ordered cmp K) {last : Value} (hK : ∀ v ∈ last :: items, K v)
    (h : (last :: items).Pairwise fun a b => cmp b a ≠ .lt) :
    Increasing cmp (last :: dropRepeated cmp last items) := by
  induction items generalizing last with
  | nil => exact List.pairwise_singleton _ last
  | cons x xs ih =>
    obtain ⟨hlast, hrest⟩ := List.forall_mem_cons.1 hK
    obtain ⟨hhead, htail⟩ := List.pairwise_cons.1 h
    unfold dropRepeated
    split
    · exact ih (List.forall_mem_cons.2 ⟨hlast, (List.forall_mem_cons.1 hrest).2⟩)
        (h.sublist (.cons_cons last (.cons x (.refl xs))))
    · next hne =>
      have hx : K x := hrest x List.mem_cons_self
      have hlt : cmp last x = .lt := by
        have hge := hhead x List.mem_cons_self
        refine (ho.gt_iff_lt hx hlast).1 ?_
        cases hcmp : cmp x last with
        | gt => rfl
        | lt => exact absurd hcmp hge
        | eq => exact absurd hcmp hne
      have hincreasing := ih hrest htail
      refine List.pairwise_cons.2 ⟨fun z hz => ?_, hincreasing⟩
      rcases List.mem_cons.1 hz with rfl | hz'
      · exact hlt
      · have hzK : K z := hrest z (List.mem_cons_of_mem _ ((dropRepeated_sublist x xs).subset hz'))
        exact ho.lt_trans hlast hx hzK hlt ((List.pairwise_cons.1 hincreasing).1 z hz')

theorem covers_dropRepeated (ho : Ordered cmp K) {last : Value}
    (hK : ∀ v ∈ last :: items, K v) {x : Value} (hx : x ∈ last :: items) :
    Covers cmp (last :: dropRepeated cmp last items) x := by
  induction items generalizing last with
  | nil =>
    obtain rfl := List.mem_singleton.1 hx
    exact ⟨x, List.mem_cons_self, ho.self (hK x hx)⟩
  | cons y ys ih =>
    obtain ⟨hlast, hrest⟩ := List.forall_mem_cons.1 hK
    unfold dropRepeated
    split
    · next heq =>
      rcases List.mem_cons.1 hx with rfl | hx'
      · exact ⟨x, List.mem_cons_self, ho.self hlast⟩
      · rcases List.mem_cons.1 hx' with rfl | hx'
        · exact ⟨last, List.mem_cons_self, ho.eq_symm (hrest x List.mem_cons_self) hlast heq⟩
        · exact ih (List.forall_mem_cons.2 ⟨hlast, (List.forall_mem_cons.1 hrest).2⟩)
            (List.mem_cons_of_mem _ hx')
    · rcases List.mem_cons.1 hx with rfl | hx'
      · exact ⟨x, List.mem_cons_self, ho.self hlast⟩
      · obtain ⟨v, hv, hvx⟩ := ih hrest hx'
        exact ⟨v, List.mem_cons_of_mem _ hv, hvx⟩

theorem increasing_members (ho : Ordered cmp K) (hK : ∀ v ∈ items, K v) :
    Increasing cmp (members cmp items) := by
  have hsorted := pairwise_sort ho hK
  have hmem : ∀ v ∈ sort cmp items, K v := fun v hv => hK v ((sort_perm items).mem_iff.1 hv)
  unfold members
  split
  · exact .nil
  · next x xs hsort =>
    rw [hsort] at hsorted hmem
    exact increasing_dropRepeated ho hmem hsorted

theorem covers_members (ho : Ordered cmp K) (hK : ∀ v ∈ items, K v) {x : Value} (hx : x ∈ items) :
    Covers cmp (members cmp items) x := by
  have hmem : ∀ v ∈ sort cmp items, K v := fun v hv => hK v ((sort_perm items).mem_iff.1 hv)
  have hsorted : x ∈ sort cmp items := (sort_perm items).mem_iff.2 hx
  unfold members
  split
  · next hsort =>
    rw [hsort] at hsorted
    cases hsorted
  · next y ys hsort =>
    rw [hsort] at hsorted hmem
    exact covers_dropRepeated ho hmem hsorted

theorem covers_members_iff (ho : Ordered cmp K) (hK : ∀ v ∈ items, K v) {x : Value} (hx : K x) :
    Covers cmp (members cmp items) x ↔ Covers cmp items x := by
  refine ⟨fun ⟨v, hv, hvx⟩ => ⟨v, Heap.mem_members hv, hvx⟩, fun ⟨v, hv, hvx⟩ => ?_⟩
  obtain ⟨w, hw, hwv⟩ := covers_members ho hK hv
  exact ⟨w, hw, ho.eq_trans (hK w (Heap.mem_members hw)) (hK v hv) hx hwv hvx⟩

section Sorted

variable {last : Value}

/-- Sorting by `insertDown` leaves values alone that are in order already, with those before them in
reverse. -/
theorem foldl_insertDown_of_isChain {before : List Value}
    (h : (last :: items).IsChain fun a b => cmp b a = .gt) :
    items.foldl (fun sorted x => insertDown cmp x sorted) (last :: before) =
      items.reverse ++ last :: before := by
  induction items generalizing last before with
  | nil => rfl
  | cons x xs ih =>
    obtain ⟨hx, hxs⟩ := List.isChain_cons_cons.1 h
    have hinsert : insertDown cmp x (last :: before) = x :: last :: before := by
      rw [insertDown, if_neg (by simp [hx])]
    rw [List.foldl_cons, hinsert, ih hxs, List.reverse_cons, List.append_assoc]
    rfl

theorem dropRepeated_of_isChain (h : (last :: items).IsChain fun a b => cmp b a = .gt) :
    dropRepeated cmp last items = items := by
  induction items generalizing last with
  | nil => rfl
  | cons x xs ih =>
    obtain ⟨hx, hxs⟩ := List.isChain_cons_cons.1 h
    rw [dropRepeated, if_neg (by simp [hx]), ih hxs]

theorem members_of_isChain (h : items.IsChain fun a b => cmp b a = .gt) :
    members cmp items = items := by
  cases items with
  | nil => rfl
  | cons x xs =>
    have hsort : sort cmp (x :: xs) = x :: xs := by
      rw [sort, List.foldl_cons, insertDown, foldl_insertDown_of_isChain h, List.reverse_append,
        List.reverse_reverse]
      rfl
    rw [members, hsort]
    exact congrArg (List.cons x) (dropRepeated_of_isChain h)

end Sorted

/-! ### Searching -/

/-- The search of `searchFrom` looks at the only place where the sought value can be. -/
theorem searchFrom_eq_any {place : Value → Ordering} {fuel base size : Nat}
    (hplace : items.Pairwise fun a b => place a ≠ .lt → place b = .gt) (hfuel : size < fuel)
    (hsize : base + size ≤ items.length)
    (hrange : ∀ i x, items[i]? = some x → place x = .eq → base ≤ i ∧ i < base + size) :
    searchFrom place items.toArray fuel base size = items.any (place · == .eq) := by
  induction fuel generalizing base size with
  | zero => exact absurd hfuel (Nat.not_lt_zero size)
  | succ fuel ih =>
    unfold searchFrom
    split
    · next hle =>
      -- One candidate is left at most, so a value in the sought place can only be there.
      rw [Bool.eq_iff_iff, List.any_eq_true, List.getElem?_toArray]
      constructor
      · intro hfound
        split at hfound
        · next x hx => exact ⟨x, List.mem_of_getElem? hx, hfound⟩
        · cases hfound
      · rintro ⟨x, hx, hfound⟩
        obtain ⟨i, hi⟩ := List.mem_iff_getElem?.1 hx
        obtain ⟨hlow, hhigh⟩ := hrange i x hi (beq_iff_eq.1 hfound)
        obtain rfl : i = base := by omega
        rw [hi]
        exact hfound
    · next hgt =>
      have hmid : base + size / 2 < items.length := by omega
      have hsome : items[base + size / 2]? = some items[base + size / 2] :=
        List.getElem?_eq_getElem hmid
      have hpair := List.pairwise_iff_getElem.1 hplace
      simp only [List.getElem?_toArray, hsome]
      -- The half in which the sought value cannot be is left out.
      split
      · next habove =>
        have hgt' : place items[base + size / 2] = .gt := beq_iff_eq.1 habove
        refine ih (by omega) (by omega) fun i x hi heq => ?_
        obtain ⟨hlow, hhigh⟩ := hrange i x hi heq
        obtain ⟨hlength, rfl⟩ := List.getElem?_eq_some_iff.1 hi
        refine ⟨hlow, Nat.lt_of_not_le fun hle => ?_⟩
        rcases Nat.lt_or_eq_of_le (show base + size / 2 ≤ i by omega) with hlt | rfl
        · rw [hpair _ _ hmid hlength hlt (by simp [hgt'])] at heq
          cases heq
        · rw [hgt'] at heq
          cases heq
      · next hbelow =>
        have hnot : place items[base + size / 2] ≠ .gt := fun h => hbelow (beq_iff_eq.2 h)
        refine ih (by omega) (by omega) fun i x hi heq => ?_
        obtain ⟨hlow, hhigh⟩ := hrange i x hi heq
        obtain ⟨hlength, rfl⟩ := List.getElem?_eq_some_iff.1 hi
        refine ⟨Nat.le_of_not_lt fun hlt => hnot ?_, by omega⟩
        exact hpair _ _ hlength hmid hlt (by simp [heq])

theorem search_eq_any {place : Value → Ordering}
    (hplace : items.Pairwise fun a b => place a ≠ .lt → place b = .gt) :
    search place items = items.any (place · == .eq) := by
  refine searchFrom_eq_any hplace (by simp) (by simp) fun i x hi _ => ⟨Nat.zero_le i, ?_⟩
  have hlt := (List.getElem?_eq_some_iff.1 hi).1
  simpa using hlt

/-! ### Comparing -/

theorem covers_of_compareLex (ho : Ordered cmp K) (has : ∀ v ∈ as, K v) (hbs : ∀ v ∈ bs, K v)
    (h : List.compareLex cmp as bs = .eq) {x : Value} (hx : K x) (hcovers : Covers cmp as x) :
    Covers cmp bs x := by
  obtain ⟨v, hv, hvx⟩ := hcovers
  obtain ⟨w, hw, hvw⟩ := exists_of_mem_left (compareLex_eq_iff_forall₂.1 h) hv
  exact ⟨w, hw, ho.eq_trans (hbs w hw) (has v hv) hx (ho.eq_symm (has v hv) (hbs w hw) hvw) hvx⟩

theorem covers_tail (ho : Ordered cmp K) {a b : Value} (has : ∀ v ∈ a :: as, K v)
    (hbs : ∀ v ∈ b :: bs, K v) (hinc : Increasing cmp (a :: as)) (hab : cmp a b = .eq)
    (hcovers : ∀ x ∈ a :: as, Covers cmp (b :: bs) x) : ∀ x ∈ as, Covers cmp bs x := by
  intro x hx
  obtain ⟨ha, has⟩ := List.forall_mem_cons.1 has
  obtain ⟨hb, hbs⟩ := List.forall_mem_cons.1 hbs
  obtain ⟨v, hv, hvx⟩ := hcovers x (List.mem_cons_of_mem _ hx)
  rcases List.mem_cons.1 hv with rfl | hv
  · have hlt := (List.pairwise_cons.1 hinc).1 x hx
    rw [ho.eq_trans ha hb (has x hx) hab hvx] at hlt
    cases hlt
  · exact ⟨v, hv, hvx⟩

theorem heads_eq (ho : Ordered cmp K) {a b : Value} (has : ∀ v ∈ a :: as, K v)
    (hbs : ∀ v ∈ b :: bs, K v) (hinc : Increasing cmp (a :: as)) (hinc' : Increasing cmp (b :: bs))
    (ha : Covers cmp (b :: bs) a) (hb : Covers cmp (a :: as) b) : cmp a b = .eq := by
  have haK : K a := has a List.mem_cons_self
  have hbK : K b := hbs b List.mem_cons_self
  obtain ⟨v, hv, hva⟩ := ha
  obtain ⟨w, hw, hwb⟩ := hb
  rcases List.mem_cons.1 hv with rfl | hv'
  · exact ho.eq_symm hbK haK hva
  · rcases List.mem_cons.1 hw with rfl | hw'
    · exact hwb
    -- Each would come before the other.
    · have hba : cmp b a = .lt := by
        rw [← ho.congr_right hbK haK (hbs v hv) (ho.eq_symm (hbs v hv) haK hva)]
        exact (List.pairwise_cons.1 hinc').1 v hv'
      have hab : cmp a b = .lt := by
        rw [← ho.congr_right haK hbK (has w hw) (ho.eq_symm (has w hw) hbK hwb)]
        exact (List.pairwise_cons.1 hinc).1 w hw'
      rw [(ho.gt_iff_lt haK hbK).2 hba] at hab
      cases hab

theorem compareLex_eq_of_covers (ho : Ordered cmp K) (has : ∀ v ∈ as, K v) (hbs : ∀ v ∈ bs, K v)
    (hinc : Increasing cmp as) (hinc' : Increasing cmp bs) (hab : ∀ a ∈ as, Covers cmp bs a)
    (hba : ∀ b ∈ bs, Covers cmp as b) : List.compareLex cmp as bs = .eq := by
  induction as generalizing bs with
  | nil =>
    cases bs with
    | nil => rfl
    | cons b bs =>
      obtain ⟨v, hv, -⟩ := hba b List.mem_cons_self
      cases hv
  | cons a as ih =>
    cases bs with
    | nil =>
      obtain ⟨v, hv, -⟩ := hab a List.mem_cons_self
      cases hv
    | cons b bs =>
      have heads := heads_eq ho has hbs hinc hinc' (hab a List.mem_cons_self)
        (hba b List.mem_cons_self)
      have hsymm := ho.eq_symm (has a List.mem_cons_self) (hbs b List.mem_cons_self) heads
      rw [List.compareLex_cons_cons, heads, Ordering.eq_then]
      exact ih (List.forall_mem_cons.1 has).2 (List.forall_mem_cons.1 hbs).2
        (List.pairwise_cons.1 hinc).2 (List.pairwise_cons.1 hinc').2
        (covers_tail ho has hbs hinc heads hab) (covers_tail ho hbs has hinc' hsymm hba)

theorem compareLex_eq_iff (ho : Ordered cmp K) (has : ∀ v ∈ as, K v) (hbs : ∀ v ∈ bs, K v)
    (hinc : Increasing cmp as) (hinc' : Increasing cmp bs) :
    List.compareLex cmp as bs = .eq ↔ ∀ x, K x → (Covers cmp as x ↔ Covers cmp bs x) := by
  constructor
  · intro h x hx
    have hswap : List.compareLex cmp bs as = .eq := by
      rw [← swap_compareLex fun a ha b hb => ho.swap (has a ha) (hbs b hb), h]
      rfl
    exact ⟨covers_of_compareLex ho has hbs h hx, covers_of_compareLex ho hbs has hswap hx⟩
  · intro h
    refine compareLex_eq_of_covers ho has hbs hinc hinc' (fun a ha => ?_) fun b hb => ?_
    · exact (h a (has a ha)).1 ⟨a, ha, ho.self (has a ha)⟩
    · exact (h b (hbs b hb)).2 ⟨b, hb, ho.self (hbs b hb)⟩

/-! ### Counting -/

/-- Values that differ from each other are not represented by fewer values. -/
theorem length_le_of_covers (ho : Ordered cmp K) (has : ∀ v ∈ as, K v) (hbs : ∀ v ∈ bs, K v)
    (hne : as.Pairwise fun a b => cmp a b ≠ .eq) (hcovers : ∀ a ∈ as, Covers cmp bs a) :
    as.length ≤ bs.length := by
  induction as generalizing bs with
  | nil => exact Nat.zero_le _
  | cons a as ih =>
    obtain ⟨ha, has⟩ := List.forall_mem_cons.1 has
    obtain ⟨hhead, htail⟩ := List.pairwise_cons.1 hne
    obtain ⟨b, hb, hba⟩ := hcovers a List.mem_cons_self
    -- The value that represents the first one represents none of the others.
    obtain ⟨before, after, rfl⟩ := List.append_of_mem hb
    have hrest : ∀ x ∈ as, Covers cmp (before ++ after) x := by
      intro x hx
      obtain ⟨v, hv, hvx⟩ := hcovers x (List.mem_cons_of_mem _ hx)
      have hv' : v = b ∨ v ∈ before ++ after := by
        rcases List.mem_append.1 hv with hv | hv
        · exact .inr (List.mem_append_left _ hv)
        · exact (List.mem_cons.1 hv).imp_right (List.mem_append_right before)
      rcases hv' with rfl | hv'
      · have hab := ho.eq_symm (hbs v hb) ha hba
        exact absurd (ho.eq_trans ha (hbs v hb) (has x hx) hab hvx) (hhead x hx)
      · exact ⟨v, hv', hvx⟩
    have hsub : ∀ v ∈ before ++ after, K v := by
      intro v hv
      refine hbs v ?_
      rcases List.mem_append.1 hv with hv | hv
      · exact List.mem_append_left _ hv
      · exact List.mem_append_right _ (List.mem_cons_of_mem _ hv)
    have hlength := ih has hsub htail hrest
    simp only [List.length_cons, List.length_append] at hlength ⊢
    omega

end Value

end Animator
