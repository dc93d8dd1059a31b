import Animator.Heap.Basic
import Animator.Proofs.Order.Number
import Animator.Proofs.Parts

/-!
# How far comparison is a total order

Comparing values is reflexive and antisymmetric for all values. It is transitive as long as the
values that are compared are `Value.Sharp`: no real among their leaves is the double nearest to two
integers among their leaves. Where there is such a real, it equals both integers while these differ,
and no order can do that (`Heap.compare_order`).

The proof goes by the three results of comparing `a` with `b`, `b` with `c` and `a` with `c`, which
fit together as those of a linear preorder (`Chained`). Being chained is passed on by lexicographic
comparison (`chained_then`), which is how all composite things are compared: values and types by
kind and then by parts, names by module, text and signature.
-/

namespace Animator

/-- The results of comparing `a` with `b`, `b` with `c` and `a` with `c` fit together: equal things
compare alike, and two steps in one direction are a step in that direction. -/
def Chained (ab bc ac : Ordering) : Prop :=
  (ab = .eq → ac = bc) ∧ (bc = .eq → ac = ab) ∧ (ab = bc → ac = ab)

section Chained

variable {ab bc ac ab' bc' ac' : Ordering}

theorem Chained.ne_gt (h : Chained ab bc ac) (hab : ab ≠ .gt) (hbc : bc ≠ .gt) : ac ≠ .gt := by
  cases ab <;> cases bc <;> simp_all [Chained]

/-- Comparing (`Chained`) by a first criterion and then by a second one. The second one only has to
behave where the first one leaves it the decision both times. -/
theorem chained_then (h : Chained ab bc ac)
    (h' : ab = .eq → bc = .eq → Chained ab' bc' ac') :
    Chained (ab.then ab') (bc.then bc') (ac.then ac') := by
  cases ab <;> cases bc <;> cases bc' <;> simp_all [Chained]

theorem chained_iff : Chained ab bc ac ↔
    (ab ≠ .gt → bc ≠ .gt → ac ≠ .gt) ∧ (ab ≠ .lt → bc ≠ .lt → ac ≠ .lt) ∧
      (ab = .lt → bc ≠ .gt → ac = .lt) ∧ (ab ≠ .gt → bc = .lt → ac = .lt) ∧
      (ab = .gt → bc ≠ .lt → ac = .gt) ∧ (ab ≠ .lt → bc = .gt → ac = .gt) := by
  cases ab <;> cases bc <;> cases ac <;> simp [Chained]

theorem chained_of_transCmp {α : Type} (cmp : α → α → Ordering) [Std.TransCmp cmp] (a b c : α) :
    Chained (cmp a b) (cmp b c) (cmp a c) := by
  refine ⟨fun hab => Std.TransCmp.congr_left hab, fun hbc =>
    (Std.TransCmp.congr_right hbc).symm, ?_⟩
  intro hsame
  cases hab : cmp a b with
  | lt => exact Std.TransCmp.lt_trans hab (hsame ▸ hab)
  | eq => exact (Std.TransCmp.congr_left hab).trans (hsame ▸ hab)
  | gt => exact Std.TransCmp.gt_trans hab (hsame ▸ hab)

/-- Comparing by rank where the ranks differ, and by something else where they do not. -/
theorem eq_compare_then {x y : Ordering} {m n : Nat} (hne : m ≠ n → x = Ord.compare m n)
    (heq : m = n → x = y) : x = (Ord.compare m n).then y := by
  by_cases h : m = n
  · rw [heq h, Nat.compare_eq_eq.2 h, Ordering.eq_then]
  · rw [hne h]
    rcases Nat.lt_or_gt_of_ne h with hlt | hgt
    · rw [Nat.compare_eq_lt.2 hlt, Ordering.lt_then]
    · rw [Nat.compare_eq_gt.2 hgt, Ordering.gt_then]

theorem eq_of_swap_eq {x : Ordering} (h : x.swap = x) : x = .eq := by
  cases x <;> simp_all

theorem swap_ordCompare {α : Type} [Ord α] [Std.OrientedOrd α] (a b : α) :
    (Ord.compare a b).swap = Ord.compare b a :=
  Std.OrientedCmp.eq_swap.symm

end Chained

/-! ### Lists -/

section Lists

variable {α : Type} {cmp : α → α → Ordering} {as bs cs : List α}

theorem swap_compareLex (h : ∀ a ∈ as, ∀ b ∈ bs, (cmp a b).swap = cmp b a) :
    (List.compareLex cmp as bs).swap = List.compareLex cmp bs as := by
  induction as generalizing bs with
  | nil => cases bs <;> rfl
  | cons a as ih =>
    cases bs with
    | nil => rfl
    | cons b bs =>
      have hrest : ∀ x ∈ as, ∀ y ∈ bs, (cmp x y).swap = cmp y x :=
        fun x hx y hy => h x (.tail _ hx) y (.tail _ hy)
      rw [List.compareLex_cons_cons, List.compareLex_cons_cons, Ordering.swap_then,
        h a (by simp) b (by simp), ih hrest]

theorem chained_compareLex
    (h : ∀ a ∈ as, ∀ b ∈ bs, ∀ c ∈ cs, Chained (cmp a b) (cmp b c) (cmp a c)) :
    Chained (List.compareLex cmp as bs) (List.compareLex cmp bs cs)
      (List.compareLex cmp as cs) := by
  induction as generalizing bs cs with
  | nil =>
    cases bs <;> cases cs <;>
      simp [Chained, List.compareLex_nil_nil, List.compareLex_nil_cons, List.compareLex_cons_nil]
  | cons a as ih =>
    cases bs with
    | nil => cases cs <;> simp [Chained, List.compareLex_cons_nil, List.compareLex_nil_cons]
    | cons b bs =>
      cases cs with
      | nil => simp [Chained, List.compareLex_cons_nil, eq_comm]
      | cons c cs =>
        simp only [List.compareLex_cons_cons]
        apply chained_then (h a (by simp) b (by simp) c (by simp))
        intro _ _
        apply ih
        intro x hx y hy z hz
        exact h x (.tail _ hx) y (.tail _ hy) z (.tail _ hz)

end Lists

/-! ### Types and names -/

namespace Ty

def label : Ty → String
  | .quote tag | .record tag | .class tag => tag
  | _ => ""

theorem compareLists_eq (as bs : List Ty) :
    compareLists as bs = List.compareLex compare as bs := by
  induction as generalizing bs with
  | nil => cases bs <;> rfl
  | cons a as ih =>
    cases bs with
    | nil => rfl
    | cons b bs => rw [compareLists, List.compareLex_cons_cons, ih bs]

theorem compare_of_rank_ne {a b : Ty} (h : a.rank ≠ b.rank) :
    a.compare b = Ord.compare a.rank b.rank := by
  cases a <;> cases b <;> first | rfl | exact absurd rfl h

theorem compare_of_rank_eq {a b : Ty} (h : a.rank = b.rank) :
    a.compare b =
      (Ord.compare a.label b.label).then (List.compareLex compare a.parts b.parts) := by
  cases a <;> cases b <;>
    simp [rank, compare, label, parts, compareLists_eq, List.compareLex_cons_cons,
      List.compareLex_nil_nil] at h ⊢

theorem compare_eq (a b : Ty) :
    a.compare b = (Ord.compare a.rank b.rank).then
      ((Ord.compare a.label b.label).then (List.compareLex compare a.parts b.parts)) :=
  eq_compare_then compare_of_rank_ne compare_of_rank_eq

theorem swap_compare (a : Ty) : ∀ b : Ty, (a.compare b).swap = b.compare a := by
  induction a using induction_on_parts with
  | h a ih =>
    intro b
    rw [compare_eq a b, compare_eq b a, Ordering.swap_then, Ordering.swap_then,
      swap_compareLex fun x hx y _ => ih x hx y, swap_ordCompare, swap_ordCompare]

theorem chained_compare (a : Ty) :
    ∀ b c : Ty, Chained (a.compare b) (b.compare c) (a.compare c) := by
  induction a using induction_on_parts with
  | h a ih =>
    intro b c
    rw [compare_eq a b, compare_eq b c, compare_eq a c]
    refine chained_then (chained_of_transCmp Ord.compare _ _ _) fun _ _ => ?_
    refine chained_then (chained_of_transCmp Ord.compare _ _ _) fun _ _ => ?_
    exact chained_compareLex fun x hx y _ z _ => ih x hx y z

end Ty

namespace Name

theorem compareSignatures_eq (a b : Option (List Ty)) :
    compareSignatures a b = (Ord.compare a.isSome b.isSome).then
      (List.compareLex Ty.compare (a.getD []) (b.getD [])) := by
  cases a with
  | none => cases b <;> rfl
  | some as =>
    cases b with
    | none => rfl
    | some bs => exact Ty.compareLists_eq as bs

theorem swap_compareSignatures (a b : Option (List Ty)) :
    (compareSignatures a b).swap = compareSignatures b a := by
  rw [compareSignatures_eq, compareSignatures_eq, Ordering.swap_then,
    swap_compareLex fun t _ u _ => t.swap_compare u, swap_ordCompare]

theorem chained_compareSignatures (a b c : Option (List Ty)) :
    Chained (compareSignatures a b) (compareSignatures b c) (compareSignatures a c) := by
  rw [compareSignatures_eq, compareSignatures_eq, compareSignatures_eq]
  refine chained_then (chained_of_transCmp Ord.compare _ _ _) fun _ _ => ?_
  exact chained_compareLex fun t _ u _ w _ => Ty.chained_compare t u w

theorem swap_compare (a b : Name) : (a.compare b).swap = b.compare a := by
  rw [compare, compare, Ordering.swap_then, Ordering.swap_then, swap_compareSignatures,
    swap_ordCompare, swap_ordCompare]

theorem chained_compare (a b c : Name) :
    Chained (a.compare b) (b.compare c) (a.compare c) := by
  refine chained_then (chained_of_transCmp Ord.compare _ _ _) fun _ _ => ?_
  refine chained_then (chained_of_transCmp Ord.compare _ _ _) fun _ _ => ?_
  exact chained_compareSignatures _ _ _

end Name

/-! ### Values -/

namespace Value

/-- Compare two values of one kind without looking at their parts. -/
def compareHead : Value → Value → Ordering
  | .bool a, .bool b => Ord.compare a b
  | .int a, .int b => Ord.compare a b
  | .int a, .real b => (Binary64.ofInt a).totalCompare b
  | .real a, .int b => a.totalCompare (Binary64.ofInt b)
  | .real a, .real b => a.totalCompare b
  | .char a, .char b => Ord.compare a b
  | .quote a, .quote b => Ord.compare a b
  | .record s _, .record t _ => Ord.compare s t
  | .object a, .object b => Ord.compare a.id b.id
  | .function f, .function g => f.definition.name.compare g.definition.name
  | .operation f, .operation g => f.definition.name.compare g.definition.name
  | _, _ => .eq

theorem compareLists_eq (as bs : List Value) :
    compareLists as bs = List.compareLex compare as bs := by
  induction as generalizing bs with
  | nil => cases bs <;> rfl
  | cons a as ih =>
    cases bs with
    | nil => rfl
    | cons b bs => rw [compareLists, List.compareLex_cons_cons, ih bs]

theorem compareFields_eq (as bs : List (String × Value)) :
    compareFields as bs = List.compareLex compare (as.map (·.2)) (bs.map (·.2)) := by
  induction as generalizing bs with
  | nil => cases bs <;> rfl
  | cons a as ih =>
    cases bs with
    | nil => rfl
    | cons b bs =>
      rw [compareFields, List.map_cons, List.map_cons, List.compareLex_cons_cons, ih bs]

theorem compare_of_rank_ne {a b : Value} (h : a.rank ≠ b.rank) :
    a.compare b = Ord.compare a.rank b.rank := by
  cases a <;> cases b <;> first | rfl | exact absurd rfl h

theorem compare_of_rank_eq {a b : Value} (h : a.rank = b.rank) :
    a.compare b = (a.compareHead b).then (List.compareLex compare a.parts b.parts) := by
  cases a <;> cases b <;>
    simp [rank, compare, compareHead, parts, compareLists_eq, compareFields_eq,
      List.compareLex_cons_cons, List.compareLex_nil_nil] at h ⊢

/-- Values are compared by `rank`, by `compareHead`, and by their parts. -/
theorem compare_eq (a b : Value) :
    a.compare b = (Ord.compare a.rank b.rank).then
      ((a.compareHead b).then (List.compareLex compare a.parts b.parts)) :=
  eq_compare_then compare_of_rank_ne compare_of_rank_eq

theorem swap_compareHead (a b : Value) : (a.compareHead b).swap = b.compareHead a := by
  cases a <;> cases b <;> first | rfl | exact swap_ordCompare _ _ | exact Name.swap_compare _ _

theorem swap_compare (a : Value) : ∀ b : Value, (a.compare b).swap = b.compare a := by
  induction a using induction_on_parts with
  | h a ih =>
    intro b
    rw [compare_eq a b, compare_eq b a, Ordering.swap_then, Ordering.swap_then,
      swap_compareLex fun x hx y _ => ih x hx y, swap_compareHead, swap_ordCompare]

theorem compare_self (a : Value) : a.compare a = .eq :=
  eq_of_swap_eq (swap_compare a a)

/-! ### Leaves -/

mutual

/-- What is left of a value when tokens, collections and records are taken apart. -/
def leaves : Value → List Value
  | .token v => v.leaves
  | .seq items | .set items | .tuple items => leavesOfItems items
  | .record _ fields => leavesOfFields fields
  | v => [v]

def leavesOfItems : List Value → List Value
  | [] => []
  | v :: vs => v.leaves ++ leavesOfItems vs

def leavesOfFields : List (String × Value) → List Value
  | [] => []
  | (_, v) :: rest => v.leaves ++ leavesOfFields rest

end

def int? : Value → Option Int
  | .int i => some i
  | _ => none

def real? : Value → Option Binary64
  | .real x => some x
  | _ => none

/-- All integers among the leaves fit in 64 bits, and none of the reals among them is the double
nearest to two of these integers. -/
def Sharp (leaves : List Value) : Prop :=
  (∀ i ∈ leaves.filterMap int?, inIntRange i) ∧
    ∀ i ∈ leaves.filterMap int?, ∀ j ∈ leaves.filterMap int?,
      Binary64.ofInt i ∈ leaves.filterMap real? → Binary64.ofInt i = Binary64.ofInt j → i = j

instance (leaves : List Value) : Decidable (Sharp leaves) := by
  unfold Sharp
  infer_instance

theorem leavesOfItems_eq : ∀ vs : List Value, leavesOfItems vs = vs.flatMap leaves
  | [] => rfl
  | v :: vs => by rw [leavesOfItems, List.flatMap_cons, leavesOfItems_eq vs]

theorem leavesOfFields_eq :
    ∀ fields : List (String × Value), leavesOfFields fields = (fields.map (·.2)).flatMap leaves
  | [] => rfl
  | (_, v) :: rest => by
    rw [leavesOfFields, List.map_cons, List.flatMap_cons, leavesOfFields_eq rest]

theorem leaves_subset_of_mem_parts {v w : Value} (h : w ∈ v.parts) : w.leaves ⊆ v.leaves := by
  have hflat : v.leaves = v.parts.flatMap leaves := by
    cases v with
    | token v => simp [leaves, parts]
    | seq items | set items | tuple items => exact leavesOfItems_eq items
    | record tag fields => exact leavesOfFields_eq fields
    | _ => cases h
  intro x hx
  rw [hflat]
  exact List.mem_flatMap.2 ⟨w, h, hx⟩

/-! ### Transitivity -/

theorem int_or_real_of_rank {v : Value} (h : v.rank = 2) : (∃ i, v = .int i) ∨ ∃ x, v =
    .real x := by
  cases v with
  | int i => exact .inl ⟨i, rfl⟩
  | real x => exact .inr ⟨x, rfl⟩
  | _ => cases h

/-- Everything but numbers is compared by a key in `compareHead` that is ordered linearly. -/
theorem chained_compareHead_of_ne {a b c : Value} (hn : a.rank ≠ 2) (hab : a.rank = b.rank)
    (hbc : b.rank = c.rank) :
    Chained (a.compareHead b) (b.compareHead c) (a.compareHead c) := by
  cases a with
  | int | real => exact absurd rfl hn
  | bool | char | quote | record | object =>
    cases b <;> cases hab
    cases c <;> cases hbc
    exact chained_of_transCmp Ord.compare _ _ _
  | function | operation =>
    cases b <;> cases hab
    cases c <;> cases hbc
    exact Name.chained_compare _ _ _
  | _ =>
    cases b <;> cases hab
    cases c <;> cases hbc
    simp [compareHead, Chained]

/-- If values of some kind have parts of that kind, and comparing them works as in a linear preorder
(`Chained`) as long as the parts are left out, then it does so with the parts as well. -/
theorem chained_compare_of_heads {K : Value → Prop} (hparts : ∀ v, K v → ∀ w ∈ v.parts, K w)
    (hheads : ∀ a b c, K a → K b → K c → a.rank = b.rank → b.rank = c.rank →
      Chained (a.compareHead b) (b.compareHead c) (a.compareHead c)) (a : Value) (ha : K a) :
    ∀ b c : Value, K b → K c → Chained (a.compare b) (b.compare c) (a.compare c) := by
  induction a using induction_on_parts with
  | h a ih =>
    intro b c hb hc
    rw [compare_eq a b, compare_eq b c, compare_eq a c]
    refine chained_then (chained_of_transCmp Ord.compare _ _ _) fun hab hbc => ?_
    have hhead := hheads a b c ha hb hc (Nat.compare_eq_eq.1 hab) (Nat.compare_eq_eq.1 hbc)
    refine chained_then hhead fun _ _ => chained_compareLex fun x hx y hy z hz => ?_
    exact ih x hx (hparts a ha x hx) y z (hparts b hb y hy) (hparts c hc z hz)

theorem chained_compare_of_real? {K : Value → Prop} (hparts : ∀ v, K v → ∀ w ∈ v.parts, K w)
    (hreal : ∀ v, K v → v.real? = none) {a b c : Value} (ha : K a) (hb : K b) (hc : K c) :
    Chained (a.compare b) (b.compare c) (a.compare c) := by
  have hint : ∀ v, K v → v.rank = 2 → ∃ i, v = .int i := by
    intro v hv hrank
    rcases int_or_real_of_rank hrank with hint | ⟨x, rfl⟩
    · exact hint
    · cases hreal _ hv
  refine chained_compare_of_heads hparts (fun a b c ha hb hc hab hbc => ?_) a ha b c hb hc
  by_cases hn : a.rank = 2
  · obtain ⟨i, rfl⟩ := hint a ha hn
    obtain ⟨j, rfl⟩ := hint b hb hab.symm
    obtain ⟨k, rfl⟩ := hint c hc hbc.symm
    exact chained_of_transCmp Ord.compare i j k
  · exact chained_compareHead_of_ne hn hab hbc

section Sharp

variable {leaves : List Value} (hs : Sharp leaves)

include hs

theorem Sharp.key_le {i j : Int} (hi : .int i ∈ leaves) (hj : .int j ∈ leaves) (h : i ≤ j) :
    (Binary64.ofInt i).key ≤ (Binary64.ofInt j).key :=
  Binary64.key_ofInt_mono (hs.1 i (List.mem_filterMap.2 ⟨_, hi, rfl⟩))
    (hs.1 j (List.mem_filterMap.2 ⟨_, hj, rfl⟩)) h

theorem Sharp.eq_of_key {i j : Int} {x : Binary64} (hi : .int i ∈ leaves) (hj : .int j ∈ leaves)
    (hx : .real x ∈ leaves) (hix : (Binary64.ofInt i).key = x.key)
    (hjx : (Binary64.ofInt j).key = x.key) : i = j := by
  have hi' := Binary64.key_injective hix
  have hj' := Binary64.key_injective hjx
  apply hs.2 i (List.mem_filterMap.2 ⟨_, hi, rfl⟩) j (List.mem_filterMap.2 ⟨_, hj, rfl⟩)
  · exact List.mem_filterMap.2 ⟨_, hx, congrArg some hi'.symm⟩
  · rw [hi', hj']

/-- Two integers are compared exactly and each of them with a real as a double. Sharp leaves are
needed only here, where both happens. -/
theorem Sharp.chained_numbers {a b c : Value} (ha : a ∈ leaves) (hb : b ∈ leaves) (hc : c ∈ leaves)
    (hra : a.rank = 2) (hrb : b.rank = 2) (hrc : c.rank = 2) :
    Chained (a.compareHead b) (b.compareHead c) (a.compareHead c) := by
  -- With fewer than two integers, or with no real, there is only one way of comparing.
  rcases int_or_real_of_rank hra with ⟨i, rfl⟩ | ⟨x, rfl⟩ <;>
    rcases int_or_real_of_rank hrb with ⟨j, rfl⟩ | ⟨y, rfl⟩ <;>
    rcases int_or_real_of_rank hrc with ⟨k, rfl⟩ | ⟨z, rfl⟩
  case inl.inl.inr =>
    have hle := hs.key_le ha hb
    have hge := hs.key_le hb ha
    have heq := hs.eq_of_key ha hb hc
    simp only [compareHead, Binary64.totalCompare, chained_iff, ne_eq, Int.compare_eq_lt,
      Int.compare_eq_gt]
    omega
  case inl.inr.inl =>
    have hle := hs.key_le ha hc
    have hge := hs.key_le hc ha
    have heq := hs.eq_of_key ha hc hb
    simp only [compareHead, Binary64.totalCompare, chained_iff, ne_eq, Int.compare_eq_lt,
      Int.compare_eq_gt]
    omega
  case inr.inl.inl =>
    have hle := hs.key_le hb hc
    have hge := hs.key_le hc hb
    have heq := hs.eq_of_key hb hc ha
    simp only [compareHead, Binary64.totalCompare, chained_iff, ne_eq, Int.compare_eq_lt,
      Int.compare_eq_gt]
    omega
  all_goals exact chained_of_transCmp Ord.compare _ _ _

theorem Sharp.chained_compareHead {a b c : Value} (ha : a.leaves ⊆ leaves) (hb : b.leaves ⊆ leaves)
    (hc : c.leaves ⊆ leaves) (hab : a.rank = b.rank) (hbc : b.rank = c.rank) :
    Chained (a.compareHead b) (b.compareHead c) (a.compareHead c) := by
  by_cases hn : a.rank = 2
  · have hself : ∀ {v : Value}, v.rank = 2 → v ∈ v.leaves := by
      intro v hv
      rcases int_or_real_of_rank hv with ⟨i, rfl⟩ | ⟨x, rfl⟩ <;> exact List.mem_singleton_self _
    have hrb : b.rank = 2 := hab ▸ hn
    have hrc : c.rank = 2 := hbc ▸ hrb
    exact hs.chained_numbers (ha (hself hn)) (hb (hself hrb)) (hc (hself hrc)) hn hrb hrc
  · exact chained_compareHead_of_ne hn hab hbc

theorem Sharp.chained_compare (a : Value) (ha : a.leaves ⊆ leaves) :
    ∀ b c : Value, b.leaves ⊆ leaves → c.leaves ⊆ leaves →
      Chained (a.compare b) (b.compare c) (a.compare c) := by
  refine chained_compare_of_heads (K := fun v => v.leaves ⊆ leaves) (fun v hv w hw => ?_) ?_ a ha
  · exact List.Subset.trans (leaves_subset_of_mem_parts hw) hv
  · intro a b c ha hb hc hab hbc
    exact hs.chained_compareHead ha hb hc hab hbc

end Sharp

end Value

namespace Heap

/-- Comparing is reflexive and antisymmetric on all values, and transitive on values with `Sharp`
leaves. Two integers that share their nearest double both equal it and differ from each other, so
no more than that can hold. -/
theorem compare_order (h : Heap) :
    (∀ a, h.compare a a = .eq) ∧
    (∀ a b, h.compare b a = (h.compare a b).swap) ∧
    (∀ a b c, Value.Sharp ((h.resolve a).leaves ++ (h.resolve b).leaves ++ (h.resolve c).leaves) →
      h.compare a b ≠ .gt → h.compare b c ≠ .gt → h.compare a c ≠ .gt) ∧
    ∀ i j, i < j → Binary64.ofInt i = Binary64.ofInt j →
      h.compare (.int j) (.real (Binary64.ofInt j)) = .eq ∧
      h.compare (.real (Binary64.ofInt j)) (.int i) = .eq ∧
      h.compare (.int j) (.int i) = .gt := by
  refine ⟨fun a => (h.resolve a).compare_self, fun a b => ?_, fun a b c hs hab hbc => ?_, ?_⟩
  · exact ((h.resolve a).swap_compare (h.resolve b)).symm
  · have hchain := hs.chained_compare (h.resolve a) (by simp) (h.resolve b) (h.resolve c) (by simp)
      (by simp)
    exact hchain.ne_gt hab hbc
  · intro i j hij hshared
    have hself : ∀ x : Binary64, x.totalCompare x = .eq := fun x => Int.compare_eq_eq.2 rfl
    exact ⟨hself _, hshared ▸ hself _, Int.compare_eq_gt.2 hij⟩

/-- `2 ^ 53` equals its double, and `[2 ^ 53, 1]`, `[2.0 ^ 53, 2]` and `[2 ^ 53, 3]` are increasing.
-/
theorem compare_order_two_pow :
    let h : Heap := {}
    let a : Value := .seq [.int 9007199254740992, .int 1]
    let b : Value := .seq [.real (Binary64.ofInt 9007199254740992), .int 2]
    let c : Value := .seq [.int 9007199254740992, .int 3]
    Value.Sharp ((h.resolve a).leaves ++ (h.resolve b).leaves ++ (h.resolve c).leaves) ∧
      h.compare a b ≠ .gt ∧ h.compare b c ≠ .gt ∧ h.compare a c ≠ .gt ∧
      h.compare (.int 9007199254740993) (.int 9007199254740992) = .gt := by
  intro h a b c
  have hs : Value.Sharp ((h.resolve a).leaves ++ (h.resolve b).leaves ++ (h.resolve c).leaves) := by
    decide +kernel
  have hab : h.compare a b ≠ .gt := by decide +kernel
  have hbc : h.compare b c ≠ .gt := by decide +kernel
  obtain ⟨-, -, htrans, hshared⟩ := compare_order h
  have hgt := hshared 9007199254740992 9007199254740993 (by decide) (by decide +kernel)
  exact ⟨hs, hab, hbc, htrans a b c hs hab hbc, hgt.2.2⟩

/-- Above `2 ^ 53` two different integers equal one real. -/
theorem compare_not_transitive :
    ¬ ∀ (h : Heap) (a b c : Value),
      h.compare a b ≠ .gt → h.compare b c ≠ .gt → h.compare a c ≠ .gt := by
  intro htrans
  let a : Value := .int 9007199254740993
  let b : Value := .real (Binary64.ofInt 9007199254740992)
  let c : Value := .int 9007199254740992
  have hab : Heap.compare {} a b ≠ .gt := by decide +kernel
  have hbc : Heap.compare {} b c ≠ .gt := by decide +kernel
  have hac : Heap.compare {} a c = .gt := by decide +kernel
  exact htrans {} a b c hab hbc hac

end Heap

end Animator
