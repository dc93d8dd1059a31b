import Animator.Proofs.Leakage

/-!
# What patterns match

Matching goes through a pattern from left to right with the names that are bound so far. What it
finds can be said without that: the value has the shape of the pattern (`Pattern.Fits`), and values
that stand at places with one name are equal (`Consistent`). Then every name is bound to the value
at its first place (`firsts`).

`Heap.collect?_eq_some_iff` separates the shape from the names, for any value without cells. What is
left is `Heap.merge?`, which binds one name after the other. That it finds exactly the consistent
bindings needs that equality is transitive, so it is said of values without reals (`Value.Exact`).
Both together are `match?_meaning`.
-/

namespace Animator

/-! ### Values without reals and cells -/

namespace Value

/-- There is no real number and no cell in the value, at any depth. -/
def Exact (v : Value) : Prop :=
  ∀ leaf ∈ v.leaves, leaf.isCell = false ∧ leaf.real? = none

instance (v : Value) : Decidable v.Exact :=
  inferInstanceAs (Decidable (∀ leaf ∈ v.leaves, leaf.isCell = false ∧ leaf.real? = none))

namespace Exact

variable {u v w : Value}

theorem parts (hv : v.Exact) : ∀ w ∈ v.parts, w.Exact :=
  fun _ hw leaf hleaf => hv leaf (leaves_subset_of_mem_parts hw hleaf)

theorem real? (hv : v.Exact) : v.real? = none := by
  cases v with
  | real x => exact (hv _ (List.mem_singleton_self _)).2
  | _ => rfl

theorem cellFree (hv : v.Exact) : v.CellFree :=
  cellFree_iff.2 fun leaf hleaf => (hv leaf hleaf).1

theorem compare_congr (hu : u.Exact) (hv : v.Exact) (hw : w.Exact) (huv : u.compare v = .eq) :
    u.compare w = .eq ↔ v.compare w = .eq := by
  have hchained := chained_compare_of_real? (fun _ => parts) (fun _ => real?) hu hv hw
  rw [hchained.1 huv]

end Exact

theorem compare_eq_comm (v w : Value) : v.compare w = .eq ↔ w.compare v = .eq := by
  rw [← swap_compare v w, Ordering.swap_eq_eq]

end Value

namespace Heap

variable {h : Heap} {v w : Value}

theorem equal_of_cellFree (hv : v.CellFree) (hw : w.CellFree) :
    h.equal v w = true ↔ v.compare w = .eq := by
  rw [equal, compare_of_cellFree hv hw, beq_iff_eq]

end Heap

/-! ### The places of names -/

def Pattern.parts (p : Pattern) : List Pattern :=
  match p.kind with
  | .tuple ps | .record _ ps | .seq ps => ps
  | _ => []

theorem Pattern.sizeOf_lt_of_mem_parts {p q : Pattern} (h : q ∈ p.parts) : sizeOf q < sizeOf p := by
  obtain ⟨location, kind⟩ := p
  cases kind with
  | tuple ps | record tag ps | seq ps =>
    have hlt : sizeOf q < sizeOf ps := List.sizeOf_lt_of_mem h
    simp only [Pattern.mk.sizeOf_spec, PatternKind.tuple.sizeOf_spec,
      PatternKind.record.sizeOf_spec, PatternKind.seq.sizeOf_spec]
    omega
  | _ => cases h

theorem Pattern.induction_on_parts {motive : Pattern → Prop}
    (h : ∀ p, (∀ q ∈ p.parts, motive q) → motive p) (p : Pattern) : motive p :=
  h p fun q _ => induction_on_parts h q
termination_by sizeOf p
decreasing_by exact sizeOf_lt_of_mem_parts ‹_›

/-- The value has the shape of the `Pattern`. -/
inductive Pattern.Fits : Pattern → Value → Prop where
  | ident {location name v} : Fits ⟨location, .ident name⟩ v
  | ignore {location v} : Fits ⟨location, .ignore⟩ v
  | literal {location value v} (hequal : (Value.ofLiteral value).compare v = .eq) :
      Fits ⟨location, .literal value⟩ v
  | tuple {location ps vs} (hitems : List.Forall₂ Fits ps vs) :
      Fits ⟨location, .tuple ps⟩ (.tuple vs)
  | seq {location ps vs} (hitems : List.Forall₂ Fits ps vs) : Fits ⟨location, .seq ps⟩ (.seq vs)
  | record {location tag ps fields} (hfields : List.Forall₂ Fits ps (fields.map (·.2))) :
      Fits ⟨location, .record tag ps⟩ (.record tag fields)

mutual

/-- The names in a `Pattern` from left to right, each with the part of the value that stands in its
place. -/
def Pattern.occurrences : Pattern → Value → Matched
  | ⟨_, kind⟩, v => kind.occurrences v

def PatternKind.occurrences : PatternKind → Value → Matched
  | .ident name, v => [(name, v)]
  | .ignore, _ | .literal _, _ => []
  | .tuple ps, v | .record _ ps, v | .seq ps, v => Pattern.occurrencesOfAll ps v.parts

def Pattern.occurrencesOfAll : List Pattern → List Value → Matched
  | p :: ps, v :: vs => p.occurrences v ++ Pattern.occurrencesOfAll ps vs
  | _, _ => []

end

theorem Pattern.Fits.map_occurrences {p : Pattern} {v : Value} (hfits : p.Fits v) :
    (p.occurrences v).map (·.1) = p.names := by
  induction p using Pattern.induction_on_parts generalizing v with
  | h p ih =>
    have hall : ∀ {ps vs}, List.Forall₂ Pattern.Fits ps vs → (∀ q ∈ ps, q ∈ p.parts) →
        (Pattern.occurrencesOfAll ps vs).map (·.1) = Pattern.namesOfAll ps := by
      intro ps vs hitems
      induction hitems with
      | nil => exact fun _ => rfl
      | cons hp _ ihall =>
        intro hmem
        obtain ⟨hq, hrest⟩ := List.forall_mem_cons.1 hmem
        rw [Pattern.occurrencesOfAll, Pattern.namesOfAll, List.map_append, ih _ hq hp, ihall hrest]
    cases hfits with
    | ident | ignore | literal => rfl
    | tuple hitems | seq hitems | record hitems => exact hall hitems fun _ hq => hq

theorem Pattern.exact_of_mem_occurrences {p : Pattern} {v : Value} {b : Name × Value}
    (hv : v.Exact) (hb : b ∈ p.occurrences v) : b.2.Exact := by
  induction p using Pattern.induction_on_parts generalizing v with
  | h p ih =>
    have hall : ∀ {ps vs}, (∀ q ∈ ps, q ∈ p.parts) → (∀ w ∈ vs, w.Exact) →
        b ∈ Pattern.occurrencesOfAll ps vs → b.2.Exact := by
      intro ps
      induction ps with
      | nil => exact fun _ _ hb => absurd hb List.not_mem_nil
      | cons q ps ihall =>
        intro vs hmem hvs hb
        cases vs with
        | nil => exact absurd hb List.not_mem_nil
        | cons w vs =>
          obtain ⟨hq, hrest⟩ := List.forall_mem_cons.1 hmem
          obtain ⟨hw, hvs⟩ := List.forall_mem_cons.1 hvs
          rw [Pattern.occurrencesOfAll, List.mem_append] at hb
          rcases hb with hb | hb
          · exact ih q hq hw hb
          · exact ihall hrest hvs hb
    obtain ⟨location, kind⟩ := p
    cases kind with
    | ident name => exact List.mem_singleton.1 hb ▸ hv
    | ignore | literal => exact absurd hb List.not_mem_nil
    | tuple ps | record tag ps | seq ps => exact hall (fun _ hq => hq) hv.parts hb

/-! ### Consistent bindings -/

/-- The values of each name are equal. -/
def Consistent (pairs : Matched) : Prop :=
  ∀ a ∈ pairs, ∀ b ∈ pairs, a.1 = b.1 → a.2.compare b.2 = .eq

instance (pairs : Matched) : Decidable (Consistent pairs) :=
  inferInstanceAs (Decidable (∀ a ∈ pairs, ∀ b ∈ pairs, a.1 = b.1 → a.2.compare b.2 = .eq))

/-- The first value of each name, in order. -/
def firsts : Matched → Matched
  | [] => []
  | b :: rest => b :: (firsts rest).filter (·.1 ≠ b.1)

section Firsts

variable (pairs before after : Matched) (b : Name × Value)

theorem firsts_subset : firsts pairs ⊆ pairs := by
  induction pairs with
  | nil => exact List.Subset.refl _
  | cons b rest ih => exact List.cons_subset_cons b fun a ha => ih (List.mem_filter.1 ha).1

theorem find?_of_mem_firsts {b : Name × Value} (hb : b ∈ firsts pairs) :
    pairs.find? (·.1 == b.1) = some b := by
  induction pairs with
  | nil => exact absurd hb List.not_mem_nil
  | cons a rest ih =>
    rcases List.mem_cons.1 hb with rfl | hb
    · exact List.find?_cons_of_pos (by simp)
    · obtain ⟨hrest, hne⟩ := List.mem_filter.1 hb
      have hne : b.1 ≠ a.1 := by simpa using hne
      rw [List.find?_cons_of_neg (by simpa using hne.symm), ih hrest]

theorem find?_firsts (name : Name) :
    (firsts pairs).find? (·.1 == name) = pairs.find? (·.1 == name) := by
  induction pairs with
  | nil => rfl
  | cons b rest ih =>
    rw [firsts, List.find?_cons, List.find?_cons, List.find?_filter, ← ih]
    split
    · rfl
    · next hne =>
      -- A pair with the name that is looked for has another name than the first one.
      refine congrArg (fun test => (firsts rest).find? test) (funext fun a => ?_)
      grind

theorem mem_map_firsts {name : Name} :
    name ∈ (firsts pairs).map (·.1) ↔ name ∈ pairs.map (·.1) := by
  have hmem : ∀ found : Matched,
      name ∈ found.map (·.1) ↔ (found.find? (·.1 == name)).isSome = true := by
    intro found
    simp only [List.mem_map, List.find?_isSome, beq_iff_eq]
  rw [hmem, hmem, find?_firsts]

theorem firsts_filter (test : Name → Bool) :
    firsts (pairs.filter fun a => test a.1) = (firsts pairs).filter fun a => test a.1 := by
  induction pairs with
  | nil => rfl
  | cons b rest ih =>
    simp only [List.filter_cons, firsts]
    cases hb : test b.1 with
    | true =>
      simp only [if_true, firsts, ih, List.filter_filter, Bool.and_comm]
    | false =>
      simp only [Bool.false_eq_true, if_false, ih, List.filter_filter]
      -- Whatever passes the test has another name than the pair that does not.
      refine List.filter_congr fun a _ => ?_
      by_cases ha : a.1 = b.1
      · simp [ha, hb]
      · simp [ha]

theorem firsts_append :
    firsts (before ++ after) =
      firsts before ++ (firsts after).filter (·.1 ∉ before.map (·.1)) := by
  induction before with
  | nil => simp [firsts]
  | cons b before ih =>
    rw [List.cons_append, firsts, firsts, ih, List.filter_append, List.filter_filter,
      List.cons_append]
    simp only [List.map_cons, List.mem_cons, not_or, Bool.decide_and]

theorem firsts_insert (hb : b.1 ∈ before.map (·.1)) :
    firsts (before ++ b :: after) = firsts (before ++ after) := by
  rw [firsts_append, firsts_append, firsts, List.filter_cons_of_neg (by simp [hb]),
    List.filter_filter]
  refine congrArg (firsts before ++ ·) (List.filter_congr fun a _ => ?_)
  by_cases ha : a.1 = b.1
  · simp [ha, hb]
  · simp [ha]

theorem firsts_firsts : firsts (firsts pairs) = firsts pairs := by
  induction pairs with
  | nil => rfl
  | cons b rest ih =>
    have hfilter := firsts_filter (firsts rest) (· ≠ b.1)
    rw [firsts, firsts, hfilter, ih, List.filter_filter]
    simp only [Bool.and_self]

theorem firsts_append_firsts : firsts (firsts before ++ firsts after) =
    firsts (before ++ after) := by
  rw [firsts_append, firsts_append, firsts_firsts, firsts_firsts]
  simp only [mem_map_firsts]

theorem map_firsts : (firsts pairs).map (·.1) = (pairs.map (·.1)).eraseDups := by
  -- Induction on the length, since what comes after a pair is filtered on both sides.
  induction hn : pairs.length using Nat.strongRecOn generalizing pairs with
  | ind n ih =>
    cases pairs with
    | nil => rfl
    | cons b rest =>
      have hlength : (rest.filter (·.1 ≠ b.1)).length < n := by
        have hle := List.length_filter_le (fun a : Name × Value => decide (a.1 ≠ b.1)) rest
        rw [← hn, List.length_cons]
        omega
      rw [firsts, List.map_cons, List.map_cons, List.eraseDups_cons, List.filter_map,
        ← firsts_filter rest (· ≠ b.1), ih _ hlength _ rfl]
      simp only [Function.comp_def, ne_eq, decide_not, beq_eq_decide]

end Firsts

section Consistent

variable {found pairs after : Matched} {b : Name × Value}

theorem consistent_firsts : Consistent (firsts pairs) := by
  intro a ha b hb hname
  have hfind := find?_of_mem_firsts pairs ha
  rw [hname, find?_of_mem_firsts pairs hb] at hfind
  rw [Option.some.inj hfind]
  exact Value.compare_self _

/-- A further value of a name that is bound already only has to equal (`compare`) the one that is
bound. -/
theorem consistent_insert (hexact : ∀ a ∈ found ++ b :: after, a.2.Exact) {a : Name × Value}
    (ha : a ∈ found) (hname : a.1 = b.1) :
    Consistent (found ++ b :: after) ↔
      a.2.compare b.2 = .eq ∧ Consistent (found ++ after) := by
  have hb : b ∈ found ++ b :: after := List.mem_append_right _ List.mem_cons_self
  have hsub : ∀ c ∈ found ++ after, c ∈ found ++ b :: after :=
    fun c hc => (List.mem_append.1 hc).elim (List.mem_append_left _)
      fun hc => List.mem_append_right _ (List.mem_cons_of_mem _ hc)
  have ha' : a ∈ found ++ after := List.mem_append_left _ ha
  constructor
  · intro hall
    exact ⟨hall a (hsub a ha') b hb hname, fun c hc d hd => hall c (hsub c hc) d (hsub d hd)⟩
  · rintro ⟨hab, hall⟩
    -- Whatever has the name equals the value that is bound, and so the further one.
    have hothers : ∀ c ∈ found ++ after, c.1 = b.1 → b.2.compare c.2 = .eq := by
      intro c hc hcname
      have hac := hall a ha' c hc (hname.trans hcname.symm)
      exact ((hexact a (hsub a ha')).compare_congr (hexact b hb) (hexact c (hsub c hc)) hab).1 hac
    have hcases : ∀ c ∈ found ++ b :: after, c = b ∨ c ∈ found ++ after := by
      intro c hc
      simp only [List.mem_append, List.mem_cons] at hc ⊢
      tauto
    intro c hc d hd hcd
    rcases hcases c hc with rfl | hc' <;> rcases hcases d hd with rfl | hd'
    · exact Value.compare_self _
    · exact hothers d hd' hcd.symm
    · exact (Value.compare_eq_comm _ _).1 (hothers c hc' hcd)
    · exact hall c hc' d hd' hcd

end Consistent

namespace Heap

variable {h : Heap} {found pairs before after m : Matched}

theorem merge?_cons {b : Name × Value} :
    h.merge? found (b :: after) = (h.bindName? found b.1 b.2).bind (h.merge? · after) := by
  rw [merge?, List.foldlM_cons]
  rfl

theorem merge?_append :
    h.merge? found (before ++ after) = (h.merge? found before).bind (h.merge? · after) := by
  rw [merge?, List.foldlM_append]
  rfl

/-- Adding to bindings of different names finds the first value of each name, if the values are
`Consistent`. -/
theorem merge?_eq_some_iff (hfound : firsts found = found)
    (hexact : ∀ a ∈ found ++ pairs, a.2.Exact) :
    h.merge? found pairs = some m ↔ Consistent (found ++ pairs) ∧ m = firsts (found ++ pairs) := by
  induction pairs generalizing found with
  | nil =>
    have hconsistent : Consistent found := hfound ▸ consistent_firsts
    rw [List.append_nil, hfound]
    simp [merge?, hconsistent, eq_comm]
  | cons b pairs ih =>
    rw [merge?_cons, bindName?]
    have hb : b ∈ found ++ b :: pairs := List.mem_append_right _ List.mem_cons_self
    cases hfind : found.find? (·.1 == b.1) with
    | some a =>
      -- The name is bound already, so the value is compared and nothing is added.
      have ha : a ∈ found := List.mem_of_find?_eq_some hfind
      have hname : a.1 = b.1 := by simpa using List.find?_some hfind
      have hmem : b.1 ∈ found.map (·.1) := List.mem_map.2 ⟨a, ha, hname⟩
      have hequal : h.equal a.2 b.2 = true ↔ a.2.compare b.2 = .eq :=
        equal_of_cellFree (hexact a (List.mem_append_left _ ha)).cellFree (hexact b hb).cellFree
      rw [consistent_insert hexact ha hname, firsts_insert _ _ _ hmem]
      dsimp only
      by_cases hab : a.2.compare b.2 = .eq
      · rw [if_pos (hequal.2 hab), Option.bind_some, ih hfound fun c hc => hexact c ?_]
        · simp only [hab, true_and]
        · simp only [List.mem_append, List.mem_cons] at hc ⊢
          tauto
      · rw [if_neg fun heq => hab (hequal.1 heq)]
        simp [hab]
    | none =>
      -- The name is new, and the bindings are still of different names with it at their end.
      have hnew : b.1 ∉ found.map (·.1) := by
        rw [List.find?_eq_none] at hfind
        rw [List.mem_map]
        rintro ⟨a, ha, hname⟩
        exact hfind a ha (beq_iff_eq.2 hname)
      have hfound' : firsts (found ++ [b]) = found ++ [b] := by
        rw [firsts_append, hfound]
        simp [firsts, hnew]
      have hsplit : found ++ b :: pairs = (found ++ [b]) ++ pairs := by simp
      rw [hsplit] at hexact ⊢
      exact ih hfound' hexact

/-! ### Matching -/

theorem collectEach?_cons {p : Pattern} {ps : List Pattern} {v : Value} {vs : List Value} :
    h.collectEach? (p :: ps) (v :: vs) found =
      (h.collect? p v found).bind (h.collectEach? ps vs ·) := by
  rw [collectEach?]
  cases h.collect? p v found <;> rfl

/-- Matching (`collect?`) with the names that are bound already is to compare the shape and to bind
the names one after the other. -/
theorem collect?_eq_some_iff {p : Pattern} {v : Value} (hv : v.CellFree) :
    h.collect? p v found = some m ↔ p.Fits v ∧ h.merge? found (p.occurrences v) = some m := by
  induction p using Pattern.induction_on_parts generalizing v found m with
  | h p ih =>
    -- Parts are matched from left to right, each with the names that are bound by then.
    have hall : ∀ {ps vs found}, (∀ q ∈ ps, q ∈ p.parts) → (∀ w ∈ vs, w.CellFree) →
        (h.collectEach? ps vs found = some m ↔
          List.Forall₂ Pattern.Fits ps vs ∧
            h.merge? found (Pattern.occurrencesOfAll ps vs) = some m) := by
      intro ps
      induction ps with
      | nil =>
        intro vs found _ _
        cases vs with
        | nil => simp [collectEach?, Pattern.occurrencesOfAll, merge?]
        | cons => simp [collectEach?]
      | cons q ps ihall =>
        intro vs found hmem hvs
        cases vs with
        | nil => simp [collectEach?]
        | cons w vs =>
          obtain ⟨hq, hrest⟩ := List.forall_mem_cons.1 hmem
          obtain ⟨hw, hvs⟩ := List.forall_mem_cons.1 hvs
          rw [collectEach?_cons, Pattern.occurrencesOfAll, merge?_append, List.forall₂_cons,
            Option.bind_eq_some_iff, Option.bind_eq_some_iff]
          simp only [ih q hq hw, ihall hrest hvs]
          tauto
    have hparts := hv.parts
    -- A value of another kind is rejected by the code and by the shape.
    have hother (hshape : ¬p.Fits v) :
        none = some m ↔ p.Fits v ∧ h.merge? found (p.occurrences v) = some m :=
      iff_of_false (Option.some_ne_none m).symm fun hboth => hshape hboth.1
    obtain ⟨location, kind⟩ := p
    cases kind with
    | ident name =>
      rw [collect?, collectKind?, Pattern.occurrences, PatternKind.occurrences, merge?_cons]
      simp [Pattern.Fits.ident, merge?]
    | ignore =>
      rw [collect?, collectKind?, Pattern.occurrences, PatternKind.occurrences]
      simp [Pattern.Fits.ignore, merge?]
    | literal value =>
      have hliteral : h.equal (.ofLiteral value) v = true ↔
          Pattern.Fits ⟨location, .literal value⟩ v :=
        (equal_of_cellFree (Value.from_ofLiteral value).cellFree hv).trans
          ⟨.literal, fun hfits => by cases hfits; assumption⟩
      rw [collect?, collectKind?, Pattern.occurrences, PatternKind.occurrences, ← hliteral]
      simp [merge?]
    | tuple ps =>
      cases v with
      | tuple vs =>
        refine (hall (fun _ hq => hq) hparts).trans (and_congr_left fun _ => ?_)
        exact ⟨.tuple, fun hfits => by cases hfits; assumption⟩
      | _ => exact hother fun hfits => by cases hfits
    | seq ps =>
      cases v with
      | seq vs =>
        refine (hall (fun _ hq => hq) hparts).trans (and_congr_left fun _ => ?_)
        exact ⟨.seq, fun hfits => by cases hfits; assumption⟩
      | _ => exact hother fun hfits => by cases hfits
    | record tag ps =>
      cases v with
      | record t fields =>
        rw [collect?, collectKind?]
        by_cases htag : tag = t
        · subst htag
          rw [if_pos rfl]
          refine (hall (fun _ hq => hq) hparts).trans (and_congr_left fun _ => ?_)
          exact ⟨.record, fun hfits => by cases hfits; assumption⟩
        · rw [if_neg htag]
          exact hother fun hfits => by cases hfits; exact htag rfl
      | _ => exact hother fun hfits => by cases hfits

/-- What a `Pattern` matches: the values of its shape with equal values at places with one name. It
binds the first of them. -/
theorem match?_eq_some_iff {p : Pattern} {v : Value} (hv : v.Exact) :
    h.match? p v = some m ↔
      p.Fits v ∧ Consistent (p.occurrences v) ∧ m = firsts (p.occurrences v) := by
  have hmerge : h.merge? [] (p.occurrences v) = some m ↔
      Consistent (p.occurrences v) ∧ m = firsts (p.occurrences v) :=
    merge?_eq_some_iff rfl fun _ hb => Pattern.exact_of_mem_occurrences hv hb
  rw [match?, deref_of_not_isCell hv.cellFree.isCell, collect?_eq_some_iff hv.cellFree, hmerge]

end Heap

/-- A value without reals and cells matches a `Pattern` exactly if it has the shape of the pattern
and the values at places with one name are equal. Then each name of the pattern is bound once, in
the order of their first places, to the value at its first place. -/
theorem match?_meaning (h : Heap) (p : Pattern) (v : Value) (hv : v.Exact) :
    ((∃ m, h.match? p v = some m) ↔ p.Fits v ∧ Consistent (p.occurrences v)) ∧
      ∀ m, h.match? p v = some m →
        m.map (·.1) = p.names.eraseDups ∧
          ∀ b ∈ m, (p.occurrences v).find? (·.1 == b.1) = some b := by
  refine ⟨?_, fun m hm => ?_⟩
  · simp only [Heap.match?_eq_some_iff hv, exists_and_left, exists_eq, and_true]
  · obtain ⟨hfits, -, rfl⟩ := (Heap.match?_eq_some_iff hv).1 hm
    refine ⟨by rw [map_firsts, hfits.map_occurrences], fun b hb => ?_⟩
    exact find?_of_mem_firsts _ hb

def doublePattern : Pattern :=
  let place (kind : PatternKind) : Pattern := ⟨.onLine 1, kind⟩
  let x := place (.ident { module := "M", text := "x" })
  let y := place (.ident { module := "M", text := "y" })
  place (.tuple [place (.seq [x, y]),
    place (.record "R" [y, place .ignore, place (.literal (.int 3))]),
    x])

def doubleValue (x y y' : Value) : Value :=
  .tuple [.seq [x, y], .record "R" [("a", y'), ("b", .nil), ("c", .int 3)], x]

/-- Whether the `doublePattern` matches depends on whether the values in the two places of a name
are equal. -/
theorem match?_meaning_double :
    let v := doubleValue (.quote "red") (.int 1) (.int 1)
    let w := doubleValue (.quote "red") (.int 1) (.int 2)
    v.Exact ∧ w.Exact ∧ (∃ m, Heap.match? {} doublePattern v = some m ∧
      (m.map (·.1)).map (·.text) = ["x", "y"]) ∧ ¬∃ m, Heap.match? {} doublePattern w = some m := by
  intro v w
  have hv : v.Exact := by decide +kernel
  have hw : w.Exact := by decide +kernel
  refine ⟨hv, hw, ?_, fun hmatch => ?_⟩
  · obtain ⟨m, hm⟩ := Option.isSome_iff_exists.1
      (show (Heap.match? {} doublePattern v).isSome = true by decide +kernel)
    refine ⟨m, hm, ?_⟩
    have hnames := ((match?_meaning {} doublePattern v hv).2 m hm).1
    rw [hnames]
    decide +kernel
  · have hconsistent := ((match?_meaning {} doublePattern w hw).1.1 hmatch).2
    exact absurd hconsistent (by decide +kernel)

end Animator
