import Animator.Proofs.Matching.Meaning

/-!
# Several binds at once

Several binds are matched one after the other: each match so far is extended by each value of the
next bind that agrees with it. It comes to the same to go through all choices of one value for each
bind and to match them at once, as a tuple (`combinations_enumerate_product`).

Both bind the names of the patterns from left to right. The one matches each value by itself and
adds what it has found to the match so far, the other goes on with the match so far
(`Heap.collect?_eq_bind_merge?`).
-/

namespace Animator

/-- All ways to choose one item of each list, in lexicographic order: the last choice varies
fastest.
-/
def choices {α : Type} : List (List α) → List (List α)
  | [] => [[]]
  | items :: rest => items.flatMap fun item => (choices rest).map (item :: ·)

section Choices

variable {α : Type} {lists : List (List α)}

theorem mem_choices {chosen : List α} :
    chosen ∈ choices lists ↔ List.Forall₂ (· ∈ ·) chosen lists := by
  induction lists generalizing chosen with
  | nil => simp [choices]
  | cons items rest ih =>
    simp only [choices, List.mem_flatMap, List.mem_map, ih, List.forall₂_cons_right_iff]
    grind

/-- If the items of each list are in order, then the `choices` are in lexicographic order. -/
theorem pairwise_choices {r : α → α → Prop} (hlists : ∀ items ∈ lists, items.Pairwise r) :
    (choices lists).Pairwise (List.Lex r) := by
  induction lists with
  | nil => exact List.pairwise_singleton _ _
  | cons items rest ih =>
    obtain ⟨hitems, hrest⟩ := List.forall_mem_cons.1 hlists
    rw [choices, List.pairwise_flatMap]
    refine ⟨fun item _ => List.pairwise_map.2 ((ih hrest).imp .cons), hitems.imp fun hab => ?_⟩
    intro chosen hchosen chosen' hchosen'
    obtain ⟨_, -, rfl⟩ := List.mem_map.1 hchosen
    obtain ⟨_, -, rfl⟩ := List.mem_map.1 hchosen'
    exact .rel hab

theorem choices_map {β : Type} (f : α → β) :
    choices (lists.map (·.map f)) = (choices lists).map (·.map f) := by
  induction lists with
  | nil => rfl
  | cons items rest ih =>
    simp only [List.map_cons, choices, ih, List.flatMap_map, List.map_flatMap, List.map_map,
      Function.comp_def]

/-- The `choices` with the positions of what is chosen: all of them, in lexicographic order of the
positions. -/
theorem exists_indexed_choices (lists : List (List α)) :
    ∃ indexed : List (List (α × Nat)), choices lists = indexed.map (·.map (·.1)) ∧
      indexed.Pairwise (List.Lex (·.2 < ·.2)) ∧
      ∀ chosen, chosen ∈ indexed ↔
        List.Forall₂ (fun c items => items[c.2]? = some c.1) chosen lists := by
  refine ⟨choices (lists.map (·.zipIdx)), ?_, pairwise_choices fun items hitems => ?_, fun _ => ?_⟩
  · rw [← choices_map, List.map_map]
    simp [Function.comp_def]
  · obtain ⟨values, -, rfl⟩ := List.mem_map.1 hitems
    have hpositions : (values.zipIdx.map (·.2)).Pairwise (· < ·) := by
      rw [List.zipIdx_map_snd]
      exact List.pairwise_lt_range'
    exact List.pairwise_map.1 hpositions
  · rw [mem_choices, List.forall₂_map_right_iff]
    simp only [List.mem_zipIdx_iff_getElem?]

end Choices

/-- Bindings are `Consistent` with further ones exactly if they are with the first of each name. -/
theorem consistent_append_firsts {found pairs : Matched}
    (hexact : ∀ a ∈ found ++ pairs, a.2.Exact) :
    Consistent (found ++ pairs) ↔ Consistent pairs ∧ Consistent (found ++ firsts pairs) := by
  have hsub : ∀ a ∈ found ++ firsts pairs, a ∈ found ++ pairs := fun a ha =>
    List.mem_append.2 ((List.mem_append.1 ha).imp_right (firsts_subset pairs ·))
  constructor
  · intro hall
    refine ⟨fun a ha b hb => ?_, fun a ha b hb => hall a (hsub a ha) b (hsub b hb)⟩
    exact hall a (List.mem_append_right _ ha) b (List.mem_append_right _ hb)
  · rintro ⟨hpairs, hboth⟩
    -- Every binding equals one that is left when repetitions are left out.
    have hfirst : ∀ a ∈ found ++ pairs, ∃ b ∈ found ++ firsts pairs,
        b.1 = a.1 ∧ a.2.compare b.2 = .eq := by
      intro a ha
      rcases List.mem_append.1 ha with ha | ha
      · exact ⟨a, List.mem_append_left _ ha, rfl, Value.compare_self _⟩
      · obtain ⟨b, hb, hname⟩ := List.mem_map.1
          ((mem_map_firsts pairs).2 (List.mem_map_of_mem ha))
        exact ⟨b, List.mem_append_right _ hb, hname,
          hpairs a ha b (firsts_subset pairs hb) hname.symm⟩
    intro a ha b hb hname
    obtain ⟨a', ha', haname, haa'⟩ := hfirst a ha
    obtain ⟨b', hb', hbname, hbb'⟩ := hfirst b hb
    have hab' : a'.2.compare b'.2 = .eq :=
      hboth a' ha' b' hb' (haname.trans (hname.trans hbname.symm))
    -- So each of the four values equals the next one.
    have hexact' := fun c hc => hexact c (hsub c hc)
    have hb'a : b'.2.compare a.2 = .eq := (Value.compare_eq_comm _ _).1
      (((hexact a ha).compare_congr (hexact' a' ha') (hexact' b' hb') haa').2 hab')
    have hba : b.2.compare a.2 = .eq :=
      ((hexact b hb).compare_congr (hexact' b' hb') (hexact a ha) hbb').2 hb'a
    exact (Value.compare_eq_comm _ _).1 hba

namespace Heap

variable {h : Heap} {found m : Matched} {p : Pattern} {v : Value}

/-- Going on with the match so far is to match the value by itself and to add what is found
(`merge?`). -/
theorem collect?_eq_bind_merge? (hfound : firsts found = found) (hexact : ∀ a ∈ found, a.2.Exact)
    (hv : v.Exact) : h.collect? p v found = (h.match? p v).bind (h.merge? found) := by
  have hall : ∀ a ∈ found ++ p.occurrences v, a.2.Exact := fun a ha =>
    (List.mem_append.1 ha).elim (hexact a) (Pattern.exact_of_mem_occurrences hv)
  have hfirsts : ∀ a ∈ found ++ firsts (p.occurrences v), a.2.Exact := fun a ha =>
    hall a (List.mem_append.2 ((List.mem_append.1 ha).imp_right (firsts_subset _ ·)))
  have hjoin : firsts (found ++ firsts (p.occurrences v)) = firsts (found ++ p.occurrences v) := by
    rw [← firsts_append_firsts found (p.occurrences v), hfound]
  refine Option.ext fun m => ?_
  rw [collect?_eq_some_iff hv.cellFree, merge?_eq_some_iff hfound hall, Option.bind_eq_some_iff,
    consistent_append_firsts hall]
  simp only [match?_eq_some_iff hv]
  constructor
  · rintro ⟨hfits, ⟨hpairs, hboth⟩, rfl⟩
    exact ⟨_, ⟨hfits, hpairs, rfl⟩, (merge?_eq_some_iff hfound hfirsts).2 ⟨hboth, hjoin.symm⟩⟩
  · rintro ⟨_, ⟨hfits, hpairs, rfl⟩, hmerge⟩
    obtain ⟨hboth, rfl⟩ := (merge?_eq_some_iff hfound hfirsts).1 hmerge
    exact ⟨hfits, ⟨hpairs, hboth⟩, hjoin⟩

/-- What `extend` finds by adding to a match is again a match of different names. -/
theorem firsts_of_mem_extend {partials : List Matched} {values : List Value}
    (hpartials : ∀ found ∈ partials, firsts found = found ∧ ∀ a ∈ found, a.2.Exact)
    (hvalues : ∀ v ∈ values, v.Exact) :
    ∀ m ∈ h.extend partials p values, firsts m = m ∧ ∀ a ∈ m, a.2.Exact := by
  intro m hm
  obtain ⟨found, hfound, hm⟩ := List.mem_flatMap.1 hm
  obtain ⟨v, hv, hm⟩ := List.mem_filterMap.1 hm
  obtain ⟨honce, hexact⟩ := hpartials found hfound
  have hall : ∀ a ∈ found ++ p.occurrences v, a.2.Exact := fun a ha =>
    (List.mem_append.1 ha).elim (hexact a) (Pattern.exact_of_mem_occurrences (hvalues v hv))
  rw [← collect?_eq_bind_merge? honce hexact (hvalues v hv),
    collect?_eq_some_iff (hvalues v hv).cellFree, merge?_eq_some_iff honce hall] at hm
  obtain ⟨-, -, rfl⟩ := hm
  exact ⟨firsts_firsts _, fun a ha => hall a (firsts_subset _ ha)⟩

/-- Extending matches bind by bind is to go on with each of them through all `choices`. -/
theorem foldl_extend {candidates : List (Pattern × List Value)} {partials : List Matched}
    (hpartials : ∀ found ∈ partials, firsts found = found ∧ ∀ a ∈ found, a.2.Exact)
    (hexact : ∀ c ∈ candidates, ∀ v ∈ c.2, v.Exact) :
    candidates.foldl (fun found c => h.extend found c.1 c.2) partials =
      partials.flatMap fun found => (choices (candidates.map (·.2))).filterMap fun vs =>
        h.collectEach? (candidates.map (·.1)) vs found := by
  induction candidates generalizing partials with
  | nil => simp [choices, collectEach?]
  | cons c rest ih =>
    obtain ⟨hc, hrest⟩ := List.forall_mem_cons.1 hexact
    rw [List.foldl_cons, ih (firsts_of_mem_extend hpartials hc) hrest, extend, List.flatMap_assoc,
      List.map_cons, List.map_cons, choices]
    refine List.flatMap_congr fun found hfound => ?_
    obtain ⟨honce, hvalues⟩ := hpartials found hfound
    rw [List.filterMap_flatMap, List.filterMap_eq_flatMap_toList, List.flatMap_assoc]
    refine List.flatMap_congr fun v hv => ?_
    -- A value that does not match adds nothing, whatever is chosen after it.
    simp only [← collect?_eq_bind_merge? honce hvalues (hc v hv), List.filterMap_map,
      Function.comp_def, collectEach?_cons]
    cases h.collect? c.1 v found with
    | none => simp
    | some found' => simp

theorem match?_tuple {location : Location} {ps : List Pattern} {vs : List Value} :
    h.match? ⟨location, .tuple ps⟩ (.tuple vs) = h.collectEach? ps vs [] := by
  rw [match?, collect?]
  rfl

/-- The matches of several binds are those of all `choices`, as tuples. -/
theorem combinations_eq_filterMap {candidates : List (Pattern × List Value)} (location : Location)
    (hexact : ∀ c ∈ candidates, ∀ v ∈ c.2, v.Exact) :
    h.combinations candidates = (choices (candidates.map (·.2))).filterMap fun vs =>
      h.match? ⟨location, .tuple (candidates.map (·.1))⟩ (.tuple vs) := by
  rw [combinations_eq_foldl, foldl_extend (by simp [firsts]) hexact, List.flatMap_singleton]
  simp only [match?_tuple]

/-- If some binds have no match in common, then no further bind of `combinations` changes that. -/
theorem combinations_append_of_nil {before after : List (Pattern × List Value)}
    (hnil : h.combinations before = []) : h.combinations (before ++ after) = [] := by
  rw [combinations_eq_foldl] at hnil
  rw [combinations_eq_foldl, List.foldl_append, hnil]
  exact foldl_extend_nil after

end Heap

/-! ### Searches

`Engine.firstMatch` and `Engine.anyMatch` try one match after the other. They differ in what they do
with the context of the match that they stop at.
-/

/-- The matches are tried in order, up to the first that gives a context. -/
inductive Search (attempt : Matched → List Matched → Eval (Option Context)) :
    List Matched → Machine → Except Halt (Option Context) → Machine → Prop where
  | exhausted {m : Machine} : Search attempt [] m (.ok none) m
  | found {matched : Matched} {rest : List Matched} {m m' : Machine} {child : Context}
      (h : attempt matched rest m = (.ok (some child), m')) :
      Search attempt (matched :: rest) m (.ok (some child)) m'
  | ended {matched : Matched} {rest : List Matched} {m m' : Machine} {halt : Halt}
      (h : attempt matched rest m = (.error halt, m')) :
      Search attempt (matched :: rest) m (.error halt) m'
  | next {matched : Matched} {rest : List Matched} {m m₁ m' : Machine}
      {r : Except Halt (Option Context)} (h : attempt matched rest m = (.ok none, m₁))
      (hrest : Search attempt rest m₁ r m') : Search attempt (matched :: rest) m r m'

/-- A recursion over the matches (`Search`) that stops at the first context does what it does with
that context, or what it does when there are no matches. -/
theorem exists_search {α : Type} {attempt : Matched → List Matched → Eval (Option Context)}
    {f : List Matched → Eval α} {stop : Context → Eval α}
    (hcons : ∀ matched rest,
      f (matched :: rest) = attempt matched rest >>= fun child => child.elim (f rest) stop)
    (ms : List Matched) (m : Machine) :
    ∃ r m', Search attempt ms m r m' ∧
      f ms m = (ofExcept r >>= fun child => child.elim (f []) stop) m' := by
  induction ms generalizing m with
  | nil => exact ⟨.ok none, m, .exhausted, rfl⟩
  | cons matched rest ih =>
    rw [hcons]
    rcases hattempt : attempt matched rest m with ⟨_ | _ | child, m₁⟩
    · exact ⟨_, m₁, .ended hattempt, bind_of_error hattempt⟩
    · obtain ⟨r, m', hsearch, hr⟩ := ih m₁
      exact ⟨r, m', .next hattempt hsearch, (bind_of_ok hattempt).trans hr⟩
    · exact ⟨_, m₁, .found hattempt, bind_of_ok hattempt⟩

namespace Engine

/-- The context with the names of a match bound, if the predicate comes out as wanted there. While
the predicate is evaluated, the values of the other matches are held. -/
def attempt (E : Engine) (title : String) (predicate : Option Expr) (wanted : Bool)
    (place : Location) (c : Context) (matched : Matched) (others : List Matched) :
    Eval (Option Context) := do
  let child := (← Eval.derive (holdMatches c others) title place).bindAll matched
  let holds ← predicate.elim (pure true) (E.condition · child)
  return if holds = wanted then some child else none

/-- What `let be st`, `exists` and `forall` do with the matches of their binds. They try them in
order. The first stops where the predicate holds, executes its body there, and fails if there is no
such match; the others stop where the predicate holds or does not hold, and tell whether there is
such a match. -/
structure Searches (E : Engine) (binds : List Bind) (place : Location) (c : Context) (m : Machine)
    (found : List Matched) (m' : Machine) : Prop where
  letBeSt (predicate : Option Expr) (body : Stmt) : ∃ r m₁,
    Search (E.attempt "let be st" predicate true place c) found m' r m₁ ∧
      E.stmtKind (.letBeSt binds predicate body) place c m =
        (ofExcept r >>= fun child => child.elim
          (E.fail .letBeExhausted "let be st found no binding satisfying the predicate" place c)
          (E.stmt body)) m₁
  existsIn (predicate : Expr) : ∃ r m₁,
    Search (E.attempt "quantifier" (some predicate) true place c) found m' r m₁ ∧
      E.exprKind (.existsIn binds predicate) place c m = (r.map (.bool ·.isSome), m₁)
  forAll (predicate : Expr) : ∃ r m₁,
    Search (E.attempt "quantifier" (some predicate) false place c) found m' r m₁ ∧
      E.exprKind (.forAll binds predicate) place c m = (r.map (.bool ·.isNone), m₁)

variable {E : Engine} {place : Location} {c : Context} {m m' : Machine} {binds : List Bind}
  {found : List Matched}

theorem firstMatch_cons {predicate : Option Expr} {body : Stmt} (matched : Matched)
    (rest : List Matched) :
    E.firstMatch predicate body place c (matched :: rest) =
      E.attempt "let be st" predicate true place c matched rest >>= fun child =>
        child.elim (E.firstMatch predicate body place c rest) (E.stmt body) := by
  rw [firstMatch, attempt, bind_assoc]
  refine congrArg _ (funext fun child => ?_)
  rw [bind_assoc]
  have hgo : ∀ holds : Bool,
      (if holds then E.stmt body (child.bindAll matched)
        else E.firstMatch predicate body place c rest) =
        pure (if holds = true then some (child.bindAll matched) else none) >>= fun child =>
          child.elim (E.firstMatch predicate body place c rest) (E.stmt body) := by
    intro holds
    rw [pure_bind]
    cases holds <;> rfl
  cases predicate with
  | none => exact hgo true
  | some p => exact congrArg (E.condition p (child.bindAll matched) >>= ·) (funext hgo)

theorem anyMatch_cons {predicate : Expr} {wanted : Bool} (matched : Matched)
    (rest : List Matched) :
    E.anyMatch predicate wanted place c (matched :: rest) =
      E.attempt "quantifier" (some predicate) wanted place c matched rest >>= fun child =>
        child.elim (E.anyMatch predicate wanted place c rest) fun _ => pure true := by
  rw [anyMatch, attempt, bind_assoc]
  refine congrArg _ (funext fun child => ?_)
  rw [bind_assoc]
  refine congrArg _ (funext fun holds => ?_)
  rw [pure_bind]
  cases holds <;> cases wanted <;> rfl

/-- Quantifiers, which use `anyBinding`, differ in what they look for and in what they make of the
answer. -/
theorem exists_search_anyBinding (h : E.combinations binds place c m = (.ok found, m'))
    (predicate : Expr) (wanted : Bool) (f : Bool → Value) : ∃ r m₁,
      Search (E.attempt "quantifier" (some predicate) wanted place c) found m' r m₁ ∧
        (E.anyBinding binds predicate wanted place c >>= fun b => pure (f b)) m =
          (r.map (f ·.isSome), m₁) := by
  obtain ⟨r, m₁, hsearch, hr⟩ := exists_search anyMatch_cons found m'
  refine ⟨r, m₁, hsearch, ?_⟩
  rw [anyBinding, bind_assoc, bind_of_ok h]
  rcases r with _ | _ | child
  · exact bind_of_error hr
  · exact bind_of_ok hr
  · exact bind_of_ok hr

theorem searches_of_combinations (h : E.combinations binds place c m = (.ok found, m')) :
    E.Searches binds place c m found m' where
  letBeSt predicate body := by
    obtain ⟨r, m₁, hsearch, hr⟩ := exists_search firstMatch_cons found m'
    exact ⟨r, m₁, hsearch, (bind_of_ok h).trans hr⟩
  existsIn predicate := exists_search_anyBinding h predicate true .bool
  forAll predicate := by
    obtain ⟨r, m₁, hsearch, hr⟩ := exists_search_anyBinding h predicate false (.bool !·)
    refine ⟨r, m₁, hsearch, hr.trans ?_⟩
    rcases r with _ | _ | child <;> rfl

end Engine

/-- Binds whose values have no reals and no cells in them range over all choices of one value for
each of them, in lexicographic order. The matches are those of the choices with the patterns, taken
as tuples. Binds that have no match in common before the last one have none in the end. This is what
`let be st`, `exists` and `forall` search, in this order and up to the match that settles them
(`Engine.Searches`). -/
theorem combinations_enumerate_product (h : Heap) (location : Location)
    (candidates : List (Pattern × List Value))
    (hexact : ∀ c ∈ candidates, ∀ v ∈ c.2, v.Exact) :
    let product := choices (candidates.map (·.2))
    let found := product.filterMap fun vs =>
      h.match? ⟨location, .tuple (candidates.map (·.1))⟩ (.tuple vs)
    h.combinations candidates = found ∧
      (∃ indexed : List (List (Value × Nat)), product = indexed.map (·.map (·.1)) ∧
        indexed.Pairwise (List.Lex (·.2 < ·.2)) ∧
        ∀ chosen, chosen ∈ indexed ↔
          List.Forall₂ (fun c values => values[c.2]? = some c.1) chosen
            (candidates.map (·.2))) ∧
      (∀ before after, candidates = before ++ after → h.combinations before = [] → found = []) ∧
      ∀ (E : Engine) (binds : List Bind) (place : Location) (c : Context) (m m' : Machine),
        m'.heap = h → E.allCandidates place c binds m = (.ok candidates, m') →
          E.Searches binds place c m found m' := by
  intro product found
  have hfound : h.combinations candidates = found := Heap.combinations_eq_filterMap location hexact
  refine ⟨hfound, exists_indexed_choices _, ?_, ?_⟩
  · rintro before after rfl hnil
    rw [← hfound]
    exact Heap.combinations_append_of_nil hnil
  · rintro E binds place c m m' rfl hcandidates
    refine Engine.searches_of_combinations ?_
    rw [← hfound]
    exact bind_of_ok hcandidates

/-- Two binds with a name in common, the one over the truth values and the other over pairs of them.
-/
def sharedBinds : List Bind :=
  let name (text : String) : Pattern := ⟨.onLine 1, .ident { module := "M", text }⟩
  [.type (name "x") .bool, .type ⟨.onLine 1, .tuple [name "x", name "y"]⟩ (.product [.bool, .bool])]

def sharedCandidates : List (Pattern × List Value) :=
  List.zipWith (fun b ty => (b.pattern, (Ty.values? ty).getD [])) sharedBinds
    [.bool, .product [.bool, .bool]]

/-- Of eight choices there are four in which the name in common has one value. -/
theorem combinations_enumerate_product_shared :
    let P : Program := { model := {} }
    let m := Machine.initial P {}
    let c : Context :=
      { inner := { id := 0, title := "M", location := .onLine 1 }, thread := mainThread }
    let product := choices (sharedCandidates.map (·.2))
    let found := product.filterMap fun vs =>
      m.heap.match? ⟨.onLine 1, .tuple (sharedCandidates.map (·.1))⟩ (.tuple vs)
    (∀ c ∈ sharedCandidates, ∀ v ∈ c.2, v.Exact) ∧
      product.length = 8 ∧ found.map (·.map (·.1.text)) = List.replicate 4 ["x", "y"] ∧
      m.heap.combinations sharedCandidates = found ∧
      (P.engine 1).Searches sharedBinds (.onLine 1) c m found m := by
  intro P m c product found
  have hexact : ∀ c ∈ sharedCandidates, ∀ v ∈ c.2, v.Exact := by decide +kernel
  obtain ⟨hfound, -, -, hengine⟩ :=
    combinations_enumerate_product m.heap (.onLine 1) sharedCandidates hexact
  have hcandidates : (P.engine 1).allCandidates (.onLine 1) c sharedBinds m =
      (.ok sharedCandidates, m) := rfl
  refine ⟨hexact, by decide +kernel, by decide +kernel, hfound, ?_⟩
  exact hengine _ sharedBinds (.onLine 1) c m m rfl hcandidates

end Animator
