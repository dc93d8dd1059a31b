import Animator.Proofs.Abreast.Basic
import Animator.Proofs.Abreast.Handlers
import Animator.Proofs.Ending

/-!
# Several handlers as traps around each other

The handlers of a statement can be put into traps around its body, the first one innermost. As long
as no handler ends in an exit it makes no difference which form they have: only the exit of a
handler gets to the traps further out, or back to the first handler.

The traps are statements of their own. The thread arrives at each of them before it comes to the
body, so there are more visits and more turns, and the bound has to be larger.
-/

namespace Animator

/-! ### Results that follow each other -/

/-- The first result is that of an evaluation that was cut off, or the second one is the same, on a
machine that has the same gist. -/
abbrev Trails (L : Lull) (out out' : Outcome × Machine) : Prop :=
  (abreast L).Both Eq out out'

namespace Trails

variable {L : Lull} {out out' out'' : Outcome × Machine}

theorem trans (h : Trails L out out') (h' : Trails L out' out'') : Trails L out out'' := by
  rcases h with hcut | ⟨heq, hm⟩
  · exact .inl hcut
  · rw [Trails, Coupling.Both, heq.eq]
    exact h'.imp_right fun hboth => ⟨hboth.1, hm.trans hboth.2⟩

section Engine

variable {P : Program} {E E' : Engine} (S : (abreast L).Sound P E E') {title title' : String}
  {location location' : Location} {c : Context}

include S

/-- Handlers (`takeUp`) do not see what the scope is called that they run in. -/
theorem takeUp {handler : Stmt} {v : Value} {matched : Matched} :
    Abreast L Eq (E.takeUp title location c handler v matched)
      (E'.takeUp title' location' c handler v matched) := by
  refine .bind (Q := Context.Retitled) (Coupling.Holds.bind Abreast.freshContext fun _ _ _ =>
    .pure ?_)
    fun child child' hc => S.stmt (hc.bindAll matched)
  exact (Context.Retitled.refl (c.hold v)).derive rfl ⟨rfl, rfl⟩

theorem caught (h : Trails L out out') (t : Trap) :
    Trails L (E.caught title location c t out) (E'.caught title' location' c t out') := by
  rcases out with ⟨r, m⟩
  rcases out' with ⟨r', m'⟩
  rcases h with ⟨hshort, hcut⟩ | ⟨heq, hm⟩
  · cases hcut
    exact .inl ⟨hshort, rfl⟩
  · obtain rfl : r = r' := heq.eq
    rcases r with halt | a
    · cases halt with
      | exit v raised =>
        -- Both look at the same heap, so it is the same names that are bound.
        have hheap := hm.heap
        cases hmatch : m.heap.match? t.pattern v with
        | none =>
          rw [Engine.caught_of_none hmatch, Engine.caught_of_none (hheap ▸ hmatch)]
          exact .inr ⟨.refl_all _, hm⟩
        | some matched =>
          rw [Engine.caught_of_some hmatch, Engine.caught_of_some (hheap ▸ hmatch)]
          exact takeUp S _ _ hm
      | _ => exact .inr ⟨.refl_all _, hm⟩
    · exact .inr ⟨.refl_all _, hm⟩

theorem settle (h : Trails L out out') (traps : List Trap) :
    Trails L (E.settle title location c traps out) (E'.settle title' location' c traps out') := by
  induction traps generalizing out out' with
  | nil => exact h
  | cons t rest ih => exact ih (h.caught S t)

end Engine

end Trails

/-! ### Traps around each other -/

namespace Program

variable {L : Lull} (P : Program) {c : Context} {m m' : Machine} {title : String}
  {location : Location} (hshort : L.short)

theorem stmt_succ (n : Nat) (s : Stmt) (c : Context) (m : Machine) :
    (P.engine (n + 1)).stmt s c m =
      (do (P.engine n).arrive (.stmt s) c; (P.engine n).stmtKind s.kind s.location c) m :=
  congrFun ((P.engine n).evalStmt_eq_arrive s c) m

theorem stmt_stopped (n : Nat) (s : Stmt) (hm : m.Lulled L)
    (hdebugging : (m.thread c.thread).isDebugging = false)
    (hstop : (m.thread c.thread).stopRequested = true) :
    ∃ m₁, (P.engine (n + 1)).stmt s c m = (.error (.stopped s.location), m₁) ∧
      m.Abreast L m₁ := by
  obtain ⟨m₁, hrun, habreast⟩ := (P.engine n).arrive_stopped (.stmt s) hm hdebugging hstop
  exact ⟨m₁, (P.stmt_succ n s c m).trans (bind_of_error hrun), habreast⟩

/-- A `Trap` around a statement, seen from a machine at which it goes unnoticed. -/
theorem stmt_around (n : Nat) (t : Trap) (inner : Stmt) (hm : m.Lulled L) (hask : m.Unasked c)
    (hnode : L.nodes t.node) :
    (∃ m₁, (P.engine (n + 1)).stmt (t.around inner) c m =
        (P.engine n).caught "trap" inner.location c t ((P.engine n).stmt inner c m₁) ∧
      m.Abreast L m₁) ∨
      (m.thread c.thread).isDebugging = false ∧ (m.thread c.thread).stopRequested = true := by
  refine ((P.engine n).arrive_unseen (.stmt (t.around inner)) hm hask hnode).imp ?_ id
  rintro ⟨m₁, hrun, habreast⟩
  refine ⟨m₁, ?_, habreast⟩
  rw [P.stmt_succ, bind_of_ok hrun]
  exact Engine.trap_apply t inner

include hshort

theorem stmt_trails (n d : Nat) (s : Stmt) (hm : m.Abreast L m') :
    Trails L ((P.engine n).stmt s c m) ((P.engine (n + d)).stmt s c m') :=
  (Abreast.engine L hshort P n d).stmt (.refl c) _ _ hm

theorem caught_trails_around (n : Nat) (t : Trap) (inner : Stmt) (hm : m.Abreast L m')
    (hask : m.Unasked c) (hnode : L.nodes t.node) :
    Trails L ((P.engine n).caught title location c t ((P.engine n).stmt inner c m))
      ((P.engine (n + 1)).stmt (t.around inner) c m') := by
  rcases P.stmt_around n t inner hm.right (hm.unasked hask) hnode with
    ⟨m₁', hrun', habreast⟩ | ⟨hdebugging, hstop⟩
  · -- The bound that is left for the statement inside is the same on both sides.
    rw [hrun']
    exact (P.stmt_trails hshort n 0 inner (hm.trans habreast)).caught (Abreast.engine_self L P n) t
  · obtain ⟨m₁', hrun', habreast'⟩ := P.stmt_stopped n (t.around inner) hm.right hdebugging hstop
    cases n with
    | zero => exact .inl ⟨hshort, rfl⟩
    | succ n =>
      -- The thread stops at the statement inside, which stands at the same place.
      rw [← hm.thread] at hdebugging hstop
      obtain ⟨m₁, hrun, habreast⟩ := P.stmt_stopped n inner hm.lulled hdebugging hstop
      rw [hrun, hrun', Engine.caught_of_ne_exit rfl]
      exact .inr ⟨.refl_all _, habreast.symm.trans (hm.trans habreast')⟩

theorem around_trails_caught (n : Nat) (t : Trap) (inner : Stmt) (hm : m.Abreast L m')
    (hask : m.Unasked c) (hnode : L.nodes t.node) :
    Trails L ((P.engine n).stmt (t.around inner) c m)
      ((P.engine n).caught title location c t ((P.engine n).stmt inner c m')) := by
  cases n with
  | zero => exact .inl ⟨hshort, rfl⟩
  | succ n =>
    rcases P.stmt_around n t inner hm.lulled hask hnode with
      ⟨m₁, hrun, habreast⟩ | ⟨hdebugging, hstop⟩
    · rw [hrun]
      exact (P.stmt_trails hshort n 1 inner (habreast.symm.trans hm)).caught
        (Abreast.engine L hshort P n 1) t
    · obtain ⟨m₁, hrun, habreast⟩ := P.stmt_stopped n (t.around inner) hm.lulled hdebugging hstop
      rw [hm.thread] at hdebugging hstop
      obtain ⟨m₁', hrun', habreast'⟩ := P.stmt_stopped n inner hm.right hdebugging hstop
      rw [hrun, hrun', Engine.caught_of_ne_exit rfl]
      exact .inr ⟨.refl_all _, habreast.symm.trans (hm.trans habreast')⟩

/-- Traps around each other (`nested`) do one after another what they do. Each of them needs the
bound to be larger by one. -/
theorem settle_trails_nested (n : Nat) (inner : Stmt) (traps : List Trap) (hm : m.Abreast L m')
    (hask : m.Unasked c) (hnodes : ∀ t ∈ traps, L.nodes t.node) :
    Trails L ((P.engine n).settle title location c traps ((P.engine n).stmt inner c m))
      ((P.engine (n + traps.length)).stmt (inner.nested traps) c m') := by
  induction traps generalizing inner n m with
  | nil => exact P.stmt_trails hshort n 0 inner hm
  | cons t rest ih =>
    obtain ⟨hnode, hrest⟩ := List.forall_mem_cons.1 hnodes
    have hfirst : Trails L
        ((P.engine n).caught title location c t ((P.engine n).stmt inner c m))
        ((P.engine (n + 1)).stmt (t.around inner) c m') :=
      P.caught_trails_around hshort n t inner hm hask hnode
    have hsettle : Trails L
        ((P.engine n).settle title location c (t :: rest) ((P.engine n).stmt inner c m))
        ((P.engine (n + 1)).settle title location c rest
          ((P.engine (n + 1)).stmt (t.around inner) c m')) :=
      hfirst.settle (Abreast.engine L hshort P n 1) rest
    -- The first trap is the innermost one: it has become part of the statement inside.
    have hnested := ih (n + 1) (t.around inner) (.refl hm.right) (hm.unasked hask) hrest
    rw [Nat.add_right_comm] at hnested
    exact hsettle.trans hnested

theorem nested_trails_settle (n : Nat) (inner : Stmt) (traps : List Trap) (hm : m.Abreast L m')
    (hask : m.Unasked c) (hnodes : ∀ t ∈ traps, L.nodes t.node) :
    Trails L ((P.engine n).stmt (inner.nested traps) c m)
      ((P.engine n).settle title location c traps ((P.engine n).stmt inner c m')) := by
  induction traps generalizing inner with
  | nil => exact P.stmt_trails hshort n 0 inner hm
  | cons t rest ih =>
    obtain ⟨hnode, hrest⟩ := List.forall_mem_cons.1 hnodes
    have hfirst : Trails L ((P.engine n).stmt (t.around inner) c m')
        ((P.engine n).caught title location c t ((P.engine n).stmt inner c m')) :=
      P.around_trails_caught hshort n t inner (.refl hm.right) (hm.unasked hask) hnode
    exact (ih (t.around inner) hrest).trans (hfirst.settle (Abreast.engine_self L P n) rest)

end Program

/-! ### The two forms -/

/-- The traps around a body, in the place of a statement. -/
def Stmt.trapping (s body : Stmt) (inner : List Trap) (outer : Trap) : Stmt :=
  ⟨s.id, s.location, .trap (.pattern outer.pattern) outer.handler (body.nested inner)⟩

namespace Program

/-- No handler that runs for an `exit` of the body ends in an exit. -/
def HandlersEnd (P : Program) (s body : Stmt) (alternatives : List TixeAlternative) (c : Context)
    (m : Machine) : Prop :=
  ∀ n m₁ v raised m₂ r m₃, (P.engine n).arrive (.stmt s) c m = (.ok (), m₁) →
    (P.engine n).stmt body c m₁ = (.error (.exit v raised), m₂) →
    (P.engine n).firstHandler v s.location (c.hold v) alternatives m₂ = (.ok (some r), m₃) →
    Outcome.isExit r = false

/-- It is enough that the handlers never end in an exit, wherever they run. -/
theorem HandlersEnd.of_ends {P : Program} {s body : Stmt} {traps : List Trap} {c : Context}
    {m : Machine} (hends : ∀ t ∈ traps, ∀ n c,
      EndsBy (fun halt => Outcome.isExit (.error halt) = false)
        ((P.engine n).stmt t.handler c)) :
    P.HandlersEnd s body (traps.map Trap.alternative) c m := by
  intro n m₁ v raised m₂ r m₃ _ _ hfirst
  obtain ⟨-, hnone⟩ | ⟨before, t, after, matched, r', m₄, rfl, -, -, htaken, ⟨-, hcut⟩ | htook⟩ :=
    (P.engine n).firstHandler_cases s.location c traps v m₂
  · cases hnone.symm.trans hfirst
  · cases hcut.symm.trans hfirst
  · cases htook.symm.trans hfirst
    cases r with
    | ok a => rfl
    | error halt =>
      -- The scope that a handler runs in is made without ending early.
      have htake : EndsBy (fun halt => Outcome.isExit (.error halt) = false)
          ((P.engine n).takeUp "tixe" s.location c t.handler v matched) := by
        refine .next (.next (.act fun _ => trivial) fun _ => .pure trivial) fun child => ?_
        exact hends t (List.mem_append_right before List.mem_cons_self) n _
      exact htake.halt htaken

/-- A statement comes to its end with an `Outcome` and a heap, if the bound is large enough. -/
def Concludes (P : Program) (s : Stmt) (c : Context) (m : Machine) (r : Outcome) (h : Heap) :
    Prop :=
  ∃ n m', (P.engine n).stmt s c m = (r, m') ∧ r ≠ .error .exhausted ∧ m'.heap = h

variable {L : Lull} {P : Program} {s s' body : Stmt} {traps inner : List Trap} {outer : Trap}
  {c : Context} {m m₁ : Machine} {n : Nat}

theorem Concludes.of_trails {r : Outcome} {h : Heap} {d : Nat}
    (hs : ∀ n, Trails L ((P.engine n).stmt s c m) ((P.engine (n + d)).stmt s' c m))
    (hend : P.Concludes s c m r h) : P.Concludes s' c m r h := by
  obtain ⟨n, m', hrun, hr, rfl⟩ := hend
  have htrails := hs n
  rw [hrun] at htrails
  rcases htrails with ⟨-, hcut⟩ | ⟨heq, hm⟩
  · exact absurd hcut hr
  · exact ⟨n + d, ((P.engine (n + d)).stmt s' c m).2, Prod.ext heq.eq.symm rfl, hr, hm.heap.symm⟩

theorem rounds_ne_zero {v : Value} {raised : Location}
    (hrun : (P.engine n).stmt s c m = (.error (.exit v raised), m₁)) : (P.engine n).rounds ≠ 0 := by
  cases n with
  | zero => cases hrun
  | succ n => exact Nat.succ_ne_zero n

theorem tixe_settles (hs : s.kind = .tixe (traps.map Trap.alternative) body)
    (hends : P.HandlersEnd s body (traps.map Trap.alternative) c m)
    (harrive : (P.engine n).arrive (.stmt s) c m = (.ok (), m₁)) :
    (P.engine n).stmtKind s.kind s.location c m₁ =
      (P.engine n).settle "tixe" s.location c traps ((P.engine n).stmt body c m₁) := by
  rw [hs]
  refine Engine.tixe_eq_settle (fun v raised m₂ hrun => rounds_ne_zero hrun) ?_
  exact fun v raised m₂ r m₃ hrun hfirst => hends n m₁ v raised m₂ r m₃ harrive hrun hfirst

theorem trapping_catches :
    (P.engine n).stmtKind (s.trapping body inner outer).kind (s.trapping body inner outer).location
      c
        m =
      (P.engine n).caught "trap" s.location c outer ((P.engine n).stmt (body.nested inner) c m) :=
  Engine.trap_apply outer (body.nested inner)

theorem match?_of_stmt (hs : s.kind = .tixe (traps.map Trap.alternative) body) {v : Value}
    {raised : Location} (hrun : (P.engine n).stmt s c m = (.error (.exit v raised), m₁)) :
    ∀ t ∈ traps, m₁.heap.match? t.pattern v = none := by
  cases n with
  | zero => cases hrun
  | succ n =>
    rw [P.stmt_succ] at hrun
    rcases harrive : (P.engine n).arrive (.stmt s) c m with ⟨halt | u, m₂⟩
    · -- The thread does not arrive with an exit.
      have hends : EndsBy (·.isUnwinding = true) ((P.engine n).arrive (.stmt s) c) :=
        .arrive fun _ hh => hh
      have hunwinding := hends.halt harrive
      rw [bind_of_error harrive] at hrun
      cases hrun
      cases hunwinding
    · rw [bind_of_ok harrive, hs] at hrun
      exact Engine.match?_of_tixe hrun

section Forms

variable (hs : s.kind = .tixe ((inner ++ [outer]).map Trap.alternative) body)
  (hends : P.HandlersEnd s body ((inner ++ [outer]).map Trap.alternative) c m)
  (hm : m.Lulled L) (hshort : L.short) (hnodes : ∀ t ∈ inner, L.nodes t.node)

include hs hends hm hshort hnodes

/-- Traps do what (`Trails`) the statement with several handlers does, if the bound is large enough.
-/
theorem tixe_trails_trapping (n : Nat) :
    Trails L ((P.engine n).stmt s c m)
      ((P.engine (n + inner.length)).stmt (s.trapping body inner outer) c m) := by
  cases n with
  | zero => exact .inl ⟨hshort, rfl⟩
  | succ n =>
    have S := Abreast.engine L hshort P n inner.length
    rw [Nat.add_right_comm, P.stmt_succ, P.stmt_succ]
    refine Coupling.Holds.bindAt (Abreast.arrive S (.refl c) rfl rfl) (.refl hm) ?_
    intro _ _ m₁ m₁' _ hrun hrun' hm₁
    have hask := unasked_of_arrive hm.link hrun
    -- The last trap stands in the place of the statement, and the others are around the body.
    rw [tixe_settles hs hends hrun, Engine.settle_append, trapping_catches]
    exact (P.settle_trails_nested hshort n body inner hm₁ hask hnodes).caught S outer

theorem trapping_trails_tixe (n : Nat) :
    Trails L ((P.engine n).stmt (s.trapping body inner outer) c m) ((P.engine n).stmt s c m) := by
  cases n with
  | zero => exact .inl ⟨hshort, rfl⟩
  | succ n =>
    have S := Abreast.engine_self L P n
    rw [P.stmt_succ, P.stmt_succ]
    refine Coupling.Holds.bindAt (Abreast.arrive S (.refl c) rfl rfl) (.refl hm) ?_
    intro _ _ m₁ m₁' _ hrun hrun' hm₁
    have hask := unasked_of_arrive hm.link hrun
    rw [tixe_settles hs hends hrun', Engine.settle_append, trapping_catches]
    exact (P.nested_trails_settle hshort n body inner hm₁ hask hnodes).caught S outer

end Forms

end Program

/-- A statement with several handlers whose patterns stand alone, without a debugger. No `pattern`
matches the value of an `exit` that it ends in. If no handler that runs ends in an exit then it
comes to the same end as the traps around each other, the first one innermost and the last one in
its place: with the same outcome, cells and objects. An exit of its body is then handled by the
first handler whose pattern matches, and by no other one.

The traps in between are new statements, whose numbers are free to choose: they must not be those of
breakpoints. -/
theorem tixe_as_traps (P : Program) (s body : Stmt) (traps : List Trap) (c : Context) (m : Machine)
    (hs : s.kind = .tixe (traps.map Trap.alternative) body) (hlink : m.link = none) :
    (∀ n v raised m', (P.engine n).stmt s c m = (.error (.exit v raised), m') →
      ∀ t ∈ traps, m'.heap.match? t.pattern v = none) ∧
    (P.HandlersEnd s body (traps.map Trap.alternative) c m →
      (∀ inner outer, traps = inner ++ [outer] →
        (∀ t ∈ inner, m.breakpoints.at? t.node = none) →
        ∀ r h, P.Concludes s c m r h ↔ P.Concludes (s.trapping body inner outer) c m r h) ∧
      ∀ n m₁ v raised m₂, (P.engine n).arrive (.stmt s) c m = (.ok (), m₁) →
        (P.engine n).stmt body c m₁ = (.error (.exit v raised), m₂) →
        ((∀ t ∈ traps, m₂.heap.match? t.pattern v = none) →
          (P.engine (n + 1)).stmt s c m = (.error (.exit v raised), m₂)) ∧
        ∀ before t after matched, traps = before ++ t :: after →
          (∀ u ∈ before, m₂.heap.match? u.pattern v = none) →
          m₂.heap.match? t.pattern v = some matched →
          (P.engine (n + 1)).stmt s c m =
            (P.engine n).takeUp "tixe" s.location c t.handler v matched m₂) := by
  refine ⟨fun n v raised m' hrun => P.match?_of_stmt hs hrun, fun hends => ⟨?_, ?_⟩⟩
  · rintro inner outer rfl hnodes r h
    -- Requests may come at any time. Only breakpoints at the traps in between would be noticed.
    have hm : m.Lulled { silent := False, nodes := (· ∈ inner.map Trap.node) } := by
      refine ⟨hlink, False.elim, fun node hnode => ?_⟩
      obtain ⟨t, ht, rfl⟩ := List.mem_map.1 hnode
      exact hnodes t ht
    have hmem : ∀ t ∈ inner, t.node ∈ inner.map Trap.node := fun t => List.mem_map_of_mem
    constructor
    · exact Program.Concludes.of_trails (Program.tixe_trails_trapping hs hends hm trivial hmem)
    · exact Program.Concludes.of_trails (d := 0)
        (Program.trapping_trails_tixe hs hends hm trivial hmem)
  · intro n m₁ v raised m₂ harrive hbody
    have hsettles := Program.tixe_settles hs hends harrive
    rw [hbody] at hsettles
    rw [P.stmt_succ, bind_of_ok harrive, hsettles]
    refine ⟨Engine.settle_of_none, fun before t after matched htraps hbefore hmatched => ?_⟩
    exact Engine.settle_eq_takeUp htraps hbefore hmatched fun r m₃ =>
      hends n m₁ v raised m₂ r m₃ harrive hbody

/-! ### A pair of handlers -/

def returning (k : Int) : Stmt :=
  .onLine 3 (.return (some (.onLine 4 (.literal (.int k)))))

theorem ends_returning (P : Program) (k : Int) (n : Nat) (c : Context) :
    EndsBy (fun halt => Outcome.isExit (.error halt) = false)
      ((P.engine n).stmt (returning k) c) := by
  have hunwinding : ∀ halt : Halt, halt.isUnwinding = true → Outcome.isExit (.error halt) =
      false := by
    intro halt hhalt
    cases halt with
    | exit => cases hhalt
    | _ => rfl
  have hliteral : ∀ n, EndsBy (fun halt => Outcome.isExit (.error halt) = false)
      ((P.engine n).expr (.onLine 4 (.literal (.int k))) c) := by
    intro n
    cases n with
    | zero => exact .throw rfl
    | succ n =>
      change Ends _ _ ((P.engine n).evalExpr (.onLine 4 (.literal (.int k))) c)
      rw [Engine.evalExpr_eq_arrive]
      exact .next (.arrive hunwinding) fun _ => .pure trivial
  cases n with
  | zero => exact .throw rfl
  | succ n =>
    change Ends _ _ ((P.engine n).evalStmt (returning k) c)
    rw [Engine.evalStmt_eq_arrive]
    exact .next (.arrive hunwinding) fun _ => .next (hliteral n) fun _ => .pure trivial

def oneTrap : Trap :=
  ⟨10, ⟨.onLine 3, .literal (.int 1)⟩, returning 10⟩

def restTrap : Trap :=
  ⟨11, ⟨.onLine 3, .ignore⟩, returning 20⟩

def raisingTwo : Stmt :=
  .onLine 2 (.exit (some (.onLine 2 (.literal (.int 2)))))

def pairTixe : Stmt :=
  .onLine 1 (.tixe ([oneTrap, restTrap].map Trap.alternative) raisingTwo)

def pairMachine : Machine :=
  Machine.initial { model := {} } {}

def pairRun : Outcome × Machine :=
  (Program.engine { model := {} } 9).stmt pairTixe (.binding []) pairMachine

/-- The first pattern does not match, so the second handler runs, and it does so as well if the
handlers are traps (`oneTrap`, `restTrap`). -/
theorem tixe_as_traps_pair :
    let P : Program := { model := {} }
    pairTixe.kind = .tixe ([oneTrap, restTrap].map Trap.alternative) raisingTwo ∧
      pairMachine.link = none ∧
      P.HandlersEnd pairTixe raisingTwo ([oneTrap, restTrap].map Trap.alternative) (.binding [])
        pairMachine ∧
      pairRun.1.toOption.map pairRun.2.heap.text = some "20" ∧
      P.Concludes (pairTixe.trapping raisingTwo [oneTrap] restTrap) (.binding []) pairMachine
        pairRun.1 pairRun.2.heap := by
  intro P
  have hends : P.HandlersEnd pairTixe raisingTwo ([oneTrap, restTrap].map Trap.alternative)
      (.binding []) pairMachine := by
    refine .of_ends fun t ht n c => ?_
    rcases List.mem_pair.1 ht with rfl | rfl
    · exact ends_returning P 10 n c
    · exact ends_returning P 20 n c
  have htext : pairRun.1.toOption.map pairRun.2.heap.text = some "20" := by decide +kernel
  have hend : pairRun.1 ≠ .error .exhausted := by
    intro hcut
    rw [hcut] at htext
    cases htext
  have hrun : P.Concludes pairTixe (.binding []) pairMachine pairRun.1 pairRun.2.heap :=
    ⟨9, pairRun.2, (Prod.eta pairRun).symm, hend, rfl⟩
  obtain ⟨-, hforms⟩ := tixe_as_traps P pairTixe raisingTwo [oneTrap, restTrap] (.binding [])
    pairMachine rfl rfl
  have hsame := (hforms hends).1 [oneTrap] restTrap rfl (fun t ht => rfl) pairRun.1 pairRun.2.heap
  exact ⟨rfl, rfl, hends, htext, hsame.1 hrun⟩

end Animator
