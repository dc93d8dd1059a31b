import Animator.Proofs.Parts
import Animator.Proofs.Tree.Traverse
import Animator.Tree.Reader
import Animator.Tree.Writer

/-!
# Reading trees back

`Read.Restores x a` says that the reader `x` gives the tree `a` back, up to its counters: those are
taken from the supply, one after the other. There is a rule for each way in which a reader is put
together from readers of parts (`Restores.build₁` and so on, `Restores.fields`, `Restores.required`,
`Restores.list`), and with them every tree up to expressions and functions is read back from the
document it is written as.
-/

namespace Animator

open Json (Mismatch Fields)

open Tree (forget counters Fits)

variable {α β γ δ ε ζ : Type}

/-! ### Lists of trees -/

namespace Tree

variable [Tree α] (a : α) (as : List α)

theorem forget_cons : forget (a :: as) = forget a :: forget as :=
  traverseAll_cons (M := Id) _ a as

theorem counters_cons : counters (a :: as) = counters a ++ counters as :=
  traverseAll_cons (M := Collect CounterId) _ a as

theorem counters_nil : counters ([] : List α) = [] :=
  traverseAll_nil (M := Collect CounterId) _

theorem fits_cons : Fits (a :: as) = (Fits a ∧ Fits as) :=
  traverseAll_cons (M := Everywhere) _ a as

variable {a as}

theorem fits_of_mem (ha : a ∈ as) (h : Fits as) : Fits a := by
  induction as with
  | nil => cases ha
  | cons b as ih =>
    rw [fits_cons] at h
    rcases List.mem_cons.1 ha with rfl | ha
    · exact h.1
    · exact ih ha h.2

end Tree

def Supply.skip (s : Supply) (n : Nat) : Supply :=
  { s with nextCounter := s.nextCounter + n }

namespace Read

theorem run_bind {x : Read α} {f : α → Read β} {listing : Listing} {s s₁ : Supply} {a : α}
    (h : x listing s = .ok (a, s₁)) : (x >>= f) listing s = f a listing s₁ := by
  change (x listing s >>= fun p => f p.1 listing p.2) = _
  rw [h]
  rfl

theorem ok_bind (a : α) (k : α → Read β) :
    (liftM (Except.ok a : Except Mismatch α) >>= k : Read β) = k a :=
  rfl

theorem regroup (x : Read α) (y : Read β) (k : α → β → Read γ) :
    (do let a ← x; let b ← y; k a b) =
      (do let p ← (do let a ← x; let b ← y; return (a, b)); k p.1 p.2) := by
  simp only [bind_assoc, pure_bind]

theorem required_bind (f : Fields) (name : String) (read : Json → Except Mismatch α)
    (k : α → Read β) :
    (do let j ← liftM (f.required name); let a ← liftM (read j); k a) =
      required f name (fun j => liftM (read j)) >>= k :=
  (bind_assoc ..).symm

theorem required_eq {f : Fields} {name : String} {value : Json}
    (hget : f.get? name = some value) (read : Json → Read α) :
    required f name read = read value := by
  rw [required, Fields.required, hget]
  rfl

theorem withDefault_eq {f : Fields} {name : String} {value : Json}
    (hget : f.get? name = some value) (default : α) (read : Json → Read α) :
    withDefault f name default read = read value := by
  rw [withDefault, hget]

/-! ### Reading back -/

/-- Reading gives a tree back, but for the `counters`, which are new. -/
def Restores [Tree α] (x : Read α) (a : α) : Prop :=
  ∀ listing s, ∃ a', x listing s = .ok (a', s.skip (counters a').length) ∧ forget a' = forget a ∧
    counters a' = List.range' s.nextCounter (counters a').length

namespace Restores

section Build

variable [Tree α] [Tree β] [Tree γ] [Tree δ] [Tree ε] [Tree ζ] {x : Read α} {y : Read β}
  {z : Read γ} {u : Read δ} {w : Read ε} {a : α} {b : β} {c : γ} {d : δ} {e : ε}

theorem build₁ {k : α → β} (hx : Restores x a)
    (hk : (fun a => (forget (k a), counters (k a))) = fun a => (k (forget a), counters a)) :
    Restores (do let a ← x; return k a) (k a) := by
  have hforget : ∀ a, forget (k a) = k (forget a) := fun a => congrArg Prod.fst (congrFun hk a)
  have hcounters : ∀ a, counters (k a) = counters a := fun a => congrArg Prod.snd (congrFun hk a)
  intro listing s
  obtain ⟨a', hrun, hforget', hcounters'⟩ := hx listing s
  refine ⟨k a', ?_, ?_, ?_⟩
  · rw [hcounters]
    exact run_bind hrun
  · rw [hforget, hforget, hforget']
  · rw [hcounters]
    exact hcounters'

theorem build₂ {k : α → β → γ} (hx : Restores x a) (hy : Restores y b)
    (hk : (fun a b => (forget (k a b), counters (k a b))) =
      fun a b => (k (forget a) (forget b), counters a ++ counters b)) :
    Restores (do let a ← x; let b ← y; return k a b) (k a b) := by
  have hforget : ∀ a b, forget (k a b) = k (forget a) (forget b) :=
    fun a b => congrArg Prod.fst (congrFun (congrFun hk a) b)
  have hcounters : ∀ a b, counters (k a b) = counters a ++ counters b :=
    fun a b => congrArg Prod.snd (congrFun (congrFun hk a) b)
  intro listing s
  obtain ⟨a', hrun, hforget₁, hcounters₁⟩ := hx listing s
  obtain ⟨b', hrun', hforget₂, hcounters₂⟩ := hy listing (s.skip (counters a').length)
  refine ⟨k a' b', ?_, ?_, ?_⟩
  · rw [hcounters, List.length_append]
    refine (run_bind hrun).trans ((run_bind hrun').trans ?_)
    rw [Supply.skip, Supply.skip, Supply.skip, Nat.add_assoc]
    rfl
  · rw [hforget, hforget, hforget₁, hforget₂]
  · rw [hcounters, List.length_append, ← List.range'_append_1, ← hcounters₁]
    exact congrArg _ hcounters₂

theorem pair (hx : Restores x a) (hy : Restores y b) :
    Restores (do let a ← x; let b ← y; return (a, b)) (a, b) :=
  build₂ hx hy rfl

theorem build₃ {k : α → β → γ → δ} (hx : Restores x a) (hy : Restores y b) (hz : Restores z c)
    (hk : (fun a b c => (forget (k a b c), counters (k a b c))) = fun a b c =>
      (k (forget a) (forget b) (forget c), counters a ++ counters b ++ counters c)) :
    Restores (do let a ← x; let b ← y; let c ← z; return k a b c) (k a b c) := by
  rw [regroup]
  exact build₂ (pair hx hy) hz (congrArg (fun g (p : α × β) => g p.1 p.2) hk)

theorem build₄ {k : α → β → γ → δ → ε} (hx : Restores x a) (hy : Restores y b) (hz : Restores z c)
    (hu : Restores u d)
    (hk : (fun a b c d => (forget (k a b c d), counters (k a b c d))) = fun a b c d =>
      (k (forget a) (forget b) (forget c) (forget d),
        counters a ++ counters b ++ counters c ++ counters d)) :
    Restores (do let a ← x; let b ← y; let c ← z; let d ← u; return k a b c d) (k a b c d) := by
  rw [regroup]
  exact build₃ (pair hx hy) hz hu (congrArg (fun g (p : α × β) => g p.1 p.2) hk)

theorem build₅ {k : α → β → γ → δ → ε → ζ} (hx : Restores x a) (hy : Restores y b)
    (hz : Restores z c) (hu : Restores u d) (hw : Restores w e)
    (hk : (fun a b c d e => (forget (k a b c d e), counters (k a b c d e))) = fun a b c d e =>
      (k (forget a) (forget b) (forget c) (forget d) (forget e),
        counters a ++ counters b ++ counters c ++ counters d ++ counters e)) :
    Restores (do let a ← x; let b ← y; let c ← z; let d ← u; let e ← w; return k a b c d e)
      (k a b c d e) := by
  rw [regroup]
  exact build₄ (pair hx hy) hz hu hw (congrArg (fun g (p : α × β) => g p.1 p.2) hk)

end Build

variable [Tree α]

theorem ofExcept {x : Except Mismatch α} {a : α} (hx : x = .ok a) (hcounters : counters a = []) :
    Restores (liftM x) a := by
  subst hx
  intro listing s
  refine ⟨a, ?_, rfl, ?_⟩
  · rw [hcounters]
    rfl
  · rw [hcounters]
    rfl

theorem fields {j : Json} {names : List String} {f : Fields} {k : Fields → Read α} {a : α}
    (hfields : j.fields names = .ok f) (h : Restores (k f) a) :
    Restores (liftM (j.fields names) >>= k) a := by
  rw [hfields]
  exact h

section Parts

variable {f : Fields} {name : String} {j : Json} {a : α}

theorem required {read : Json → Read α} (hget : f.get? name = some j)
    (h : Restores (read j) a) : Restores (Read.required f name read) a := by
  rw [required_eq hget]
  exact h

theorem string {text : String} (hget : f.get? name = some (.str text)) :
    Restores (Read.string f name) text :=
  required hget (ofExcept rfl rfl)

theorem flag {b : Bool} (hget : f.get? name = some (.bool b)) : Restores (Read.flag f name) b := by
  rw [Read.flag, withDefault_eq hget]
  exact ofExcept rfl rfl

end Parts

theorem list {r : Json → Read α} {toJson : α → Json} {items : List Json} {as : List α}
    (hitems : items = as.map toJson) (h : ∀ a ∈ as, Restores (r (toJson a)) a) :
    Restores (Read.list r (.arr items)) as := by
  subst hitems
  change Restores ((as.map toJson).mapM r) as
  induction as with
  | nil => exact ofExcept (x := .ok []) rfl (Tree.counters_nil)
  | cons a as ih =>
    obtain ⟨hfirst, hrest⟩ := List.forall_mem_cons.1 h
    rw [List.map_cons, List.mapM_cons]
    exact build₂ hfirst (ih hrest) (by
      funext a as
      rw [Tree.forget_cons, Tree.counters_cons])

section Whole

variable {read : Json → Read α} {toJson : α → Json} (h : ∀ a, Fits a → Restores (read (toJson a)) a)
  {f : Fields} {name : String}

include h

theorem all {items : List Json} {as : List α} (hitems : items = as.map toJson) (hfits : Fits as) :
    Restores (Read.list read (.arr items)) as :=
  .list hitems fun a ha => h a (Tree.fits_of_mem ha hfits)

theorem listOrEmpty {items : List Json} {as : List α} (hget : f.get? name = some (.arr items))
    (hitems : items = as.map toJson) (hfits : Fits as) :
    Restores (Read.listOrEmpty f name read) as := by
  rw [Read.listOrEmpty, withDefault_eq hget]
  exact all h hitems hfits

end Whole

theorem optional {f : Fields} {name : String} {read : Json → Read α} {toJson : α → Json}
    {a : Option α} (hget : f.get? name = some (Json.ofOption (a.map toJson)))
    (hnull : ∀ b, toJson b ≠ .null) (hfits : Fits a)
    (h : ∀ b, a = some b → Fits b → Restores (read (toJson b)) b) :
    Restores (Read.optional f name read) a := by
  unfold Read.optional
  cases a with
  | none =>
    rw [hget]
    exact ofExcept (x := .ok none) rfl rfl
  | some b =>
    split
    · next hnone => exact absurd (hget.symm.trans hnone) (Option.some_ne_none _)
    · next hnone => exact absurd (Option.some.inj (hget.symm.trans hnone)) (hnull b)
    · next value _ hvalue =>
      rw [← Option.some.inj (hget.symm.trans hvalue), map_eq_pure_bind]
      exact build₁ (h b rfl hfits) rfl

end Restores

end Read

/-! ### Sizes -/

namespace Json

/-- A bound on the size of a document leaves room for what is inside. -/
theorem exists_succ_of_size_le {j : Json} {n : Nat} (h : j.size ≤ n) : ∃ k, n = k + 1 := by
  have hpos : 0 < j.size := by cases j <;> simp [size]
  exact ⟨n - 1, by omega⟩

theorem size_tagged (tag : String) (j : Json) : (tagged tag j).size = j.size + 1 :=
  rfl

theorem size_taggedObj (tag : String) (parts : List (String × Json)) :
    (taggedObj tag parts).size = sizeFields parts + 2 :=
  rfl

theorem size_arr (items : List Json) : (Json.arr items).size = sizeItems items + 1 := by
  rw [size]

theorem size_obj (fields : List (String × Json)) :
    (Json.obj fields).size = sizeFields fields + 1 := by
  rw [size]

theorem sizeItems_map_le {f : α → Json} {a : α} {as : List α} (h : a ∈ as) :
    (f a).size ≤ sizeItems (as.map f) := by
  induction as with
  | nil => cases h
  | cons first rest ih =>
    rw [List.map_cons, sizeItems]
    rcases List.mem_cons.1 h with rfl | h
    · omega
    · have hrest := ih h
      omega

end Json

/-! ### Types, names and constants -/

theorem Json.eq_map {toJsons : List α → List Json} {toJson : α → Json} (hnil : toJsons [] = [])
    (hcons : ∀ a as, toJsons (a :: as) = toJson a :: toJsons as) (as : List α) :
    toJsons as = as.map toJson := by
  induction as with
  | nil => exact hnil
  | cons a as ih => rw [hcons, ih, List.map_cons]

theorem Ty.toJsons_eq : ∀ ts, Ty.toJsons ts = ts.map Ty.toJson :=
  Json.eq_map rfl fun _ _ => rfl

theorem Json.mapM_map_eq {toJson : α → Json} {read : Json → Except Mismatch α} {as : List α}
    (h : ∀ a ∈ as, read (toJson a) = .ok a) : (as.map toJson).mapM read = .ok as := by
  induction as with
  | nil => rfl
  | cons a as ih =>
    obtain ⟨hfirst, hrest⟩ := List.forall_mem_cons.1 h
    rw [List.map_cons, List.mapM_cons, hfirst, ih hrest]
    rfl

theorem Json.build_eq {x : Except Mismatch α} {a : α} (k : α → β) (hx : x = .ok a) :
    (do return k (← x)) = (Except.ok (k a) : Except Mismatch β) := by
  rw [hx]
  rfl

theorem Ty.read_toJson {n : Nat} {t : Ty} (hn : t.toJson.size ≤ n) :
    Ty.read n t.toJson = .ok t := by
  induction t using Ty.induction_on_parts generalizing n with
  | h t ih =>
    obtain ⟨n, rfl⟩ := Json.exists_succ_of_size_le hn
    have hinner : ∀ u, t.parts = [u] → t.toJson.size = u.toJson.size + 1 →
        Ty.read n u.toJson = .ok u := fun u hu hsize => ih u (hu ▸ List.mem_cons_self) (by omega)
    have hseveral : ∀ us, t.parts = us → t.toJson.size = Json.sizeItems (us.map Ty.toJson) + 2 →
        (Ty.toJsons us).mapM (Ty.read n) = .ok us := by
      intro us hus hsize
      rw [Ty.toJsons_eq]
      refine Json.mapM_map_eq fun u hu => ih u (hus ▸ hu) ?_
      have hle := Json.sizeItems_map_le (f := Ty.toJson) hu
      omega
    cases t with
    | seq t => exact Json.build_eq Ty.seq (hinner t rfl rfl)
    | seq1 t => exact Json.build_eq Ty.seq1 (hinner t rfl rfl)
    | set t => exact Json.build_eq Ty.set (hinner t rfl rfl)
    | optional t => exact Json.build_eq Ty.optional (hinner t rfl rfl)
    | product ts =>
      refine Json.build_eq Ty.product (hseveral ts rfl ?_)
      rw [Ty.toJson, Json.size_tagged, Json.size_arr, Ty.toJsons_eq]
    | union ts =>
      refine Json.build_eq Ty.union (hseveral ts rfl ?_)
      rw [Ty.toJson, Json.size_tagged, Json.size_arr, Ty.toJsons_eq]
    | _ => rfl

theorem Ty.ofJson_toJson (t : Ty) : Ty.ofJson t.toJson = .ok t :=
  Ty.read_toJson (Nat.le_refl _)

theorem Name.ofJson_toJson (name : Name) : Name.ofJson name.toJson = .ok name := by
  obtain ⟨module, text, signature⟩ := name
  cases signature with
  | none => rfl
  | some types =>
    have htypes : (Ty.toJsons types).mapM Ty.ofJson = .ok types := by
      rw [Ty.toJsons_eq]
      exact Json.mapM_map_eq fun t _ => Ty.ofJson_toJson t
    exact Json.build_eq (fun types => (⟨module, text, some types⟩ : Name)) htypes

theorem UnaryOp.ofJson_toJson (op : UnaryOp) : UnaryOp.ofJson op.toJson = .ok op := by
  cases op <;> rfl

theorem BinaryOp.ofJson_toJson (op : BinaryOp) : BinaryOp.ofJson op.toJson = .ok op := by
  cases op <;> rfl

theorem Json.integer_int {low high n : Int} (h : low ≤ n ∧ n ≤ high) :
    Json.integer low high (.int n) = .ok n :=
  if_pos h

theorem Json.natural_ofNat {n bound : Nat} (h : n < bound) :
    Json.natural bound (.ofNat n) = .ok n := by
  refine (if_pos ?_).trans ?_
  · omega
  · rw [Int.toNat_natCast]

theorem Literal.ofJson_toJson {value : Literal} (h : value.Fits) :
    Literal.ofJson value.toJson = .ok value := by
  cases value with
  | int n => exact Json.build_eq Literal.int (Json.integer_int h)
  | char c =>
    have hchar : Json.character (.str (String.singleton c)) = .ok c := by
      simp [Json.character]
    exact Json.build_eq Literal.char hchar
  | _ => rfl

namespace Read

theorem restores_name (name : Name) : Restores (liftM (Name.ofJson name.toJson)) name :=
  .ofExcept name.ofJson_toJson rfl

theorem restores_ty (t : Ty) : Restores (liftM (Ty.ofJson t.toJson)) t :=
  .ofExcept t.ofJson_toJson rfl

theorem restores_types (ts : List Ty) :
    Restores (Read.list (fun j => liftM (Ty.ofJson j)) (.arr (Ty.toJsons ts))) ts :=
  .list (Ty.toJsons_eq ts) fun t _ => restores_ty t

theorem restores_string (text : String) : Restores (liftM (Json.string (.str text))) text :=
  .ofExcept rfl rfl

theorem restores_boolean (b : Bool) : Restores (liftM (Json.boolean (.bool b))) b :=
  .ofExcept rfl rfl

theorem restores_unaryOp (op : UnaryOp) : Restores (liftM (UnaryOp.ofJson op.toJson)) op :=
  .ofExcept op.ofJson_toJson rfl

theorem restores_binaryOp (op : BinaryOp) : Restores (liftM (BinaryOp.ofJson op.toJson)) op :=
  .ofExcept op.ofJson_toJson rfl

theorem restores_literal {value : Literal} (h : Fits value) :
    Restores (liftM (Literal.ofJson value.toJson)) value :=
  .ofExcept (Literal.ofJson_toJson h) rfl

theorem restores_nodeId {f : Fields} {id : NodeId} (hget : f.get? "id" = some (.ofNat id))
    (h : Fits id) : Restores (Read.nodeId f) id := by
  rw [Read.nodeId, hget]
  exact .ofExcept (Json.natural_ofNat h) rfl

theorem word_eq {f : Fields} {name : String} {n : Nat} (hget : f.get? name = some (.ofNat n))
    (hn : n < Word.size32) : word f name = pure n := by
  rw [word, required_eq hget, Json.natural_ofNat hn]
  rfl

end Read

/-- A `Location` is read with a counter of its own. -/
theorem Location.read_toJson {l : Location} (h : l.Fits) :
    Location.read l.toJson = do
      let counter ← Read.freshCounter
      return { l with counter } := by
  obtain ⟨f, hfields, hfile, hline, hcolumn, hendLine, hendColumn, hexecutable⟩ : ∃ f : Fields,
      l.toJson.fields ["file", "line", "column", "end_line", "end_column", "executable"] = .ok f ∧
        f.get? "file" = some (.str l.file) ∧ f.get? "line" = some (.ofNat l.span.line) ∧
        f.get? "column" = some (.ofNat l.span.column) ∧
        f.get? "end_line" = some (.ofNat l.span.endLine) ∧
        f.get? "end_column" = some (.ofNat l.span.endColumn) ∧
        f.get? "executable" = some (.bool l.executable) :=
    ⟨_, rfl, rfl, rfl, rfl, rfl, rfl, rfl⟩
  have hreadable : l.toJson.isReadable = true := rfl
  have hread : Location.read l.toJson = do
      let f ← liftM (l.toJson.fields
        ["file", "line", "column", "end_line", "end_column", "executable"])
      let file ← Read.string f "file"
      let line ← Read.word f "line"
      let column ← Read.word f "column"
      let endLine ← Read.word f "end_line"
      let endColumn ← Read.word f "end_column"
      let executable ← Read.withDefault f "executable" true fun j => j.boolean
      let counter ← Read.freshCounter
      return { file, span := { line, column, endLine, endColumn }, executable, counter } := by
    unfold Location.read
    rw [hreadable]
    rfl
  rw [hread, hfields]
  simp only [Read.ok_bind, Read.string, Read.required_eq hfile, Read.word_eq hline h.line,
    Read.word_eq hcolumn h.column, Read.word_eq hendLine h.endLine,
    Read.word_eq hendColumn h.endColumn,
    Read.withDefault, hexecutable]
  rfl

theorem Read.restores_location {l : Location} (h : Fits l) :
    Restores (Location.read l.toJson) l := by
  rw [Location.read_toJson h]
  exact fun listing s => ⟨{ l with counter := s.nextCounter }, rfl, rfl, rfl⟩

/-! ### Patterns and expressions -/

namespace Read

/-- All trees of a sort whose documents have a bounded size can be read. -/
def Reads [Tree α] (read : Json → Read α) (toJson : α → Json) (n : Nat) : Prop :=
  ∀ a, Fits a → (toJson a).size ≤ n → Restores (read (toJson a)) a

namespace Reads

variable [Tree α] {read : Json → Read α} {toJson : α → Json} {n : Nat}

theorem zero : Reads read toJson 0 := by
  intro a _ hn
  obtain ⟨k, hk⟩ := Json.exists_succ_of_size_le hn
  cases hk

theorem list (h : Reads read toJson n) {items : List Json} {as : List α}
    (hitems : items = as.map toJson) (hfits : Fits as) (hn : Json.sizeItems items ≤ n) :
    Restores (Read.list read (.arr items)) as := by
  refine .list hitems fun a ha => h a (Tree.fits_of_mem ha hfits) ?_
  subst hitems
  exact Nat.le_trans (Json.sizeItems_map_le ha) hn

theorem option (h : Reads read toJson n) {f : Fields} {name : String} {a : Option α}
    (hget : f.get? name = some (Json.ofOption (a.map toJson))) (hnull : ∀ b, toJson b ≠ .null)
    (hfits : Fits a) (hn : (Json.ofOption (a.map toJson)).size ≤ n) :
    Restores (Read.optional f name read) a := by
  refine .optional hget hnull hfits fun b hb hfits => ?_
  subst hb
  exact h b hfits hn

end Reads

end Read

open Read (Restores Reads restores_name restores_ty restores_types restores_string restores_literal
  restores_unaryOp restores_binaryOp restores_location restores_nodeId)

theorem Pattern.toJsons_eq : ∀ ps, Pattern.toJsons ps = ps.map Pattern.toJson :=
  Json.eq_map rfl fun _ _ => rfl

theorem Pattern.reads (n : Nat) : Reads (Pattern.read n) Pattern.toJson n := by
  induction n with
  | zero => exact .zero
  | succ n ih =>
    rintro ⟨location, kind⟩ ⟨hlocation, hkind⟩ hn
    rw [Pattern.read]
    refine .fields rfl (.build₂ (.required rfl (restores_location hlocation))
      (.required (j := kind.toJson) rfl ?_) rfl)
    simp only [Pattern.toJson, Json.size_obj, Json.sizeFields] at hn
    cases kind with
    | ident name => exact .build₁ (restores_name name) rfl
    | ignore => exact .ofExcept (x := .ok PatternKind.ignore) rfl rfl
    | literal value => exact .build₁ (restores_literal hkind) rfl
    | tuple items =>
      simp only [PatternKind.toJson, Json.size_tagged, Json.size_arr] at hn
      have hitems := ih.list (Pattern.toJsons_eq items) hkind (by omega)
      exact .build₁ hitems rfl
    | record tag fields =>
      simp only [PatternKind.toJson, Json.size_taggedObj, Json.sizeFields, Json.size_arr] at hn
      have hfields := ih.list (Pattern.toJsons_eq fields) hkind.2 (by omega)
      exact .build₂ (restores_string tag) hfields rfl
    | seq items =>
      simp only [PatternKind.toJson, Json.size_tagged, Json.size_arr] at hn
      have hitems := ih.list (Pattern.toJsons_eq items) hkind (by omega)
      exact .build₁ hitems rfl

theorem Pattern.restores {p : Pattern} (h : Fits p) : Restores (Pattern.ofJson p.toJson) p :=
  Pattern.reads _ p h (Nat.le_refl _)

theorem Pattern.restores_list {ps : List Pattern} (h : Fits ps) :
    Restores (Read.list Pattern.ofJson (.arr (Pattern.toJsons ps))) ps :=
  .all (fun _ => Pattern.restores) (Pattern.toJsons_eq ps) h

theorem Ty.restores_option (ty : Option Ty) :
    Restores (Read.optional ⟨fun _ => some (Json.ofOption (ty.map Ty.toJson))⟩ ""
      fun j => liftM (Ty.ofJson j)) ty := by
  have hfits : Fits ty := by cases ty <;> trivial
  refine .optional rfl (fun t => ?_) hfits fun t _ _ => restores_ty t
  cases t <;> simp [Ty.toJson, Json.tagged]

theorem Expr.toJsons_eq : ∀ es, Expr.toJsons es = es.map Expr.toJson :=
  Json.eq_map rfl fun _ _ => rfl

theorem Expr.toJson_ne_null (e : Expr) : e.toJson ≠ .null := by
  cases e
  simp [Expr.toJson]

theorem Expr.optionJson_eq (e : Option Expr) :
    Expr.optionJson e = Json.ofOption (e.map Expr.toJson) := by
  cases e <;> rfl

theorem Expr.fieldJsons_eq :
    ∀ fs, Expr.fieldJsons fs = fs.map fun f => .arr [.str f.1, f.2.toJson] :=
  Json.eq_map rfl fun _ _ => rfl

theorem Bind.toJsons_eq : ∀ bs, Bind.toJsons bs = bs.map Bind.toJson :=
  Json.eq_map rfl fun _ _ => rfl

theorem Definition.toJsons_eq : ∀ ds, Definition.toJsons ds = ds.map Definition.toJson :=
  Json.eq_map rfl fun _ _ => rfl

/-- The `Readers` of expressions and of what they are made of read everything up to a size. -/
structure Expr.Readers (n : Nat) : Prop where
  expr : Reads (Expr.read n) Expr.toJson n
  kind : Reads (ExprKind.read n) ExprKind.toJson n
  bind : Reads (Bind.read n) Bind.toJson n
  definition : Reads (Definition.read n) Definition.toJson n
  function : Reads (FunctionDef.read n) FunctionDef.toJson n

namespace Expr.Readers

variable {n : Nat} (h : Readers n)

include h

theorem expr_succ : Reads (Expr.read (n + 1)) Expr.toJson (n + 1) := by
  rintro ⟨id, location, kind⟩ ⟨⟨hid, hlocation⟩, hkind⟩ hn
  simp only [Expr.toJson, Json.size_obj, Json.sizeFields] at hn
  rw [Expr.read]
  exact .fields rfl (.build₃ (restores_nodeId rfl hid) (.required rfl (restores_location hlocation))
    (.required rfl (h.kind kind hkind (by omega))) rfl)

theorem field : Reads
    (fun j => do let (name, value) ← j.pair; return (← name.string, ← Expr.read n value))
    (fun f : String × Expr => .arr [.str f.1, f.2.toJson]) n := by
  rintro ⟨name, value⟩ ⟨-, hvalue⟩ hn
  simp only [Json.size_arr, Json.sizeItems] at hn
  exact .build₂ (restores_string name) (h.expr value hvalue (by omega)) rfl

/-- Expressions that were written can be read again, constructor by constructor. -/
theorem kind_succ : Reads (ExprKind.read (n + 1)) ExprKind.toJson (n + 1) := by
  intro kind hkind hn
  -- Each part is smaller than the whole.
  cases kind with
    simp only [ExprKind.toJson, Json.size_tagged, Json.size_taggedObj, Json.sizeFields,
      Json.size_arr] at hn
  | literal value => exact .build₁ (restores_literal hkind) rfl
  | name name => exact .build₁ (restores_name name) rfl
  | selfRef => exact .ofExcept (x := .ok ExprKind.selfRef) rfl rfl
  | time => exact .ofExcept (x := .ok ExprKind.time) rfl rfl
  | field object field =>
    exact .build₂ (h.expr object hkind.1 (by omega)) (restores_name field) rfl
  | apply root args =>
    exact .build₂ (h.expr root hkind.1 (by omega))
      (h.expr.list (toJsons_eq args) hkind.2 (by omega)) rfl
  | unary op operand =>
    exact .build₂ (restores_unaryOp op) (h.expr operand hkind.2 (by omega)) rfl
  | binary left op right =>
    exact .build₃ (h.expr left hkind.1.1 (by omega)) (restores_binaryOp op)
      (h.expr right hkind.2 (by omega)) rfl
  | cond condition thenBranch elseBranch =>
    exact .build₃ (h.expr condition hkind.1.1 (by omega)) (h.expr thenBranch hkind.1.2 (by omega))
      (h.expr elseBranch hkind.2 (by omega)) rfl
  | letIn defs body =>
    exact .build₂ (h.definition.list (Definition.toJsons_eq defs) hkind.1 (by omega))
      (h.expr body hkind.2 (by omega)) rfl
  | setEnum items =>
    exact .build₁ (h.expr.list (toJsons_eq items) hkind (by omega)) rfl
  | setRange low high =>
    exact .build₂ (h.expr low hkind.1 (by omega)) (h.expr high hkind.2 (by omega)) rfl
  | seqEnum items =>
    exact .build₁ (h.expr.list (toJsons_eq items) hkind (by omega)) rfl
  | tuple items =>
    exact .build₁ (h.expr.list (toJsons_eq items) hkind (by omega)) rfl
  | mkRecord tag fields =>
    exact .build₂ (restores_string tag)
      (h.field.list (fieldJsons_eq fields) hkind.2 (by omega)) rfl
  | new className args =>
    exact .build₂ (restores_string className)
      (h.expr.list (toJsons_eq args) hkind.2 (by omega)) rfl
  | existsIn binds predicate =>
    exact .build₂ (h.bind.list (Bind.toJsons_eq binds) hkind.1 (by omega))
      (h.expr predicate hkind.2 (by omega)) rfl
  | forAll binds predicate =>
    exact .build₂ (h.bind.list (Bind.toJsons_eq binds) hkind.1 (by omega))
      (h.expr predicate hkind.2 (by omega)) rfl

theorem bind_succ : Reads (Bind.read (n + 1)) Bind.toJson (n + 1) := by
  intro bind hbind hn
  cases bind with
  | set pattern set =>
    simp only [Bind.toJson, Json.size_taggedObj, Json.sizeFields] at hn
    exact .build₂ (pattern.restores hbind.1) (h.expr set hbind.2 (by omega)) rfl
  | seq pattern seq =>
    simp only [Bind.toJson, Json.size_taggedObj, Json.sizeFields] at hn
    exact .build₂ (pattern.restores hbind.1) (h.expr seq hbind.2 (by omega)) rfl
  | type pattern ty =>
    exact .build₂ (pattern.restores hbind.1) (restores_ty ty) rfl

theorem definition_succ : Reads (Definition.read (n + 1)) Definition.toJson (n + 1) := by
  rintro ⟨location, kind⟩ ⟨hlocation, hkind⟩ hn
  simp only [Definition.toJson, Json.size_obj, Json.sizeFields] at hn
  rw [Definition.read]
  refine .fields rfl (.build₂ (.required rfl (restores_location hlocation))
    (.required (j := kind.toJson) rfl ?_) rfl)
  cases kind with
  | value pattern ty expr =>
    simp only [DefinitionKind.toJson, Json.size_taggedObj, Json.sizeFields] at hn
    exact .build₃ (pattern.restores hkind.1.1) (Ty.restores_option ty)
      (h.expr expr hkind.2 (by omega)) rfl
  | function func =>
    simp only [DefinitionKind.toJson, Json.size_tagged] at hn
    exact .build₁ (h.function func hkind (by omega)) rfl

theorem function_succ : Reads (FunctionDef.read (n + 1)) FunctionDef.toJson (n + 1) := by
  rintro ⟨name, params, paramTypes, result, body, pre, location⟩
    ⟨⟨⟨⟨⟨⟨-, hparams⟩, -⟩, -⟩, hbody⟩, hpre⟩, hlocation⟩ hn
  simp only [FunctionDef.toJson, Json.size_obj, Json.sizeFields] at hn
  rw [FunctionDef.read]
  simp only [Read.required_bind]
  refine .fields rfl ?_
  rw [Read.regroup, Read.regroup]
  have hpre : Fits pre := by cases pre <;> exact hpre
  rw [optionJson_eq] at hn
  exact .build₅ (.pair (.pair (.required rfl (restores_name name))
    (.required rfl (Pattern.restores_list hparams))) (.required rfl (restores_types paramTypes)))
    (.required rfl (restores_ty result)) (.required rfl (h.expr body hbody (by omega)))
    (h.expr.option (congrArg some (optionJson_eq pre)) toJson_ne_null hpre (by omega))
    (.required rfl (restores_location hlocation)) (by funext _ _ _ pre _; cases pre <;> rfl)

end Expr.Readers

theorem Expr.readers (n : Nat) : Expr.Readers n := by
  induction n with
  | zero => exact ⟨.zero, .zero, .zero, .zero, .zero⟩
  | succ n ih =>
    exact ⟨ih.expr_succ, ih.kind_succ, ih.bind_succ, ih.definition_succ, ih.function_succ⟩

theorem Expr.restores {e : Expr} (h : Fits e) : Restores (Expr.ofJson e.toJson) e :=
  (Expr.readers _).expr e h (Nat.le_refl _)

theorem Expr.restores_list {es : List Expr} (h : Fits es) :
    Restores (Read.list Expr.ofJson (.arr (Expr.toJsons es))) es :=
  .all (fun _ => Expr.restores) (Expr.toJsons_eq es) h

theorem Expr.restores_option {e : Option Expr} (h : Fits e) {f : Fields} {name : String}
    (hget : f.get? name = some (Expr.optionJson e)) :
    Restores (Read.optional f name Expr.ofJson) e :=
  .optional (hget.trans (congrArg some (optionJson_eq e))) toJson_ne_null h fun _ _ => Expr.restores

theorem Expr.restores_optional {e : Option Expr} (h : Fits e) :
    Restores (Read.optional ⟨fun _ => some (Expr.optionJson e)⟩ "" Expr.ofJson) e :=
  restores_option h rfl

theorem Bind.restores {b : Bind} (h : Fits b) : Restores (Bind.ofJson b.toJson) b :=
  (Expr.readers _).bind b h (Nat.le_refl _)

theorem Definition.restores {d : Definition} (h : Fits d) :
    Restores (Definition.ofJson d.toJson) d :=
  (Expr.readers _).definition d h (Nat.le_refl _)

theorem Definition.restores_list {ds : List Definition} (h : Fits ds) :
    Restores (Read.list Definition.ofJson (.arr (Definition.toJsons ds))) ds :=
  .all (fun _ => Definition.restores) (Definition.toJsons_eq ds) h

theorem FunctionDef.restores {d : FunctionDef} (h : Fits d) :
    Restores (FunctionDef.ofJson d.toJson) d :=
  (Expr.readers _).function d h (Nat.le_refl _)

end Animator
