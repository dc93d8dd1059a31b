import Animator.Binary64.Decimal
import Animator.Tree.Walk
import Animator.Tree.Writer

/-!
# Coverage

The executable places of a model with the number of times each was reached. A place at which
several nodes start is listed once, with the count of the first of them on the walk.
-/

namespace Animator

/-- The `hits` of one place. -/
structure CoverageEntry where
  file : String
  line : Nat
  column : Nat
  hits : Nat
  deriving DecidableEq, Repr, Inhabited

namespace CoverageEntry

/-- Entries are ordered by `file`, line and `column`. -/
def compare (a b : CoverageEntry) : Ordering :=
  (Ord.compare a.file b.file).then
    ((Ord.compare a.line b.line).then (Ord.compare a.column b.column))

/-- Put an entry in its place, unless its place is taken. -/
def insertNew (e : CoverageEntry) : List CoverageEntry → List CoverageEntry
  | [] => [e]
  | other :: rest =>
    match e.compare other with
    | .lt => e :: other :: rest
    | .eq => other :: rest
    | .gt => other :: insertNew e rest

def ofLocation (hits : Hits) (l : Location) : CoverageEntry :=
  { file := l.file, line := l.span.line, column := l.span.column, hits := hits.count l.counter }

end CoverageEntry

structure Coverage where
  entries : List CoverageEntry
  deriving DecidableEq, Repr, Inhabited

namespace Coverage

/-- Gather the `executable` places of a model. -/
def collect (model : Model) (hits : Hits) : Coverage :=
  let places := (model.walk.map (·.location)).filter (·.executable)
  ⟨places.foldl (fun entries l => CoverageEntry.insertNew (.ofLocation hits l) entries) []⟩

/-- The places that were never reached. -/
def missed (c : Coverage) : List CoverageEntry :=
  c.entries.filter (·.hits == 0)

def total (c : Coverage) : Nat :=
  c.entries.length

def covered (c : Coverage) : Nat :=
  (c.entries.filter (0 < ·.hits)).length

/-- The share of places that were reached, in `percent`. -/
def percent (c : Coverage) : Binary64 :=
  if c.total = 0 then .ofInt 100 else .ofInt c.covered * .ofInt 100 / .ofInt c.total

/-- The places that were `missed`, and a summary. -/
def text (c : Coverage) : String :=
  let missing := c.missed.map fun e =>
    "  not covered: " ++ e.file ++ ":" ++ toString e.line ++ ":" ++ toString e.column ++ "\n"
  String.join missing ++ toString c.covered ++ " of " ++ toString c.total ++ " locations covered ("
    ++ c.percent.fixed 1 ++ "%)\n"

def toJson (c : Coverage) : Json :=
  .obj [
    ("entries", .arr (c.entries.map fun e => .obj [
      ("file", .str e.file), ("line", .ofNat e.line), ("column", .ofNat e.column),
      ("hits", .ofNat e.hits)])),
    ("covered", .ofNat c.covered),
    ("total", .ofNat c.total)]

end Coverage

end Animator
