/-!
# Locations and hit counters

A `Location` is a span within a named file together with the hit counter that execution of the
node at that place increments. Counters are named by numbers, so two locations share a counter
exactly when they carry the same number, and `Hits` holds the counts.
-/

namespace Animator

/-- A source `Span`; positions count from one. -/
structure Span where
  line : Nat := 0
  column : Nat := 0
  endLine : Nat := 0
  endColumn : Nat := 0
  deriving DecidableEq, Repr, Inhabited

abbrev CounterId := Nat

/-- The number of a statement or expression node, to which breakpoints attach. -/
abbrev NodeId := Nat

/-- A place in a source `file`. -/
structure Location where
  file : String
  span : Span
  executable : Bool := true
  counter : CounterId := 0
  deriving DecidableEq, Repr, Inhabited

namespace Location

/-- A place that never shows up in coverage reports. -/
def internal (file : String) : Location :=
  { file, span := {}, executable := false }

/-- The line on which the `span` starts. -/
def line (l : Location) : Nat :=
  l.span.line

/-- The same place: `file` and `span` agree. -/
def same (a b : Location) : Bool :=
  a.file == b.file && a.span == b.span

/-- The two places count into one total. -/
def sharesHits (a b : Location) : Bool :=
  a.counter == b.counter

def text (l : Location) : String :=
  l.file ++ ":" ++ toString l.span.line ++ ":" ++ toString l.span.column

end Location

/-- The `counts` of all hit `counters`. -/
structure Hits where
  /-- The count of each counter; a counter beyond the end has not been hit. -/
  counts : Array Nat := #[]
  /-- The counters that a hit was taken back from, the latest first. Nothing looks at this later. -/
  takenBack : List CounterId := []
  deriving Inhabited

namespace Hits

def count (h : Hits) (c : CounterId) : Nat :=
  h.counts.getD c 0

def set (h : Hits) (c : CounterId) (n : Nat) : Hits :=
  if c < h.counts.size then { h with counts := h.counts.setIfInBounds c n }
  else { h with counts := (h.counts ++ Array.replicate (c - h.counts.size) 0).push n }

def hit (h : Hits) (c : CounterId) : Hits :=
  h.set c (h.count c + 1)

/-- Take one hit back; there are never fewer than none. -/
def unhit (h : Hits) (c : CounterId) : Hits :=
  { h.set c (h.count c - 1) with takenBack := c :: h.takenBack }

/-- Forget the `Hits` of one counter. -/
def reset (h : Hits) (c : CounterId) : Hits :=
  h.set c 0

/-- Setting a counter with `set` is seen at that counter and nowhere else. -/
theorem count_set (h : Hits) (c d n : Nat) :
    (h.set c n).count d = if d = c then n else h.count d := by
  by_cases hc : c < h.counts.size
  · simp only [set, count, hc, if_true, Array.getD_eq_getD_getElem?,
      Array.getElem?_setIfInBounds]
    by_cases hd : c = d
    · subst hd
      simp
    · simp [hd, Ne.symm hd]
  · have hsize : h.counts.size + (c - h.counts.size) = c := by omega
    simp only [set, count, hc, if_false, Array.getD_eq_getD_getElem?, Array.getElem?_push,
      Array.getElem?_append, Array.size_append, Array.size_replicate, Array.getElem?_replicate,
      hsize]
    by_cases hd : d = c
    · simp [hd]
    · by_cases hlt : d < h.counts.size
      · simp [hd, hlt]
      · simp only [hd, hlt, if_false]
        split <;> simp [Array.getElem?_eq_none (Nat.le_of_not_lt hlt)]

theorem count_hit (h : Hits) (c d : Nat) :
    (h.hit c).count d = if d = c then h.count c + 1 else h.count d :=
  count_set h c d _

/-- A hit that is taken back by `unhit` lowers its counter by one, unless there was none. -/
theorem count_unhit (h : Hits) (c d : Nat) :
    (h.unhit c).count d = if d = c then h.count c - 1 else h.count d :=
  count_set h c d _

@[simp]
theorem takenBack_set (h : Hits) (c n : Nat) : (h.set c n).takenBack = h.takenBack := by
  unfold set
  split <;> rfl

@[simp]
theorem takenBack_hit (h : Hits) (c : Nat) : (h.hit c).takenBack = h.takenBack :=
  takenBack_set h c _

end Hits

end Animator
