import Animator.Binary64.Decimal
import Animator.Binary64.Scaled
import Animator.Json.Basic

/-!
# Reading JSON texts

A recursive descent over the characters of the text. Control characters in strings are refused, and
so is anything after the document but blanks. What is well formed and yet has no value becomes
`Json.unreadable`: a number too large for a double, a string with a lone surrogate, and a container
inside `Json.depthLimit` others.

How a number becomes a double is a matter of `Json.Rounding`.
-/

namespace Animator

namespace Json

/-- How a decimal becomes a double. -/
inductive Rounding where
  /-- The double nearest to it. -/
  | nearest
  /-- Computed in doubles, rounding at every step. -/
  | stepwise
  deriving DecidableEq, Repr

/-- How many containers may stand inside each other. -/
def depthLimit : Nat := 127

def isBlank (c : Char) : Bool :=
  c == ' ' || c == '\n' || c == '\t' || c == '\r'

def skipBlanks (cs : List Char) : List Char :=
  cs.dropWhile isBlank

def hexDigit? (c : Char) : Option Nat :=
  if '0' ≤ c ∧ c ≤ '9' then some (c.toNat - '0'.toNat)
  else if 'a' ≤ c ∧ c ≤ 'f' then some (c.toNat - 'a'.toNat + 10)
  else if 'A' ≤ c ∧ c ≤ 'F' then some (c.toNat - 'A'.toNat + 10)
  else none

def hexQuad? : List Char → Option (Nat × List Char)
  | a :: b :: c :: d :: rest => do
    let a ← hexDigit? a
    let b ← hexDigit? b
    let c ← hexDigit? c
    let d ← hexDigit? d
    return (((a * 16 + b) * 16 + c) * 16 + d, rest)
  | _ => none

/-- The character of a unicode escape, which takes two escapes above the basic plane. A lone
surrogate stands for no character. -/
def unicodeEscape? (cs : List Char) : Option (Option Char × List Char) := do
  let (unit, rest) ← hexQuad? cs
  if unit < 0xD800 ∨ 0xDFFF < unit then
    return (some (Char.ofNat unit), rest)
  else
    match rest with
    | '\\' :: 'u' :: more =>
      let (low, more) ← hexQuad? more
      if unit < 0xDC00 ∧ 0xDC00 ≤ low ∧ low ≤ 0xDFFF then
        return (some (Char.ofNat (0x10000 + (unit - 0xD800) * 0x400 + (low - 0xDC00))), more)
      else return (none, rest)
    | _ => return (none, rest)

/-- The character after a backslash, if it stands for one. -/
def escape? : List Char → Option (Option Char × List Char)
  | '"' :: rest => some ('"', rest)
  | '\\' :: rest => some ('\\', rest)
  | '/' :: rest => some ('/', rest)
  | 'b' :: rest => some (Char.ofNat 8, rest)
  | 'f' :: rest => some (Char.ofNat 12, rest)
  | 'n' :: rest => some ('\n', rest)
  | 'r' :: rest => some ('\r', rest)
  | 't' :: rest => some ('\t', rest)
  | 'u' :: rest => unicodeEscape? rest
  | _ => none

/-- The characters of a string up to its closing quote; `done` holds those already read, latest
first, or nothing once one of the escapes stood for no character. -/
def stringBody? : Nat → Option (List Char) → List Char → Option (Option String × List Char)
  | 0, _, _ => none
  | fuel + 1, done, cs =>
    match cs with
    | '"' :: rest => some (done.map fun cs => String.ofList cs.reverse, rest)
    | '\\' :: rest => do
      let (c, rest) ← escape? rest
      stringBody? fuel (done.bind fun cs => c.map (· :: cs)) rest
    | c :: rest => if c.toNat < 0x20 then none else stringBody? fuel (done.map (c :: ·)) rest
    | [] => none

def string? (cs : List Char) : Option (Option String × List Char) :=
  stringBody? (cs.length + 1) (some []) cs

/-- The `digits` at the start and what follows them. -/
def digits (cs : List Char) : List Char × List Char :=
  (cs.takeWhile Char.isDigit, cs.dropWhile Char.isDigit)

def digitValue (c : Char) : Nat :=
  c.toNat - '0'.toNat

/-- The natural written by decimal digits. -/
def digitsValue (cs : List Char) : Nat :=
  cs.foldl (fun n c => n * 10 + digitValue c) 0

/-- The `digits` after a decimal point, if there is one. -/
def fractionPart? : List Char → Option (List Char × List Char)
  | '.' :: rest =>
    match digits rest with
    | ([], _) => none
    | found => some found
  | cs => some ([], cs)

/-- The exponent after its mark, if there is one. -/
def exponentPart? (cs : List Char) : Option (Option Int × List Char) :=
  match cs with
  | c :: rest =>
    if c == 'e' || c == 'E' then
      let (negative, rest) :=
        match rest with
        | '+' :: rest => (false, rest)
        | '-' :: rest => (true, rest)
        | _ => (false, rest)
      match digits rest with
      | ([], _) => none
      | (ds, rest) =>
        let n : Int := digitsValue ds
        some (some (if negative then -n else n), rest)
    else some (none, cs)
  | [] => some (none, [])

/-- The double for some digits before the point, some after it, and an `exponent`. -/
def double? (r : Rounding) (negative : Bool) (whole part : List Char) (exponent : Int) :
    Option Binary64 :=
  match r with
  | .nearest => Binary64.ofDecimal? negative (digitsValue (whole ++ part)) (exponent - part.length)
  | .stepwise => Binary64.stepwise? negative (whole.map digitValue) (part.map digitValue) exponent

/-- A number. One written as an integer that fits in 64 bits is exact, except that a negative zero
is a double. One that is too large for a double has no value. -/
def number? (r : Rounding) (cs : List Char) : Option (Json × List Char) := do
  let (negative, cs) :=
    match cs with
    | '-' :: rest => (true, rest)
    | _ => (false, cs)
  let (whole, rest) := digits cs
  if whole.isEmpty || (1 < whole.length && whole.head? == some '0') then none
  let (part, rest) ← fractionPart? rest
  let (exponent, rest) ← exponentPart? rest
  let n := digitsValue whole
  if part.isEmpty && exponent.isNone &&
    (if negative then 0 < n && 2 * n ≤ Word.size64 else n < Word.size64) then
    return (.int (if negative then -(n : Int) else n), rest)
  else
    match double? r negative whole part (exponent.getD 0) with
    | some x => return (.real x, rest)
    | none => return (.unreadable, rest)

/-- The rest of the text after a given word. -/
def word? (word : List Char) (cs : List Char) : Option (List Char) :=
  if word.isPrefixOf cs then some (cs.drop word.length) else none

/-- A container with `depth` containers still allowed. -/
def bounded (depth : Nat) (doc : Json) : Json :=
  if depth = 0 then .unreadable else doc

/-- An object with fields in reverse order, if all of its keys can be read. -/
def ofReversed : Option (List (String × Json)) → Json
  | some fields => .obj fields.reverse
  | none => .unreadable

mutual

/-- A document at the start of the text, with `depth` containers still allowed. -/
def value? (r : Rounding) : Nat → Nat → List Char → Option (Json × List Char)
  | 0, _, _ => none
  | fuel + 1, depth, cs =>
    match skipBlanks cs with
    | '\x7b' :: rest =>
      match skipBlanks rest with
      | '\x7d' :: rest => some (bounded depth (.obj []), rest)
      | rest => do
        let (doc, rest) ← objectBody? r fuel (depth - 1) (some []) rest
        return (bounded depth doc, rest)
    | '[' :: rest =>
      match skipBlanks rest with
      | ']' :: rest => some (bounded depth (.arr []), rest)
      | rest => do
        let (doc, rest) ← arrayBody? r fuel (depth - 1) [] rest
        return (bounded depth doc, rest)
    | '"' :: rest => do
      let (s, rest) ← string? rest
      return ((s.map Json.str).getD .unreadable, rest)
    | 'n' :: rest => (word? "ull".toList rest).map (Json.null, ·)
    | 't' :: rest => (word? "rue".toList rest).map (Json.bool true, ·)
    | 'f' :: rest => (word? "alse".toList rest).map (Json.bool false, ·)
    | cs => number? r cs

/-- The items of an array after its bracket; `done` holds those already read, latest first. -/
def arrayBody? (r : Rounding) : Nat → Nat → List Json → List Char → Option (Json × List Char)
  | 0, _, _, _ => none
  | fuel + 1, depth, done, cs => do
    let (item, rest) ← value? r fuel depth cs
    match skipBlanks rest with
    | ',' :: rest => arrayBody? r fuel depth (item :: done) rest
    | ']' :: rest => return (.arr (item :: done).reverse, rest)
    | _ => none

/-- The fields of an object after its brace; `done` holds those already read, latest first, or
nothing once a key could not be read. -/
def objectBody? (r : Rounding) :
    Nat → Nat → Option (List (String × Json)) → List Char → Option (Json × List Char)
  | 0, _, _, _ => none
  | fuel + 1, depth, done, cs =>
    match skipBlanks cs with
    | '"' :: rest => do
      let (key, rest) ← string? rest
      match skipBlanks rest with
      | ':' :: rest =>
        let (value, rest) ← value? r fuel depth rest
        let done := done.bind fun fields => key.map fun key => (key, value) :: fields
        match skipBlanks rest with
        | ',' :: rest => objectBody? r fuel depth done rest
        | '\x7d' :: rest => return (ofReversed done, rest)
        | _ => none
      | _ => none
    | _ => none

end

/-- Read a text that holds one document. Parts of it may have no value. -/
def parse (r : Rounding) (text : String) : Except Mismatch Json :=
  let cs := text.toList
  match value? r (2 * cs.length + 2) depthLimit cs with
  | some (doc, rest) =>
    if (skipBlanks rest).isEmpty then .ok doc else .error (.malformed rest.length)
  | none => .error (.malformed 0)

/-- Read a text that holds one document, all of whose parts have a value. -/
def parseValue (r : Rounding) (text : String) : Except Mismatch Json := do
  let doc ← parse r text
  if doc.isReadable then return doc else throw (.expected "a readable document")

end Json

end Animator
