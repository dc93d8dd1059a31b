import Animator.Binary64.Decimal
import Animator.Json.Basic

/-!
# Writing JSON texts

`Json.compress` writes a document on one line without blanks, `Json.pretty` over several lines with
an indentation of two. Doubles have the fewest digits that read back, without an exponent where
between 10⁻⁵ and 10¹⁶, and always with a point or an exponent; of two texts that are equally short
and equally near, the one with the even last digit is written.
-/

namespace Animator

namespace Json

/-- One hexadecimal digit, in lower case. -/
def hexChar (n : Nat) : Char :=
  if n < 10 then Char.ofNat ('0'.toNat + n) else Char.ofNat ('a'.toNat + n - 10)

def escapeChar (c : Char) : String :=
  if c == '"' then "\\\""
  else if c == '\\' then "\\\\"
  else if c == '\n' then "\\n"
  else if c == '\r' then "\\r"
  else if c == '\t' then "\\t"
  else if c.toNat = 8 then "\\b"
  else if c.toNat = 12 then "\\f"
  else if c.toNat < 0x20 then ("\\u00".push (hexChar (c.toNat / 16))).push (hexChar (c.toNat % 16))
  else String.singleton c

def quote (s : String) : String :=
  s.toList.foldl (fun text c => text ++ escapeChar c) "\"" ++ "\""

/-- A double: its `shortest` `digits`, with an exponent when the point would be far away. A double
that is no number is written as null. -/
def numeral (x : Binary64) : String :=
  if !x.isFinite then "null"
  else
    let sign := if x.negative then "-" else ""
    let d := x.shortest .even
    let text := toString d.digits
    let point : Int := (text.length : Int) + d.exponent
    if x.isZero then sign ++ "0.0"
    else if 0 ≤ d.exponent ∧ point ≤ 16 then sign ++ text.pushn '0' d.exponent.toNat ++ ".0"
    else if -5 < point ∧ point ≤ 16 then sign ++ d.positional
    else
      let tail := if text.length = 1 then "" else "." ++ String.ofList (text.toList.drop 1)
      sign ++ String.ofList (text.toList.take 1) ++ tail ++ "e" ++ (if 0 < point then "+" else "")
        ++ toString (point - 1)

mutual

/-- Write a document without blanks; a part without a value is written as null. -/
def compress : Json → String
  | .null | .unreadable => "null"
  | .bool true => "true"
  | .bool false => "false"
  | .int n => toString n
  | .real x => numeral x
  | .str s => quote s
  | .arr items => "[" ++ ",".intercalate (compressItems items) ++ "]"
  | .obj fields => "\x7b" ++ ",".intercalate (compressFields fields) ++ "\x7d"

def compressItems : List Json → List String
  | [] => []
  | item :: rest => item.compress :: compressItems rest

def compressFields : List (String × Json) → List String
  | [] => []
  | (key, value) :: rest => (quote key ++ ":" ++ value.compress) :: compressFields rest

end

/-- The blanks at the start of a line. -/
def indentation (level : Nat) : String :=
  "\n".pushn ' ' (2 * level)

mutual

/-- Write a document over several lines, itself starting at an `indentation` level. -/
def prettyAt (level : Nat) : Json → String
  | .arr (item :: rest) =>
    "[" ++ ",".intercalate (prettyItems level (item :: rest)) ++ indentation level ++ "]"
  | .obj (field :: rest) =>
    "\x7b" ++ ",".intercalate (prettyFields level (field :: rest)) ++ indentation level ++ "\x7d"
  | other => other.compress

def prettyItems (level : Nat) : List Json → List String
  | [] => []
  | item :: rest => (indentation (level + 1) ++ item.prettyAt (level + 1)) :: prettyItems level rest

def prettyFields (level : Nat) : List (String × Json) → List String
  | [] => []
  | (key, value) :: rest =>
    (indentation (level + 1) ++ quote key ++ ": " ++ value.prettyAt (level + 1)) ::
      prettyFields level rest

end

def pretty (doc : Json) : String :=
  doc.prettyAt 0

end Json

end Animator
