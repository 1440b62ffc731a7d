import MethodTrace.Decimal.Shortest

/-!
# JSON documents

Documents as trees, an object's members in the order in which they are written, and their text:
`compact` without blanks, `pretty` with one item a line, two blanks deeper than what encloses it.
-/

namespace MethodTrace

inductive Json where
  | null
  | bool (b : Bool)
  | int (n : Int)
  | float (x : Binary64)
  | string (s : String)
  | array (items : List Json)
  | object (members : List (String × Json))
deriving Inhabited

namespace Json

def hexDigit (n : Nat) : Char := Nat.digitChar n

/-- Only what must not stand in a string as itself is escaped. -/
def escape (c : Char) : String :=
  match c with
  | '"' => "\\\""
  | '\\' => "\\\\"
  | '\x08' => "\\b"
  | '\x0c' => "\\f"
  | '\n' => "\\n"
  | '\r' => "\\r"
  | '\t' => "\\t"
  | c =>
    if c.toNat < 0x20 then
      "\\u00" ++ String.ofList [hexDigit (c.toNat / 16), hexDigit (c.toNat % 16)]
    else c.toString

def quote (s : String) : String := "\"" ++ String.join (s.toList.map escape) ++ "\""

/-- What is no number is written as null. -/
def number (x : Binary64) : String := if x.isFinite then Decimal.write x else "null"

def commas (items : List String) : String := String.intercalate "," items

def line (depth : Nat) : String := "\n" ++ "".pushn ' ' (2 * depth)

mutual

def compact : Json → String
  | null => "null"
  | bool b => if b then "true" else "false"
  | int n => toString n
  | float x => number x
  | string s => quote s
  | array items => "[" ++ commas (compactItems items) ++ "]"
  | object members => "\x7b" ++ commas (compactMembers members) ++ "\x7d"

def compactItems : List Json → List String
  | [] => []
  | v :: rest => compact v :: compactItems rest

def compactMembers : List (String × Json) → List String
  | [] => []
  | (k, v) :: rest => (quote k ++ ":" ++ compact v) :: compactMembers rest

end

mutual

/-- `depth` is that of the document itself; its items stand one deeper. -/
def prettyAt (depth : Nat) : Json → String
  | null => "null"
  | bool b => if b then "true" else "false"
  | int n => toString n
  | float x => number x
  | string s => quote s
  | array [] => "[]"
  | array (v :: rest) => "[" ++ commas (prettyItems (depth + 1) (v :: rest)) ++ line depth ++ "]"
  | object [] => "\x7b\x7d"
  | object (m :: rest) =>
    "\x7b" ++ commas (prettyMembers (depth + 1) (m :: rest)) ++ line depth ++ "\x7d"

def prettyItems (depth : Nat) : List Json → List String
  | [] => []
  | v :: rest => (line depth ++ prettyAt depth v) :: prettyItems depth rest

def prettyMembers (depth : Nat) : List (String × Json) → List String
  | [] => []
  | (k, v) :: rest =>
    (line depth ++ quote k ++ ": " ++ prettyAt depth v) :: prettyMembers depth rest

end

def pretty (v : Json) : String := prettyAt 0 v

end Json

end MethodTrace
