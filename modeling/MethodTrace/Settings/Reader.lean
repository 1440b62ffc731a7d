import MethodTrace.Json.Lexeme
import MethodTrace.Settings.Error

/-!
# Reading settings

Settings are read from a JSON object whose members may come in any order and may be left out, or
from an array of values in the order of the fields that may end early. The text is read once from
its start, and the first thing that is wrong with it decides: a value is looked at as soon as it is
complete, a key before what follows it.
-/

namespace MethodTrace.Settings

open Json

/-- What has been read so far. -/
structure Draft where
  threadSlots : Option UInt32
  depthLimit : Option UInt32
  captureReturns : Option Bool
  bufferCapacity : Option UInt64
  expandOnFirstInvoke : Option Bool

namespace Draft

def empty : Draft := ⟨none, none, none, none, none⟩

def has (d : Draft) : Field → Bool
  | .threadSlots => d.threadSlots.isSome
  | .depthLimit => d.depthLimit.isSome
  | .captureReturns => d.captureReturns.isSome
  | .bufferCapacity => d.bufferCapacity.isSome
  | .expandOnFirstInvoke => d.expandOnFirstInvoke.isSome

def settings (d : Draft) : Settings where
  threadSlots := d.threadSlots.getD default.threadSlots
  depthLimit := d.depthLimit.getD default.depthLimit
  captureReturns := d.captureReturns.getD default.captureReturns
  bufferCapacity := d.bufferCapacity.getD default.bufferCapacity
  expandOnFirstInvoke := d.expandOnFirstInvoke.getD default.expandOnFirstInvoke

end Draft

def orMalformed {α : Type} : Option α → Except Error α
  | some a => .ok a
  | none => .error .malformed

/-- The error for a value of another type than the expected one. Brackets are enough to tell, of
everything else the whole value is read first. -/
def mismatch (expected : Expected) (cs : List Char) : Error :=
  let wrong {α : Type} (r : Option α) (f : α → Found) : Error :=
    r.elim .malformed fun a => .rejected (.wrongType (f a) expected)
  match cs with
  | [] => .malformed
  | c :: rest =>
    if c = '[' then .rejected (.wrongType .sequence expected)
    else if c = '\x7b' then .rejected (.wrongType .map expected)
    else if c = 'n' then wrong (readWord ['u', 'l', 'l'] rest) fun _ => .null
    else if c = 't' then wrong (readWord ['r', 'u', 'e'] rest) fun _ => .bool true
    else if c = 'f' then wrong (readWord ['a', 'l', 's', 'e'] rest) fun _ => .bool false
    else if c = '"' then wrong (readString rest) fun (s, _) => .string (String.ofList s)
    else if c = '-' ∨ c.isDigit then
      wrong (readNumber cs) fun
        | (.int n, _) => .int n
        | (.float x, _) => .float x
    else .malformed

/-- A natural number below `bound`. -/
def readNatural (bound : Nat) (expected : Expected) (cs : List Char) :
    Except Error (Nat × List Char) :=
  match cs with
  | [] => .error .malformed
  | c :: _ =>
    if c = '-' ∨ c.isDigit then
      match readNumber cs with
      | none => .error .malformed
      | some (.float x, _) => .error (.rejected (.wrongType (.float x) expected))
      | some (.int n, rest) =>
        if 0 ≤ n ∧ n < bound then .ok (n.toNat, rest)
        else .error (.rejected (.outOfRange n expected))
    else .error (mismatch expected cs)

def readU32 (cs : List Char) : Except Error (UInt32 × List Char) := do
  let (n, rest) ← readNatural UInt32.size .u32 cs
  return (n.toUInt32, rest)

def readU64 (cs : List Char) : Except Error (UInt64 × List Char) := do
  let (n, rest) ← readNatural UInt64.size .u64 cs
  return (n.toUInt64, rest)

def readBool (cs : List Char) : Except Error (Bool × List Char) :=
  match cs with
  | 't' :: rest => do return (true, ← orMalformed (readWord ['r', 'u', 'e'] rest))
  | 'f' :: rest => do return (false, ← orMalformed (readWord ['a', 'l', 's', 'e'] rest))
  | cs => .error (mismatch .boolean cs)

/-- Reads the value of one field. -/
def Draft.read (d : Draft) (f : Field) (cs : List Char) : Except Error (Draft × List Char) :=
  let cs := skipBlanks cs
  match f with
  | .threadSlots => do
    let (n, rest) ← readU32 cs
    return ({ d with threadSlots := some n }, rest)
  | .depthLimit => do
    let (n, rest) ← readU32 cs
    return ({ d with depthLimit := some n }, rest)
  | .captureReturns => do
    let (b, rest) ← readBool cs
    return ({ d with captureReturns := some b }, rest)
  | .bufferCapacity => do
    let (n, rest) ← readU64 cs
    return ({ d with bufferCapacity := some n }, rest)
  | .expandOnFirstInvoke => do
    let (b, rest) ← readBool cs
    return ({ d with expandOnFirstInvoke := some b }, rest)

/-- The start of the next item of a list that ends with `close`, or the rest of the text if the list
ends here. `first` says that no item came before. -/
def nextItem (close : Char) (first : Bool) (cs : List Char) : Except Error (Bool × List Char) :=
  match skipBlanks cs with
  | [] => .error .malformed
  | c :: rest =>
    if c = close then .ok (false, rest)
    else if first then .ok (true, c :: rest)
    else if c = ',' then
      match skipBlanks rest with
      | [] => .error .malformed
      | c :: rest => if c = close then .error .malformed else .ok (true, c :: rest)
    else .error .malformed

/-- A key and the colon after it. -/
def readKey (d : Draft) (cs : List Char) : Except Error (Field × List Char) :=
  match cs with
  | '"' :: rest => do
    let (key, rest) ← orMalformed (readString rest)
    match Field.ofName? (String.ofList key) with
    | none => .error (.rejected (.unknownField (String.ofList key)))
    | some f =>
      if d.has f then .error (.rejected (.repeatedField f))
      else
        match skipBlanks rest with
        | ':' :: rest => return (f, rest)
        | _ => .error .malformed
  | _ => .error .malformed

/-- The members of an object up to its closing brace. Every member fills a field that was empty, so
`fuel` above the number of fields is never used up. -/
def readMembers : Nat → Bool → Draft → List Char → Except Error (Draft × List Char)
  | 0, _, _, _ => .error .malformed
  | fuel + 1, first, d, cs => do
    let (more, cs) ← nextItem '\x7d' first cs
    if more then
      let (f, cs) ← readKey d cs
      let (d, cs) ← d.read f cs
      readMembers fuel false d cs
    else return (d, cs)

/-- The values of an array up to its closing bracket. -/
def readItems (first : Bool) (d : Draft) (cs : List Char) :
    List Field → Except Error (Draft × List Char)
  | [] => do
    let (more, cs) ← nextItem ']' first cs
    if more then .error .malformed else return (d, cs)
  | f :: fields => do
    let (more, cs) ← nextItem ']' first cs
    if more then
      let (d, cs) ← d.read f cs
      readItems false d cs fields
    else return (d, cs)

def readDraft (cs : List Char) : Except Error (Draft × List Char) :=
  match skipBlanks cs with
  | '\x7b' :: rest => readMembers (Field.all.length + 1) true .empty rest
  | '[' :: rest => readItems true .empty rest Field.all
  | cs => .error (mismatch .settings cs)

/-- Settings from a text; they may still be invalid. -/
def ofChars (cs : List Char) : Except Error Settings := do
  let (d, rest) ← readDraft cs
  if (skipBlanks rest).isEmpty then return d.settings else .error .malformed

def ofText (s : String) : Except Error Settings := ofChars s.toList

def check (s : Settings) : Except Error Settings := if s.valid then .ok s else .error .invalid

/-- Valid settings from the content of a file. -/
def ofFile (content : Except FileFault ByteArray) : Except Error Settings :=
  match content with
  | .error f => .error (.file f)
  | .ok bytes =>
    match String.fromUTF8? bytes with
    | none => .error (.file .notText)
    | some s => do (← ofText s).check

end MethodTrace.Settings
