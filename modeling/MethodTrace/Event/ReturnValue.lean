import MethodTrace.Decimal.Binary64

/-!
# Return values

What an exit event may carry, as a tag and 64 bits. Tag 0 stands for no value.
-/

namespace MethodTrace

inductive ReturnValue where
  | bool (b : Bool)
  | char (c : Char)
  | int (i : Int64)
  | float (x : Binary64)
  | object (id : UInt64)
deriving DecidableEq

/-- Why bytes or a record are no event. -/
inductive DecodeError where
  | unknownKind (code : UInt8)
  | unknownPayloadTag (tag : UInt8)
  | invalidChar (payload : UInt64)
  | truncated (size : Nat)
deriving DecidableEq

/-- A record's size in bytes. -/
def recordSize : Nat := 24

def DecodeError.message : DecodeError → String
  | .unknownKind k => s!"unknown event kind {k.toNat}"
  | .unknownPayloadTag t => s!"unknown payload tag {t.toNat}"
  | .invalidChar p =>
    "payload 0x" ++ String.ofList (Nat.toDigits 16 p.toNat) ++ " is not a valid char"
  | .truncated n => s!"record truncated: expected {recordSize} bytes, got {n}"

namespace ReturnValue

def tag : ReturnValue → UInt8
  | bool _ => 1
  | char _ => 2
  | int _ => 3
  | float _ => 4
  | object _ => 5

def payload : ReturnValue → UInt64
  | bool b => if b then 1 else 0
  | char c => c.val.toUInt64
  | int i => i.toUInt64
  | float x => x.bits
  | object id => id

/-- The character with the given number, unless it is a surrogate or too large. -/
def char? (payload : UInt64) : Option Char :=
  if h : payload.toNat.isValidChar then some (Char.ofNatAux payload.toNat h) else none

def ofRaw (tag : UInt8) (payload : UInt64) : Except DecodeError (Option ReturnValue) :=
  if tag = 0 then .ok none
  else if tag = 1 then .ok (some (bool (payload != 0)))
  else if tag = 2 then
    match char? payload with
    | some c => .ok (some (char c))
    | none => .error (.invalidChar payload)
  else if tag = 3 then .ok (some (int payload.toInt64))
  else if tag = 4 then .ok (some (float ⟨payload⟩))
  else if tag = 5 then .ok (some (object payload))
  else .error (.unknownPayloadTag tag)

end ReturnValue

end MethodTrace
