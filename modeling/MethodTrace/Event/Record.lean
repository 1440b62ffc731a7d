import MethodTrace.Event.Kind
import MethodTrace.Event.LittleEndian
import MethodTrace.Event.ReturnValue

/-!
# Records

The form in which an event lies in the queue and crosses to a reader: six fields, 24 bytes.
-/

namespace MethodTrace

structure Record where
  timestamp : UInt64
  payload : UInt64
  thread : UInt32
  method : UInt16
  kind : UInt8
  payloadTag : UInt8
deriving DecidableEq

namespace Record

open LittleEndian

def kind? (r : Record) : Except DecodeError Kind :=
  match Kind.ofCode? r.kind with
  | some k => .ok k
  | none => .error (.unknownKind r.kind)

def returnValue (r : Record) : Except DecodeError (Option ReturnValue) :=
  ReturnValue.ofRaw r.payloadTag r.payload

def toBytes (r : Record) : List UInt8 :=
  LittleEndian.toBytes 8 r.timestamp.toNat ++ LittleEndian.toBytes 8 r.payload.toNat ++
    LittleEndian.toBytes 4 r.thread.toNat ++ LittleEndian.toBytes 2 r.method.toNat ++
    [r.kind, r.payloadTag]

/-- The record laid out in the first 24 bytes. -/
def layout (bytes : List UInt8) : Record where
  timestamp := (ofBytes (bytes.take 8)).toUInt64
  payload := (ofBytes ((bytes.drop 8).take 8)).toUInt64
  thread := (ofBytes ((bytes.drop 16).take 4)).toUInt32
  method := (ofBytes ((bytes.drop 20).take 2)).toUInt16
  kind := (bytes.drop 22).headD 0
  payloadTag := (bytes.drop 23).headD 0

/-- Bytes after the first 24 are ignored. -/
def ofBytes? (bytes : List UInt8) : Except DecodeError Record := do
  if bytes.length < recordSize then throw (.truncated bytes.length)
  let r := layout bytes
  let _ ← r.kind?
  let _ ← r.returnValue
  return r

@[simp] theorem length_toBytes (r : Record) : r.toBytes.length = recordSize := by
  simp [toBytes, recordSize]

end Record

end MethodTrace
