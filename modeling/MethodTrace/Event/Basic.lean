import MethodTrace.Event.Identifier
import MethodTrace.Event.Record

/-!
# Events

What happened to which thread in which method and when. Only exits return anything, so `encode`
leaves the value out elsewhere; `decode` takes what the record holds.
-/

namespace MethodTrace

structure Event where
  kind : Kind
  method : MethodId
  thread : ThreadNo
  timestamp : Timestamp
  ret : Option ReturnValue
deriving DecidableEq

namespace Event

def encode (e : Event) : Record :=
  let ret := if e.kind.isExit then e.ret else none
  { timestamp := e.timestamp.nanos
    payload := ret.elim 0 ReturnValue.payload
    thread := e.thread.val
    method := e.method.val
    kind := e.kind.code
    payloadTag := ret.elim 0 ReturnValue.tag }

def decode (r : Record) : Except DecodeError Event := do
  let kind ← r.kind?
  let ret ← r.returnValue
  return ⟨kind, ⟨r.method⟩, ⟨r.thread⟩, ⟨r.timestamp⟩, ret⟩

end Event

end MethodTrace
