import MethodTrace.Json.Document

/-!
# Settings of a tracer

Five settings, each with a default. Only a queue without room is refused.
-/

namespace MethodTrace

structure Settings where
  threadSlots : UInt32
  depthLimit : UInt32
  captureReturns : Bool
  bufferCapacity : UInt64
  expandOnFirstInvoke : Bool
deriving DecidableEq

namespace Settings

def default : Settings where
  threadSlots := 64
  depthLimit := 0xffffffff
  captureReturns := false
  bufferCapacity := 65536
  expandOnFirstInvoke := true

inductive Field where
  | threadSlots
  | depthLimit
  | captureReturns
  | bufferCapacity
  | expandOnFirstInvoke
deriving DecidableEq

namespace Field

/-- In the order in which they are written. -/
def all : List Field :=
  [threadSlots, depthLimit, captureReturns, bufferCapacity, expandOnFirstInvoke]

def name : Field → String
  | threadSlots => "profiled_threads_allowed"
  | depthLimit => "stack_depth_limit"
  | captureReturns => "capture_return_values"
  | bufferCapacity => "buffer_capacity"
  | expandOnFirstInvoke => "expand_on_first_invoke"

def ofName? (s : String) : Option Field := all.find? (·.name = s)

theorem mem_all (f : Field) : f ∈ all := by cases f <;> simp [all]

theorem ofName?_name (f : Field) : ofName? f.name = some f := by cases f <;> rfl

theorem eq_name_of_ofName? {s : String} {f : Field} (h : ofName? s = some f) : s = f.name := by
  have := List.find?_some h
  simpa [eq_comm] using this

end Field

/-- What a reset gives a tracer anew. -/
structure Limits where
  threadSlots : UInt32
  bufferCapacity : UInt64
  depthLimit : UInt32
deriving DecidableEq

def limits (s : Settings) : Limits := ⟨s.threadSlots, s.bufferCapacity, s.depthLimit⟩

def valid (s : Settings) : Bool := s.bufferCapacity != 0

/-- What is said of settings that are not valid. -/
def invalidMessage : String := "Invalid configuration: buffer_capacity must be at least 1"

def value (s : Settings) : Field → Json
  | .threadSlots => .int s.threadSlots.toNat
  | .depthLimit => .int s.depthLimit.toNat
  | .captureReturns => .bool s.captureReturns
  | .bufferCapacity => .int s.bufferCapacity.toNat
  | .expandOnFirstInvoke => .bool s.expandOnFirstInvoke

def toJson (s : Settings) : Json := .object (Field.all.map fun f => (f.name, s.value f))

def text (s : Settings) : String := s.toJson.compact

end Settings

end MethodTrace
