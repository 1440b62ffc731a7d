import MethodTrace.Event.Identifier

/-!
# Sets of methods

A set of method ids, one bit each, in words of 64 bits.
-/

namespace MethodTrace

structure MethodSet where
  words : Vector UInt64 1024

namespace MethodSet

def empty : MethodSet := ⟨Vector.replicate 1024 0⟩

def word (m : MethodId) : Fin 1024 :=
  ⟨m.index / 64, by have := m.val.toNat_lt; simp only [MethodId.index]; omega⟩

def mask (m : MethodId) : UInt64 := 1 <<< (m.index % 64).toUInt64

def contains (s : MethodSet) (m : MethodId) : Bool := s.words[word m] &&& mask m != 0

def insert (s : MethodSet) (m : MethodId) : MethodSet :=
  if s.contains m then s else ⟨s.words.set (word m) (s.words[word m] ||| mask m)⟩

/-- Sets the bit of `m`, and tells whether it was not set before. -/
def put (s : MethodSet) (m : MethodId) : Bool × MethodSet :=
  (s.words[word m] &&& mask m == 0, ⟨s.words.set (word m) (s.words[word m] ||| mask m)⟩)

/-- Inserts `m`, and tells whether this is the first time. Most calls are of methods that are in the
set, so the bit is read before it is set. -/
def mark (s : MethodSet) (m : MethodId) : Bool × MethodSet :=
  if s.contains m then (false, s) else s.put m

/-- How many bits of a word are set. -/
def weight (w : UInt64) : Nat :=
  if w = 0 then 0 else (List.range 64).countP fun i => w.toNat.testBit i

def size (s : MethodSet) : Nat := s.words.toList.foldr (fun w n => weight w + n) 0

end MethodSet

end MethodTrace
