import MethodTrace.Decimal.Fixed

/-!
# Methods, threads, times

Methods are numbered by 16 bits. Threads are numbered from 1 in the order of their registration; 0
stands for all of them. Times are nanoseconds.
-/

namespace MethodTrace

structure MethodId where
  val : UInt16
deriving DecidableEq

namespace MethodId

/-- What events that concern no method carry. -/
def none : MethodId := ⟨0⟩

def index (m : MethodId) : Nat := m.val.toNat

/-- How a method is shown when nobody has named it. -/
def text (m : MethodId) : String := s!"M#{m.val.toNat}"

end MethodId

structure ThreadNo where
  val : UInt32
deriving DecidableEq

namespace ThreadNo

def all : ThreadNo := ⟨0⟩

def text (t : ThreadNo) : String := s!"T#{t.val.toNat}"

end ThreadNo

structure Timestamp where
  nanos : UInt64
deriving DecidableEq

namespace Timestamp

open Decimal

def seconds (t : Timestamp) : Binary64 :=
  (Binary64.ofNat t.nanos.toNat).div (Binary64.ofNat 1000000000)

def micros (t : Timestamp) : Binary64 :=
  (Binary64.ofNat t.nanos.toNat).div (Binary64.ofNat 1000)

/-- Seconds with six places. -/
def text (t : Timestamp) : String := fixed 6 t.seconds ++ "s"

/-- Time passed since `s`, none if `s` is later. -/
def since (t s : Timestamp) : Timestamp := ⟨if s.nanos ≤ t.nanos then t.nanos - s.nanos else 0⟩

/-- The next reading of a clock that stops at the largest time there is. -/
def next (t : Timestamp) : Timestamp := ⟨if t.nanos + 1 = 0 then t.nanos else t.nanos + 1⟩

end Timestamp

end MethodTrace
