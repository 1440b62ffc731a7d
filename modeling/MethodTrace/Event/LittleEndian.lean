/-!
# Little-endian bytes

`ofBytes_toBytes`: `w` bytes hold every number below `capacity w`. `toBytes_ofBytes`: different
bytes are different numbers.
-/

namespace MethodTrace.LittleEndian

/-- How many numbers there are of `w` bytes. -/
def capacity : Nat → Nat
  | 0 => 1
  | w + 1 => 256 * capacity w

/-- The low `w` bytes of `n`. -/
def toBytes : Nat → Nat → List UInt8
  | 0, _ => []
  | w + 1, n => n.toUInt8 :: toBytes w (n / 256)

def ofBytes : List UInt8 → Nat
  | [] => 0
  | b :: bs => b.toNat + 256 * ofBytes bs

@[simp] theorem length_toBytes (w n : Nat) : (toBytes w n).length = w := by
  induction w generalizing n with
  | zero => rfl
  | succ w ih => simp [toBytes, ih]

theorem ofBytes_toBytes {w n : Nat} (h : n < capacity w) : ofBytes (toBytes w n) = n := by
  induction w generalizing n with
  | zero => simp only [capacity] at h; simp only [toBytes, ofBytes]; omega
  | succ w ih =>
    have h' : n / 256 < capacity w := Nat.div_lt_of_lt_mul h
    simp only [toBytes, ofBytes, ih h', UInt8.toNat_ofNat', Nat.toUInt8]
    omega

theorem toBytes_ofBytes (l : List UInt8) : toBytes l.length (ofBytes l) = l := by
  induction l with
  | nil => rfl
  | cons b bs ih =>
    have hb := b.toNat_lt
    have h1 : (b.toNat + 256 * ofBytes bs) / 256 = ofBytes bs := by omega
    have h2 : (b.toNat + 256 * ofBytes bs).toUInt8 = b := by
      apply UInt8.toNat_inj.mp
      simp only [Nat.toUInt8, UInt8.toNat_ofNat']
      omega
    simp [toBytes, ofBytes, h1, h2, ih]

theorem ofBytes_lt (l : List UInt8) : ofBytes l < capacity l.length := by
  induction l with
  | nil => simp [ofBytes, capacity]
  | cons b bs ih =>
    have hb := b.toNat_lt
    simp only [ofBytes, List.length_cons, capacity]
    omega

end MethodTrace.LittleEndian
