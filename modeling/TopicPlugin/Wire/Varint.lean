import TopicPlugin.Wire.Reader

/-!
# Varints

A varint is a whole number below `2 ^ 64`, in groups of seven bits from the lowest up, one to a byte;
all bytes but the last have their top bit set. It may be longer than it has to be, but no longer than
ten bytes, of which the tenth holds one bit only.
-/

namespace TopicPlugin.Wire

namespace Varint

/-- The shortest form of a number. -/
def encode (n : Nat) : List UInt8 :=
  if n < 128 then [UInt8.ofNat n] else UInt8.ofNat (n % 128 + 128) :: encode (n / 128)

/-- Reads a varint of at most `count` bytes, where the last byte allowed is at most one. -/
def readUpTo : Nat → Reader Nat
  | 0 => .fail .invalidVarint
  | count + 1 => do
    let b ← Reader.byte .invalidVarint
    if count = 0 ∧ 1 < b then Reader.fail .invalidVarint
    else if b < 128 then pure b.toNat
    else do
      let upper ← readUpTo count
      pure (b.toNat - 128 + 128 * upper)

def read : Reader Nat := readUpTo 10

theorem readUpTo_size_lt {count : Nat} {i r : Input} {n : Nat}
    (h : (readUpTo count).run i = .ok (n, r)) : r.size < i.size := by
  cases count with
  | zero => cases h
  | succ count =>
    rw [readUpTo, Reader.run_bind] at h
    cases hb : (Reader.byte .invalidVarint).run i with
    | error e => simp [hb] at h
    | ok br =>
      obtain ⟨b, m⟩ := br
      simp only [hb] at h
      exact Nat.lt_of_le_of_lt (Reader.size_le _ h) (Reader.byte_size_lt hb)

/-- The numbers below it fit in `count` bytes and a last one that is at most one. -/
def bound : Nat → Nat
  | 0 => 2
  | count + 1 => 128 * bound count

theorem toNat_ofNat_of_lt {n : Nat} (h : n < 256) : (UInt8.ofNat n).toNat = n := by
  rw [UInt8.toNat_ofNat']
  exact Nat.mod_eq_of_lt h

end Varint

end TopicPlugin.Wire
