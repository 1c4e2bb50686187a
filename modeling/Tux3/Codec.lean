import Tux3.Bitops
import Tux3.Lib.Segment

/-!
# Big-endian fields

`encode16`, `encode32`, `encode48` and their decoders of `kernel/tux3.h`. An encoder
is the bytes it stores; a decoder reads them at an offset.
-/
namespace Tux3

open Segment

def encode16 (val : ℕ) : List Byte := [BitVec.ofNat 8 (val / 2 ^ 8), BitVec.ofNat 8 val]

def encode32 (val : ℕ) : List Byte :=
  [BitVec.ofNat 8 (val / 2 ^ 24), BitVec.ofNat 8 (val / 2 ^ 16), BitVec.ofNat 8 (val / 2 ^ 8),
    BitVec.ofNat 8 val]

def encode48 (val : ℕ) : List Byte := encode16 (val / 2 ^ 32) ++ encode32 val

def decode16 (data : Bytes) (at' : ℕ) : ℕ := (data at').toNat * 2 ^ 8 + (data (at' + 1)).toNat

def decode32 (data : Bytes) (at' : ℕ) : ℕ :=
  (data at').toNat * 2 ^ 24 + (data (at' + 1)).toNat * 2 ^ 16 + (data (at' + 2)).toNat * 2 ^ 8 +
    (data (at' + 3)).toNat

/-- `(u64)part1 << 32 | part2`. -/
def decode48 (data : Bytes) (at' : ℕ) : ℕ :=
  decode16 data at' <<< 32 ||| decode32 data (at' + 2)

@[simp] theorem encode48_length (val : ℕ) : (encode48 val).length = 6 := rfl

@[simp] theorem encode32_length (val : ℕ) : (encode32 val).length = 4 := rfl

variable {data : Bytes} {at' val : ℕ}

theorem decode16_encode16 (h : Holds data at' (encode16 val)) : decode16 data at' = val % 2 ^ 16 := by
  rw [decode16, h.head, h.tail.head, BitVec.toNat_ofNat, BitVec.toNat_ofNat]
  omega

theorem decode32_encode32 (h : Holds data at' (encode32 val)) : decode32 data at' = val % 2 ^ 32 := by
  rw [decode32, h.head, h.tail.head, h.tail.tail.head, h.tail.tail.tail.head]
  simp only [BitVec.toNat_ofNat]
  omega

theorem decode48_encode48 (h : Holds data at' (encode48 val)) (hv : val < 2 ^ 48) :
    decode48 data at' = val := by
  obtain ⟨h16, h32⟩ := holds_append.mp h
  replace h32 : Holds data (at' + 2) (encode32 val) := h32
  rw [decode48, decode16_encode16 h16, decode32_encode32 h32,
    ← Nat.shiftLeft_add_eq_or_of_lt (Nat.mod_lt _ (Nat.two_pow_pos 32)), Nat.shiftLeft_eq]
  omega

end Tux3
