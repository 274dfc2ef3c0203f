import Mathlib.Tactic.Ring

/-!
# Byte-addressed memory

The stack of a function lives in a memory of bytes with 64-bit addresses.
A number is kept in consecutive bytes, the lowest first. Addresses wrap
around at the end of the memory, so where a byte lies relative to an
access is its **distance** from the address of the access, taken modulo
`2 ^ 64`; a write changes exactly the bytes whose distance is smaller than
its width.
-/

namespace SsaCompiler

open BitVec

variable {mem : Memory} {a : Address} {width value j : Nat}

/-- An address. -/
abbrev Address := BitVec 64

/-- **A memory of bytes.** -/
def Memory := Address → BitVec 8

namespace Memory

/-- The number in `width` consecutive bytes, the lowest first. -/
def read (mem : Memory) (a : Address) : Nat → Nat
  | 0 => 0
  | width + 1 => (mem a).toNat + 256 * mem.read (a + 1) width

/-- **Put a number into `width` consecutive bytes**, the lowest first. -/
def write (mem : Memory) (a : Address) (width value : Nat) : Memory := fun x =>
  if (x - a).toNat < width then BitVec.ofNat 8 (value / 256 ^ (x - a).toNat) else mem x

theorem add_ofNat_succ (a : Address) (k : Nat) :
    a + BitVec.ofNat 64 (k + 1) = a + 1 + BitVec.ofNat 64 k := by
  rw [BitVec.ofNat_add, BitVec.add_comm (BitVec.ofNat 64 k), ← BitVec.add_assoc]
  rfl

/-- A read sees nothing but the bytes at a distance below its width. -/
theorem read_congr {mem' : Memory}
    (h : ∀ i < width, mem (a + BitVec.ofNat 64 i) = mem' (a + BitVec.ofNat 64 i)) :
    mem.read a width = mem'.read a width := by
  induction width generalizing a with
  | zero => rfl
  | succ width ih =>
    have first : mem a = mem' a := by simpa using h 0 (Nat.succ_pos _)
    have rest : mem.read (a + 1) width = mem'.read (a + 1) width := by
      refine ih fun i hi => ?_
      rw [← add_ofNat_succ]
      exact h (i + 1) (by omega)
    rw [read, read, first, rest]

/-- **A read inside a write** sees the digits of the number written. -/
theorem read_write {k : Nat} (hk : k + j ≤ width) (hw : width ≤ 2 ^ 64) :
    (mem.write a width value).read (a + BitVec.ofNat 64 k) j
      = value / 256 ^ k % 256 ^ j := by
  induction j generalizing k with
  | zero => simp [read, Nat.mod_one]
  | succ j ih =>
    have dist : (a + BitVec.ofNat 64 k - a).toNat = k := by
      simp only [toNat_sub, toNat_add, toNat_ofNat]
      omega
    have next : a + BitVec.ofNat 64 k + 1 = a + BitVec.ofNat 64 (k + 1) := by
      rw [add_ofNat_succ, BitVec.add_assoc, BitVec.add_comm (BitVec.ofNat 64 k), ← BitVec.add_assoc]
    have byte : (mem.write a width value (a + BitVec.ofNat 64 k)).toNat
        = value / 256 ^ k % 256 := by
      rw [write, dist, if_pos (by omega), toNat_ofNat]
    rw [read, next, ih (by omega), byte, Nat.pow_succ' (n := j), Nat.mod_mul,
      Nat.pow_succ, Nat.div_div_eq_div_mul]

/-- A number that was written can be read back. -/
theorem read_write_self (hw : width ≤ 2 ^ 64) :
    (mem.write a width value).read a width = value % 256 ^ width := by
  have := @read_write mem a width value width 0 (by omega) hw
  simpa using this

/-- A read apart from a write sees what was there before. Apart means
that no byte of the read is at a distance from the write below the width of
the write. -/
theorem read_write_of_apart {b : Address} (h : ∀ i < j, width ≤ (b + BitVec.ofNat 64 i - a).toNat) :
    (mem.write a width value).read b j = mem.read b j := by
  refine read_congr fun i hi => ?_
  rw [write, if_neg (Nat.not_lt.2 (h i hi))]

end Memory

end SsaCompiler
