import Mathlib.Data.Nat.Bitwise

/-!
# 32-bit machine words

Arithmetic readings of the shift, mask and or operations that pack several
small fields into one 32-bit word. Or-ing a shifted field above the bits in use
is addition (`toNat_or_shiftLeft`), and a masked right shift reads a field back
(`toNat_shiftRight_and`). The checked and saturating operations of fixed-width
arithmetic stand beside them.
-/

namespace TachyonEngine.Lib.MachineWord

/-! ## Packed fields -/

/-- Or-ing a field above the occupied low bits adds its shifted value. -/
theorem nat_or_shiftLeft {w x k : Nat} (hw : w < 2 ^ k) : w ||| x <<< k = w + x * 2 ^ k := by
  have h := Nat.shiftLeft_add_eq_or_of_lt hw x
  rw [Nat.or_comm, ← h, Nat.shiftLeft_eq, Nat.add_comm]

/-- A word whose low `k` bits are `w` and whose next bits are `x`. -/
theorem toNat_or_shiftLeft {w x : UInt32} {k : Nat} (hk : k < 32) (hw : w.toNat < 2 ^ k)
    (hx : x.toNat * 2 ^ k < 2 ^ 32) :
    (w ||| x <<< UInt32.ofNat k).toNat = w.toNat + x.toNat * 2 ^ k := by
  have hk' : k % 2 ^ 32 % 32 = k := by omega
  rw [UInt32.toNat_or, UInt32.toNat_shiftLeft, UInt32.toNat_ofNat', hk', Nat.shiftLeft_eq,
    Nat.mod_eq_of_lt hx, ← nat_or_shiftLeft hw, Nat.shiftLeft_eq]

/-- The bits of a word from `k` on, `m` of them. -/
theorem toNat_shiftRight_and {w : UInt32} {k m : Nat} (hk : k < 32) (hm : m < 32) :
    (w >>> UInt32.ofNat k &&& UInt32.ofNat (2 ^ m - 1)).toNat = w.toNat / 2 ^ k % 2 ^ m := by
  have hk' : k % 2 ^ 32 % 32 = k := by omega
  have hm' : (2 ^ m - 1) % 2 ^ 32 = 2 ^ m - 1 := by
    have : 2 ^ m < 2 ^ 32 := Nat.pow_lt_pow_right (by omega) hm
    omega
  rw [UInt32.toNat_and, UInt32.toNat_shiftRight, UInt32.toNat_ofNat', UInt32.toNat_ofNat', hk',
    hm', Nat.and_two_pow_sub_one_eq_mod, Nat.shiftRight_eq_div_pow]

/-! ## Checked and saturating arithmetic -/

/-- Sum, or nothing on overflow. -/
def checkedAdd (a b : UInt32) : Option UInt32 :=
  if a.toNat + b.toNat < 2 ^ 32 then some (a + b) else none

/-- Product, or nothing on overflow. -/
def checkedMul (a b : UInt32) : Option UInt32 :=
  if a.toNat * b.toNat < 2 ^ 32 then some (a * b) else none

/-- Difference, or nothing below zero. -/
def checkedSub (a b : UInt32) : Option UInt32 :=
  if b.toNat ≤ a.toNat then some (a - b) else none

/-- The largest word. -/
def maxWord : UInt32 := 0xffffffff

/-- Sum, stopping at the largest word. -/
def saturatingAdd (a b : UInt32) : UInt32 := (checkedAdd a b).getD maxWord

/-- Difference, stopping at zero. -/
def saturatingSub (a b : UInt32) : UInt32 := (checkedSub a b).getD 0

/-- A length as a word, when it fits. -/
def tryFromLength (n : Nat) : Option UInt32 :=
  if n < 2 ^ 32 then some (UInt32.ofNat n) else none

end TachyonEngine.Lib.MachineWord
