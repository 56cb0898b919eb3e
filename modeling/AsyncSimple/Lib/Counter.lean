import Mathlib.Data.BitVec

namespace Counter

variable {w n : Nat} {x : BitVec w}

-- A counter of `w` bits that has counted `n`, where it may have wrapped around.
def Counts (x : BitVec w) (n : Nat) : Prop :=
  x = BitVec.ofNat w n

namespace Counts

theorem congr (c : Counts x n) (h : n = m) : Counts x m :=
  h ▸ c

theorem zero : Counts (0 : BitVec w) 0 := rfl

theorem inc (c : Counts x n) : Counts (x + 1) (n + 1) := by
  rw [Counts, c, BitVec.ofNat_add]
  rfl

theorem dec (c : Counts x (n + 1)) : Counts (x - 1) n := by
  rw [Counts, c, BitVec.ofNat_add]
  exact BitVec.add_sub_cancel ..

theorem toNat (c : Counts x n) (h : n < 2 ^ w) : x.toNat = n := by
  rw [c, BitVec.toNat_ofNat, Nat.mod_eq_of_lt h]

theorem one_le (c : Counts x (n + 1)) (h : n + 1 < 2 ^ w) : x ≥ 1 := by
  have hw : 1 < 2 ^ w := by omega
  simp [BitVec.le_def, c.toNat h, BitVec.toNat_ofNat, Nat.mod_eq_of_lt hw]

theorem eq_one_iff (c : Counts x (n + 1)) (h : n + 1 < 2 ^ w) : x = 1 ↔ n = 0 := by
  have hw : 1 < 2 ^ w := by omega
  simp [← BitVec.toNat_inj, c.toNat h, BitVec.toNat_ofNat, Nat.mod_eq_of_lt hw]

end Counts
end Counter
