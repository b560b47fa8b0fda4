import Mathlib.Data.BitVec

/-! # Masks

A word and a mask of its low bits give the remainder by a power of two, and a
word and a single bit tell whether the bit is set.
-/

namespace Nachos.Masks

variable {w k i : ℕ} {x : BitVec w}

abbrev low (w k : ℕ) : BitVec w := BitVec.ofNat w (2 ^ k - 1)

theorem getLsbD_low (hi : i < w) : (low w k).getLsbD i = decide (i < k) := by
  rw [BitVec.getLsbD_ofNat, Nat.testBit_two_pow_sub_one, decide_eq_true hi, Bool.true_and]

theorem toNat_and_low (hk : k ≤ w) : (x &&& low w k).toNat = x.toNat % 2 ^ k := by
  have hlt : 2 ^ k - 1 < 2 ^ w :=
    (Nat.sub_one_lt (Nat.two_pow_pos k).ne').trans_le (Nat.pow_le_pow_right (by decide) hk)
  rw [BitVec.toNat_and, BitVec.toNat_ofNat, Nat.mod_eq_of_lt hlt, Nat.and_two_pow_sub_one_eq_mod]

theorem and_low_ne_zero (hk : k ≤ w) : x &&& low w k ≠ 0#w ↔ x.toNat % 2 ^ k ≠ 0 := by
  rw [Ne, ← BitVec.toNat_inj, toNat_and_low hk, BitVec.toNat_ofNat, Nat.zero_mod]

theorem and_bit_ne_zero : x &&& BitVec.twoPow w i ≠ 0#w ↔ x.getLsbD i = true := by
  rw [BitVec.and_twoPow]
  split
  case isTrue hbit =>
    have hlt : i < w := BitVec.lt_of_getLsbD hbit
    have hset : BitVec.twoPow w i ≠ 0#w := by
      intro h
      have hbit' := congrArg (·.getLsbD i) h
      simp [hlt] at hbit'
    simp [hset, hbit]
  case isFalse hbit => simp [hbit]

end Nachos.Masks
