import Nachos.Library.Double
import Nachos.Library.Masks

/-! # Multiplication

`Mult` adds up shifted copies of one factor, for the bits of the other one. The
words wrap around as those of the host do.
-/

namespace Nachos.Machine

def shiftB (b : Double 32) : Double 32 :=
  let hi := b.hi <<< 1
  ⟨if b.lo &&& 0x80000000#32 ≠ 0#32 then hi ||| 1#32 else hi, b.lo <<< 1⟩

/-- The loop of `Mult`; `a` is a signed number, so that its top bit is shifted in again. -/
def multLoop : ℕ → BitVec 32 → Double 32 → Double 32 → Double 32
  | 0, _, _, result => result
  | turns + 1, a, b, result =>
    if a &&& 1#32 ≠ 0#32 then
      if a &&& 0xfffffffe#32 = 0#32 then result.add b
      else multLoop turns (a.sshiftRight 1) (shiftB b) (result.add b)
    else multLoop turns (a.sshiftRight 1) (shiftB b) result

def makePositive (signedArith negative : Bool) (x : BitVec 32) : Bool × BitVec 32 :=
  if signedArith ∧ x.slt 0#32 then (!negative, -x) else (negative, x)

def mult (a b : BitVec 32) (signedArith : Bool) : Double 32 :=
  if a = 0#32 ∨ b = 0#32 then ⟨0#32, 0#32⟩
  else
    let (negative, a) := makePositive signedArith false a
    let (negative, b) := makePositive signedArith negative b
    let result := multLoop 32 a ⟨0#32, b⟩ ⟨0#32, 0#32⟩
    if negative then result.neg else result

variable {a b : BitVec 32} {turns : ℕ} {d result : Double 32}

/-! ## The bits of a factor -/

theorem and_topBit_ne_zero : a &&& 0x80000000#32 ≠ 0#32 ↔ a.msb = true := by
  have htwo : 0x80000000#32 = BitVec.twoPow 32 31 := by decide
  rw [htwo, Masks.and_bit_ne_zero, BitVec.msb_eq_getLsbD_last]

theorem shiftB_eq_twice : shiftB d = d.twice := by
  simp only [shiftB, Double.twice, and_topBit_ne_zero]

theorem and_one_ne_zero : a &&& 1#32 ≠ 0#32 ↔ a.toNat % 2 = 1 :=
  (Masks.and_low_ne_zero (k := 1) (by decide)).trans Nat.mod_two_ne_zero

theorem toNat_div_two_of_and_eq_zero (h : a &&& 0xfffffffe#32 = 0#32) : a.toNat / 2 = 0 := by
  have hnot : (0xfffffffe#32 : BitVec 32) = ~~~1#32 := by decide
  have hshift : a >>> 1 = 0#32 := by
    apply BitVec.eq_of_getLsbD_eq
    intro i hi
    have hbit := congrArg (·.getLsbD (1 + i)) h
    simp only [hnot, BitVec.getLsbD_and, BitVec.getLsbD_not, BitVec.getLsbD_one,
      BitVec.getLsbD_zero] at hbit
    rw [BitVec.getLsbD_ushiftRight, BitVec.getLsbD_zero]
    by_cases hlast : 1 + i < 32
    · simpa [hlast] using hbit
    · exact BitVec.getLsbD_of_ge _ _ (not_lt.mp hlast)
  have hnat := congrArg BitVec.toNat hshift
  rwa [BitVec.toNat_ushiftRight, Nat.shiftRight_eq_div_pow, Nat.pow_one, BitVec.toNat_zero] at hnat

theorem toNat_sshiftRight_mod (h : turns < 32) :
    (a.sshiftRight 1).toNat % 2 ^ turns = a.toNat / 2 % 2 ^ turns := by
  apply Nat.eq_of_testBit_eq
  intro i
  rw [Nat.testBit_mod_two_pow, Nat.testBit_mod_two_pow, Nat.testBit_div_two, BitVec.testBit_toNat,
    BitVec.testBit_toNat]
  by_cases hi : i < turns
  · have hlast : 1 + i < 32 := by omega
    have hwidth : ¬ 32 ≤ i := by omega
    rw [BitVec.getLsbD_sshiftRight, if_pos hlast, Nat.add_comm 1 i, decide_eq_false hwidth,
      Bool.not_false, Bool.true_and]
  · simp [hi]

theorem ofNat_mod_two_pow_succ (n turns : ℕ) : BitVec.ofNat 64 (n % 2 ^ (turns + 1)) =
    BitVec.ofNat 64 (n % 2) + 2 * BitVec.ofNat 64 (n / 2 % 2 ^ turns) := by
  rw [Nat.pow_succ', Nat.mod_mul, BitVec.ofNat_add, BitVec.ofNat_mul]
  rfl

theorem value_multLoop (h : turns ≤ 32) :
    (multLoop turns a d result).value =
      result.value + BitVec.ofNat 64 (a.toNat % 2 ^ turns) * d.value := by
  induction turns generalizing a d result with
  | zero => simp [multLoop, Nat.mod_one]
  | succ turns ih =>
    have htwice : (shiftB d).value = 2 * d.value := by
      rw [shiftB_eq_twice, Double.value_twice (by decide), two_mul]
    have hih : ∀ result, (multLoop turns (a.sshiftRight 1) (shiftB d) result).value =
        result.value + 2 * BitVec.ofNat 64 (a.toNat / 2 % 2 ^ turns) * d.value := by
      intro result
      rw [ih (by omega), toNat_sshiftRight_mod (by omega), htwice]
      ring
    have hzero : 0#64 = 0 := rfl
    have hone : 1#64 = 1 := rfl
    rw [ofNat_mod_two_pow_succ, multLoop]
    by_cases hodd : a &&& 1#32 ≠ 0#32
    · rw [if_pos hodd, and_one_ne_zero.mp hodd, hone]
      split
      case isTrue hexit =>
        rw [toNat_div_two_of_and_eq_zero hexit, Nat.zero_mod, hzero, Double.value_add]
        ring
      case isFalse =>
        rw [hih, Double.value_add]
        ring
    · have heven : a.toNat % 2 = 0 := by
        have := mt and_one_ne_zero.mpr hodd
        omega
      rw [if_neg hodd, hih, heven, hzero]
      ring

theorem value_multLoop_eq :
    (multLoop 32 a ⟨0#32, b⟩ ⟨0#32, 0#32⟩).value = BitVec.ofNat 64 (a.toNat * b.toNat) := by
  rw [value_multLoop le_rfl, Nat.mod_eq_of_lt a.isLt, BitVec.ofNat_mul,
    Double.value_eq_ofNat_toNat, Double.value_eq_ofNat_toNat]
  simp

/-! ## The sign -/

theorem makePositive_true (negative : Bool) (x : BitVec 32) :
    ∃ (flip : Bool) (y : BitVec 32), makePositive true negative x = (flip ^^ negative, y) ∧
      y.toNat ≤ 2 ^ 31 ∧ x.toInt = if flip then -(y.toNat : ℤ) else y.toNat := by
  have hx := x.isLt
  rw [BitVec.toInt_eq_msb_cond, makePositive, BitVec.slt_zero_eq_msb]
  by_cases hmsb : x.msb = true
  · refine ⟨true, -x, by simp [hmsb], ?_⟩
    rw [BitVec.msb_eq_decide, decide_eq_true_iff] at hmsb
    have hneg : (-x).toNat = 2 ^ 32 - x.toNat := by
      rw [BitVec.toNat_neg, Nat.mod_eq_of_lt (by omega)]
    rw [hneg, BitVec.msb_eq_decide, decide_eq_true hmsb, if_pos rfl, if_pos rfl]
    omega
  · refine ⟨false, x, by simp [hmsb], ?_⟩
    rw [BitVec.msb_eq_decide, decide_eq_true_iff] at hmsb
    rw [BitVec.msb_eq_decide, decide_eq_false hmsb]
    refine ⟨by omega, ?_⟩
    rw [if_neg Bool.false_ne_true, if_neg Bool.false_ne_true]

theorem toInt_ofNat_of_le {n : ℕ} (h : n ≤ 2 ^ 62) : (BitVec.ofNat 64 n).toInt = n := by
  rw [BitVec.toInt_eq_toNat_of_lt]
  · rw [BitVec.toNat_ofNat, Nat.mod_eq_of_lt (by omega)]
  · rw [BitVec.toNat_ofNat, Nat.mod_eq_of_lt (by omega)]
    omega

theorem toInt_neg_ofNat_of_le {n : ℕ} (h : n ≤ 2 ^ 62) : (-BitVec.ofNat 64 n).toInt = -n := by
  rw [BitVec.toInt_neg, toInt_ofNat_of_le h, Int.bmod_eq_of_le (by omega) (by omega)]

theorem value_mult_of_zero (signedArith : Bool) (h : a = 0#32 ∨ b = 0#32) :
    (mult a b signedArith).value = 0#64 := by
  rw [mult, if_pos h]
  rfl

theorem toInt_mult (a b : BitVec 32) : (mult a b true).value.toInt = a.toInt * b.toInt := by
  by_cases hzero : a = 0#32 ∨ b = 0#32
  · rw [value_mult_of_zero true hzero]
    rcases hzero with rfl | rfl <;> simp
  · obtain ⟨f, x, hx, hxle, ha⟩ := makePositive_true false a
    obtain ⟨g, y, hy, hyle, hb⟩ := makePositive_true (f ^^ false) b
    have hle : x.toNat * y.toNat ≤ 2 ^ 62 := by
      rw [Nat.pow_add 2 31 31]
      exact Nat.mul_le_mul hxle hyle
    rw [mult, if_neg hzero, hx]
    dsimp only
    rw [hy, ha, hb]
    cases f <;> cases g <;>
      simp [Double.value_neg, value_multLoop_eq, toInt_ofNat_of_le hle, toInt_neg_ofNat_of_le hle]

theorem toNat_mult (a b : BitVec 32) : (mult a b false).value.toNat = a.toNat * b.toNat := by
  by_cases hzero : a = 0#32 ∨ b = 0#32
  · rw [value_mult_of_zero false hzero]
    rcases hzero with rfl | rfl <;> simp
  · have hlt : a.toNat * b.toNat < 2 ^ 64 := by
      rw [Nat.pow_add 2 32 32]
      exact Nat.mul_lt_mul'' a.isLt b.isLt
    have hmult : mult a b false = multLoop 32 a ⟨0#32, b⟩ ⟨0#32, 0#32⟩ := by
      simp [mult, makePositive, hzero]
    rw [hmult, value_multLoop_eq, BitVec.toNat_ofNat, Nat.mod_eq_of_lt hlt]

/-- `Mult` computes the product of two words exactly, as signed and as unsigned numbers. -/
theorem value_mult (a b : BitVec 32) :
    (mult a b true).value.toInt = a.toInt * b.toInt ∧
      (mult a b false).value.toNat = a.toNat * b.toNat :=
  ⟨toInt_mult a b, toNat_mult a b⟩

end Nachos.Machine
