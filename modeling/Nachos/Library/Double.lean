import Mathlib.Data.BitVec
import Mathlib.Tactic.Ring

/-! # Double words

Two words are the halves of a number of twice their width. Sum, double and
negation are computed word by word, with a carry between the halves.
-/

namespace Nachos

@[ext]
structure Double (w : ℕ) where
  hi : BitVec w
  lo : BitVec w
  deriving DecidableEq

namespace Double

variable {w : ℕ} (d e : Double w)

def value : BitVec (w + w) := d.hi ++ d.lo

def add : Double w :=
  let lo := d.lo + e.lo
  let hi := if lo < e.lo then d.hi + 1#w else d.hi
  ⟨hi + e.hi, lo⟩

def twice : Double w :=
  let hi := d.hi <<< 1
  ⟨if d.lo.msb then hi ||| 1#w else hi, d.lo <<< 1⟩

def neg : Double w :=
  let lo := ~~~d.lo + 1#w
  ⟨if lo = 0#w then ~~~d.hi + 1#w else ~~~d.hi, lo⟩

theorem toNat_value : d.value.toNat = d.hi.toNat * 2 ^ w + d.lo.toNat := by
  rw [value, BitVec.toNat_append, ← Nat.shiftLeft_add_eq_or_of_lt d.lo.isLt, Nat.shiftLeft_eq]

theorem extractLsb'_value_hi : d.value.extractLsb' w w = d.hi := by
  rw [value, BitVec.extractLsb'_append_eq_of_le le_rfl, Nat.sub_self, BitVec.extractLsb'_eq_self]

theorem extractLsb'_value_lo : d.value.extractLsb' 0 w = d.lo := by
  rw [value, BitVec.extractLsb'_append_eq_of_add_le (by omega), BitVec.extractLsb'_eq_self]

variable {d e}

theorem value_eq_ofNat {h l : ℕ} (hhi : d.hi.toNat = h % 2 ^ w) (hlo : d.lo.toNat = l)
    (hl : l < 2 ^ w) : d.value = BitVec.ofNat (w + w) (h * 2 ^ w + l) := by
  apply BitVec.eq_of_toNat_eq
  have hpos : 0 < 2 ^ w := Nat.two_pow_pos w
  have hmod : (h * 2 ^ w + l) % 2 ^ w = l := by
    rw [Nat.mul_add_mod', Nat.mod_eq_of_lt hl]
  have hdiv : (h * 2 ^ w + l) / 2 ^ w = h := by
    rw [Nat.mul_comm, Nat.mul_add_div hpos, Nat.div_eq_of_lt hl, Nat.add_zero]
  rw [toNat_value, BitVec.toNat_ofNat, Nat.pow_add, Nat.mod_mul, hmod, hdiv, hhi, hlo,
    Nat.mul_comm, Nat.add_comm]

theorem value_eq_ofNat_toNat : d.value = BitVec.ofNat (w + w) (d.hi.toNat * 2 ^ w + d.lo.toNat) :=
  value_eq_ofNat (Nat.mod_eq_of_lt d.hi.isLt).symm rfl d.lo.isLt

theorem value_add : (d.add e).value = d.value + e.value := by
  have hd := d.lo.isLt
  have he := e.lo.isLt
  rw [d.value_eq_ofNat_toNat, e.value_eq_ofNat_toNat, ← BitVec.ofNat_add]
  by_cases hcarry : d.lo.toNat + e.lo.toNat < 2 ^ w
  · have hlo : (d.add e).lo.toNat = d.lo.toNat + e.lo.toNat := BitVec.toNat_add_of_lt hcarry
    have hle : ¬ d.lo + e.lo < e.lo := by
      rw [BitVec.lt_def, BitVec.toNat_add_of_lt hcarry]
      omega
    have hhi : (d.add e).hi.toNat = (d.hi.toNat + e.hi.toNat) % 2 ^ w := by
      rw [add]
      dsimp only
      rw [if_neg hle, BitVec.toNat_add]
    rw [value_eq_ofNat hhi hlo hcarry]
    congr 1
    ring
  · have hmod : (d.lo.toNat + e.lo.toNat) % 2 ^ w = d.lo.toNat + e.lo.toNat - 2 ^ w := by
      rw [Nat.mod_eq_sub_mod (not_lt.mp hcarry), Nat.mod_eq_of_lt (by omega)]
    have hlo : (d.add e).lo.toNat = d.lo.toNat + e.lo.toNat - 2 ^ w :=
      (BitVec.toNat_add _ _).trans hmod
    have hlt : d.lo + e.lo < e.lo := by
      rw [BitVec.lt_def, BitVec.toNat_add, hmod]
      omega
    have hhi : (d.add e).hi.toNat = (d.hi.toNat + 1 + e.hi.toNat) % 2 ^ w := by
      rw [add]
      dsimp only
      rw [if_pos hlt, BitVec.toNat_add, BitVec.toNat_add, BitVec.toNat_ofNat,
        Nat.add_mod_mod, Nat.mod_add_mod]
    rw [value_eq_ofNat hhi hlo (by omega)]
    congr 1
    have hsum : (d.hi.toNat + 1 + e.hi.toNat) * 2 ^ w =
        d.hi.toNat * 2 ^ w + e.hi.toNat * 2 ^ w + 2 ^ w := by ring
    omega

theorem shiftLeft_one_or_one (x : BitVec w) : x <<< 1 ||| 1#w = x <<< 1 + 1#w := by
  refine (BitVec.add_eq_or_of_and_eq_zero _ _ ?_).symm
  ext i hi
  cases i with
  | zero => simp
  | succ i => simp

theorem shiftLeft_one_eq_add (x : BitVec w) : x <<< 1 = x + x := by
  apply BitVec.eq_of_toNat_eq
  rw [BitVec.toNat_shiftLeft, BitVec.toNat_add, Nat.shiftLeft_eq, Nat.pow_one, Nat.mul_two]

theorem add_self_lt_iff (hw : 0 < w) (x : BitVec w) : x + x < x ↔ x.msb = true := by
  have hx := x.isLt
  have hpow : 2 ^ w = 2 * 2 ^ (w - 1) := by
    rw [← Nat.pow_succ', Nat.succ_eq_add_one, Nat.sub_add_cancel hw]
  rw [BitVec.lt_def, BitVec.toNat_add, BitVec.msb_eq_decide, decide_eq_true_iff]
  by_cases hlt : x.toNat + x.toNat < 2 ^ w
  · rw [Nat.mod_eq_of_lt hlt]
    omega
  · rw [Nat.mod_eq_sub_mod (not_lt.mp hlt), Nat.mod_eq_of_lt (by omega)]
    omega

theorem value_twice (hw : 0 < w) : d.twice.value = d.value + d.value := by
  have heq : d.twice = d.add d := by
    simp only [twice, add, add_self_lt_iff hw, shiftLeft_one_or_one]
    split
    · rw [shiftLeft_one_eq_add, shiftLeft_one_eq_add, add_right_comm]
    · rw [shiftLeft_one_eq_add, shiftLeft_one_eq_add]
  rw [heq, value_add]

theorem value_neg (hw : 0 < w) : d.neg.value = -d.value := by
  have hone : (1#w).toNat = 1 := by
    rw [BitVec.toNat_ofNat, Nat.mod_eq_of_lt (Nat.one_lt_two_pow hw.ne')]
  have hlt : ∀ x : BitVec w, x < 1#w ↔ x = 0#w := by
    intro x
    rw [BitVec.lt_def, hone, Nat.lt_one_iff, ← BitVec.toNat_inj, BitVec.toNat_zero]
  have heq : d.neg = Double.add ⟨~~~d.hi, ~~~d.lo⟩ ⟨0#w, 1#w⟩ := by
    simp only [neg, add, hlt, BitVec.add_zero]
  have hvalue : Double.value ⟨0#w, 1#w⟩ = 1#(w + w) := by
    rw [value_eq_ofNat_toNat, hone, BitVec.toNat_zero, Nat.zero_mul, Nat.zero_add]
  rw [heq, value_add, hvalue, BitVec.neg_eq_not_add, value, value, BitVec.not_append]

end Double

end Nachos
