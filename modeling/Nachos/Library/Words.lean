import Mathlib.Algebra.Ring.Int.Defs
import Mathlib.Algebra.Ring.Nat
import Mathlib.Data.Int.Notation
import Mathlib.Tactic.Common

/-! # Little-endian words

A word of 32 bits is four bytes, the lowest first, and an `int` is a word in
two's complement. Reading back what was written gives the word, and the `int`
if it fits.
-/

namespace Nachos.Words

variable {f g : ℕ → UInt8} {z : ℤ} {i : ℕ}

def word (f : ℕ → UInt8) : BitVec 32 :=
  BitVec.ofNat 32
    ((f 0).toNat + 256 * (f 1).toNat + 65536 * (f 2).toNat + 16777216 * (f 3).toNat)

def byte (v : BitVec 32) (i : ℕ) : UInt8 := UInt8.ofBitVec (v.extractLsb' (8 * i) 8)

theorem toNat_byte {v : BitVec 32} : (byte v i).toNat = v.toNat / 2 ^ (8 * i) % 256 := by
  simp [byte, Nat.shiftRight_eq_div_pow]

theorem word_congr (h : ∀ i < 4, f i = g i) : word f = word g := by
  simp [word, h 0 (by decide), h 1 (by decide), h 2 (by decide), h 3 (by decide)]

@[simp] theorem word_byte (v : BitVec 32) : word (byte v) = v := by
  apply BitVec.eq_of_toNat_eq
  have hlt := v.isLt
  simp only [word, toNat_byte, BitVec.toNat_ofNat]
  omega

theorem byte_word (hi : i < 4) : byte (word f) i = f i := by
  apply UInt8.toNat.inj
  have h₀ := (f 0).toNat_lt
  have h₁ := (f 1).toNat_lt
  have h₂ := (f 2).toNat_lt
  have h₃ := (f 3).toNat_lt
  rw [toNat_byte, word, BitVec.toNat_ofNat]
  match i, hi with
  | 0, _ => omega
  | 1, _ => omega
  | 2, _ => omega
  | 3, _ => omega

def IsInt (z : ℤ) : Prop := -2 ^ 31 ≤ z ∧ z < 2 ^ 31

instance : Decidable (IsInt z) := inferInstanceAs (Decidable (_ ∧ _))

def int (f : ℕ → UInt8) : ℤ := (word f).toInt

def intByte (z : ℤ) : ℕ → UInt8 := byte (BitVec.ofInt 32 z)

theorem int_congr (h : ∀ i < 4, f i = g i) : int f = int g := by rw [int, int, word_congr h]

theorem isInt_int : IsInt (int f) := by
  have h₁ := (word f).le_toInt
  have h₂ := (word f).toInt_lt
  exact ⟨by simpa [int] using h₁, by simpa [int] using h₂⟩

theorem int_intByte (h : IsInt z) : int (intByte z) = z := by
  obtain ⟨h₁, h₂⟩ := h
  rw [int, intByte, word_byte, BitVec.toInt_ofInt]
  exact Int.bmod_eq_of_le (by simpa using h₁) (by simpa using h₂)

def short (f : ℕ → UInt8) : ℕ := (f 0).toNat + 256 * (f 1).toNat

theorem short_congr (h : ∀ i < 2, f i = g i) : short f = short g := by
  simp [short, h 0 (by decide), h 1 (by decide)]

def ofInts (w : ℕ → ℤ) (i : ℕ) : UInt8 := intByte (w (i / 4)) (i % 4)

theorem int_ofInts {w : ℕ → ℤ} {k : ℕ} (h : IsInt (w k)) :
    int (fun i => ofInts w (4 * k + i)) = w k := by
  rw [← int_intByte h]
  refine int_congr fun i hi => ?_
  rw [ofInts, show (4 * k + i) / 4 = k by omega, show (4 * k + i) % 4 = i by omega]

/-- The sum of two `int`s, in two's complement. -/
def addInt (y z : ℤ) : ℤ := (y + z).bmod (2 ^ 32)

theorem addInt_eq {y z : ℤ} (h : IsInt (y + z)) : addInt y z = y + z :=
  Int.bmod_eq_of_le (by simpa using h.1) (by simpa using h.2)

theorem addInt_eq_sub {y z : ℤ} (h : 2 ^ 31 ≤ y + z) (h' : y + z < 2 ^ 32) :
    addInt y z = y + z - 2 ^ 32 := by
  unfold addInt Int.bmod
  rw [Int.emod_eq_of_lt (by omega) (by exact_mod_cast h'), if_neg (by omega)]
  rfl

theorem isInt_addInt {y z : ℤ} : IsInt (addInt y z) := by
  have h₁ := Int.le_bmod (x := y + z) (m := 2 ^ 32) (by decide)
  have h₂ := Int.bmod_lt (x := y + z) (m := 2 ^ 32) (by decide)
  exact ⟨by unfold addInt; omega, by unfold addInt; omega⟩

end Nachos.Words
