import Mathlib.Logic.Function.Basic
import Mathlib.Data.List.Basic
import Mathlib.Data.List.Range
import Mathlib.Tactic.Common

/-! # The packed bits of `BitMap`

A bit map is an array of 32-bit words. `Test` decides the bits, and the other
routines are described by what `Test` says after them.
-/

namespace Nachos

open Function

/-- The words beyond `numWords` are never read. -/
structure BitMap where
  numBits : ℕ
  map : ℕ → BitVec 32

namespace BitMap

variable {b : BitMap} {i j : ℕ}

def BitsInWord : ℕ := 32

def mask (which : ℕ) : BitVec 32 := 1#32 <<< (which % BitsInWord)

/-- `BitMap::Mark`, behind its assertion. -/
def mark (which : ℕ) (b : BitMap) : BitMap :=
  { b with map := update b.map (which / BitsInWord) (b.map (which / BitsInWord) ||| mask which) }

/-- `BitMap::Clear`, behind its assertion. -/
def clear (which : ℕ) (b : BitMap) : BitMap :=
  { b with
    map := update b.map (which / BitsInWord) (b.map (which / BitsInWord) &&& ~~~ mask which) }

/-- `BitMap::Test`, behind its assertion. -/
def test (b : BitMap) (which : ℕ) : Bool := b.map (which / BitsInWord) &&& mask which != 0

/-- `BitMap::Find`, with `none` for `-1`. -/
def find (b : BitMap) : Option (ℕ × BitMap) :=
  ((List.range b.numBits).find? fun i => !b.test i).map fun i => (i, b.mark i)

/-- `BitMap::NumClear`. -/
def numClear (b : BitMap) : ℕ := (List.range b.numBits).countP fun i => !b.test i

@[simp] theorem numBits_mark : (b.mark i).numBits = b.numBits := rfl

@[simp] theorem numBits_clear : (b.clear i).numBits = b.numBits := rfl

theorem map_mark : (b.mark i).map =
    update b.map (i / BitsInWord) (b.map (i / BitsInWord) ||| mask i) := rfl

theorem map_clear : (b.clear i).map =
    update b.map (i / BitsInWord) (b.map (i / BitsInWord) &&& ~~~ mask i) := rfl

theorem getLsbD_mask (hj : j < 32) : (mask i).getLsbD j = decide (i % BitsInWord = j) := by
  have hi : i % BitsInWord < 32 := Nat.mod_lt _ (by decide)
  simp only [mask, BitVec.getLsbD_shiftLeft, BitVec.getLsbD_one]
  by_cases h : i % BitsInWord = j
  · simp [h, hj]
  · simp [h, hj]
    omega

theorem test_eq : b.test i = (b.map (i / BitsInWord)).getLsbD (i % BitsInWord) := by
  have hi : i % BitsInWord < 32 := Nat.mod_lt _ (by decide)
  cases h : (b.map (i / BitsInWord)).getLsbD (i % BitsInWord) with
  | false =>
    have hz : b.map (i / BitsInWord) &&& mask i = 0 := by
      apply BitVec.eq_of_getLsbD_eq
      intro j hj
      rw [BitVec.getLsbD_and, getLsbD_mask hj]
      by_cases hij : i % BitsInWord = j
      · subst hij
        simp [h]
      · simp [hij]
    simp [test, hz]
  | true =>
    have hone : (b.map (i / BitsInWord) &&& mask i).getLsbD (i % BitsInWord) = true := by
      simp [getLsbD_mask hi, h]
    refine bne_iff_ne.mpr fun hz => ?_
    simp [hz] at hone

theorem eq_of_div_mod (hd : i / BitsInWord = j / BitsInWord)
    (hm : i % BitsInWord = j % BitsInWord) : i = j := by
  unfold BitsInWord at hd hm
  omega

theorem test_mark : (b.mark i).test j = (decide (i = j) || b.test j) := by
  have hj : j % BitsInWord < 32 := Nat.mod_lt _ (by decide)
  rw [test_eq, test_eq, map_mark]
  by_cases hw : j / BitsInWord = i / BitsInWord
  · rw [hw, update_self, BitVec.getLsbD_or, getLsbD_mask hj, Bool.or_comm]
    congr 1
    by_cases hm : i % BitsInWord = j % BitsInWord
    · simp [eq_of_div_mod hw.symm hm]
    · simp only [hm, decide_false]
      exact (decide_eq_false fun he => hm (by rw [he])).symm
  · rw [update_of_ne hw, decide_eq_false fun he => hw (by rw [he]), Bool.false_or]

theorem test_clear : (b.clear i).test j = (!decide (i = j) && b.test j) := by
  have hj : j % BitsInWord < 32 := Nat.mod_lt _ (by decide)
  rw [test_eq, test_eq, map_clear]
  by_cases hw : j / BitsInWord = i / BitsInWord
  · rw [hw, update_self, BitVec.getLsbD_and, BitVec.getLsbD_not, getLsbD_mask hj, Bool.and_comm]
    congr 1
    by_cases hm : i % BitsInWord = j % BitsInWord
    · simp [eq_of_div_mod hw.symm hm, hj]
    · have hne : i ≠ j := fun he => hm (by rw [he])
      simp [hm, hne, hj]
  · have hne : i ≠ j := fun he => hw (by rw [he])
    simp [update_of_ne hw, hne]

@[simp] theorem test_mark_self : (b.mark i).test i = true := by simp [test_mark]

@[simp] theorem test_clear_self : (b.clear i).test i = false := by simp [test_clear]

theorem test_mark_of_ne (h : i ≠ j) : (b.mark i).test j = b.test j := by simp [test_mark, h]

theorem test_clear_of_ne (h : i ≠ j) : (b.clear i).test j = b.test j := by simp [test_clear, h]

/-- `Find` marks the first clear bit. -/
theorem find_eq_some_iff {b' : BitMap} : b.find = some (i, b') ↔
    i < b.numBits ∧ b.test i = false ∧ (∀ j < i, b.test j = true) ∧ b' = b.mark i := by
  simp only [find, Option.map_eq_some_iff, Prod.mk.injEq, List.find?_range_eq_some,
    Bool.not_eq_true', Bool.not_not]
  constructor
  · rintro ⟨j, ⟨h₁, h₂, h₃⟩, rfl, rfl⟩
    exact ⟨by simpa using h₂, h₁, h₃, rfl⟩
  · rintro ⟨h₁, h₂, h₃, rfl⟩
    exact ⟨i, ⟨h₂, by simpa using h₁, h₃⟩, rfl, rfl⟩

theorem find_eq_none_iff : b.find = none ↔ ∀ i < b.numBits, b.test i = true := by
  simp [find]

theorem numClear_pos_iff : 0 < b.numClear ↔ ∃ i < b.numBits, b.test i = false := by
  simp [numClear, List.countP_pos_iff]

theorem countP_of_one {l : List ℕ} {p q : ℕ → Bool} (hl : l.Nodup) (hi : i ∈ l)
    (hp : p i = true) (hq : q i = false) (h : ∀ j, j ≠ i → q j = p j) :
    l.countP q + 1 = l.countP p := by
  induction l with
  | nil => cases hi
  | cons a l ih =>
    rw [List.nodup_cons] at hl
    by_cases ha : a = i
    · subst ha
      have hrest : l.countP q = l.countP p := List.countP_congr fun j hj => by
        rw [h j fun he => hl.1 (he ▸ hj)]
      simp [hp, hq, hrest]
    · have hrest := ih hl.2 ((List.mem_cons.mp hi).resolve_left (Ne.symm ha))
      rw [List.countP_cons, List.countP_cons, h a ha]
      omega

theorem numClear_mark (hi : i < b.numBits) (h : b.test i = false) :
    (b.mark i).numClear + 1 = b.numClear :=
  countP_of_one List.nodup_range (List.mem_range.mpr hi) (by simp [h]) (by simp)
    fun j hj => by rw [test_mark_of_ne hj.symm]

theorem numClear_clear (hi : i < b.numBits) (h : b.test i = true) :
    (b.clear i).numClear = b.numClear + 1 :=
  (countP_of_one List.nodup_range (List.mem_range.mpr hi) (by simp) (by simp [h])
    fun j hj => by rw [test_clear_of_ne hj.symm]).symm

def clearBits (b : BitMap) : List ℕ := (List.range b.numBits).filter fun i => !b.test i

theorem numClear_eq_length : b.numClear = b.clearBits.length := List.countP_eq_length_filter

theorem filter_eq_cons_of_find? {l : List ℕ} {p q : ℕ → Bool} (hl : l.Nodup)
    (h : l.find? p = some i) (hi : q i = false) (hq : ∀ j, j ≠ i → q j = p j) :
    l.filter p = i :: l.filter q := by
  induction l with
  | nil => cases h
  | cons a l ih =>
    rw [List.nodup_cons] at hl
    by_cases ha : p a = true
    · obtain rfl : a = i := by simpa [ha] using h
      have hrest : l.filter q = l.filter p := List.filter_congr fun j hj =>
        hq j fun he => hl.1 (he ▸ hj)
      simp [ha, hi, hrest]
    · have hne : a ≠ i := fun he => ha (he ▸ List.find?_some h)
      simp only [List.find?_cons, ha] at h
      simp [ha, hq a hne, ih hl.2 h]

theorem clearBits_of_find {c : BitMap} (h : b.find = some (i, c)) :
    b.clearBits = i :: c.clearBits := by
  simp only [find, Option.map_eq_some_iff, Prod.mk.injEq] at h
  obtain ⟨j, hj, rfl, rfl⟩ := h
  exact filter_eq_cons_of_find? List.nodup_range hj (by simp)
    fun k hk => by rw [test_mark_of_ne hk.symm]

theorem find_isSome_iff : b.find.isSome ↔ 0 < b.numClear := by
  rw [numClear_pos_iff, Option.isSome_iff_ne_none, ne_eq, find_eq_none_iff]
  simp

end BitMap

end Nachos
