import Mathlib.Data.Finset.Max
import Nachos.Filesys.Disk
import Nachos.Library.Object

/-! # Bit maps as sets

`BitMap` keeps a set of numbers below `nitems` in the bits of its words. The
constructor clears these bits only, so the bits of the last word behind them
keep what the memory held before.
-/

namespace Nachos.BitMap

open Filesys Object Outcome Finset

variable {b : BitMap} {i n : ℕ} {S : Finset ℕ}

/-- `BitMap::BitMap`, on words that are not initialised. -/
def new (nitems : ℕ) (words : ℕ → BitVec 32) : Except Fault BitMap :=
  (List.range nitems).foldlM (fun b i => b.clearBit (i : ℕ)) ⟨nitems, words⟩

inductive Op
  | mark (which : ℤ)
  | clear (which : ℤ)
  | test (which : ℤ)
  | find
  | numClear

inductive Answer
  | done
  | bool (b : Bool)
  | int (i : ℤ)
  deriving DecidableEq

def op : Op → BitMap → Except Fault (Answer × BitMap)
  | .mark which, b => (b.markBit which).map (.done, ·)
  | .clear which, b => (b.clearBit which).map (.done, ·)
  | .test which, b => (b.testBit which).map (.bool ·, b)
  | .find, b => .ok (.int b.findBit.1, b.findBit.2)
  | .numClear, b => .ok (.int b.numClear, b)

/-- What the operations mean for a set of numbers below `n`. -/
def setOp (n : ℕ) : Op → Finset ℕ → Answer × Finset ℕ
  | .mark i, S => (.done, insert i.toNat S)
  | .clear i, S => (.done, S.erase i.toNat)
  | .test i, S => (.bool (i.toNat ∈ S), S)
  | .find, S =>
    if h : (range n \ S).Nonempty then
      (.int ((range n \ S).min' h), insert ((range n \ S).min' h) S)
    else (.int (-1), S)
  | .numClear, S => (.int (n - S.card), S)

def Op.InRange (n : ℕ) : Op → Prop
  | .mark i | .clear i | .test i => 0 ≤ i ∧ i < n
  | .find | .numClear => True

/-- The first `n` bits are those of the set. -/
structure Represents (n : ℕ) (b : BitMap) (S : Finset ℕ) : Prop where
  numBits : b.numBits = n
  subset : S ⊆ range n
  test : ∀ i < n, b.test i = decide (i ∈ S)

/-! ## The constructor -/

theorem foldlM_clearBit {l : List ℕ} (hl : ∀ i ∈ l, i < b.numBits) :
    ∃ b', l.foldlM (fun b i => b.clearBit (i : ℕ)) b = .ok b' ∧ b'.numBits = b.numBits ∧
      ∀ i, b'.test i = (!decide (i ∈ l) && b.test i) := by
  induction l generalizing b with
  | nil => exact ⟨b, rfl, rfl, by simp⟩
  | cons a l ih =>
    have ha : b.clearBit (a : ℕ) = .ok (b.clear a) :=
      clearBit_eq_ok.mpr ⟨a, hl a (List.mem_cons_self ..), rfl, rfl⟩
    obtain ⟨b', hfold, hbits, htest⟩ :=
      ih (b := b.clear a) fun i hi => hl i (List.mem_cons_of_mem _ hi)
    refine ⟨b', by rw [List.foldlM_cons, ha, ok_bind, hfold], hbits, fun i => ?_⟩
    rw [htest, test_clear]
    by_cases hia : a = i
    · simp [hia]
    · simp [hia, Ne.symm hia]

theorem represents_new (n : ℕ) (words : ℕ → BitVec 32) :
    ∃ b, new n words = .ok b ∧ Represents n b ∅ := by
  obtain ⟨b, hnew, hbits, htest⟩ :=
    foldlM_clearBit (b := ⟨n, words⟩) (l := List.range n) fun i hi => List.mem_range.mp hi
  refine ⟨b, hnew, hbits, empty_subset _, fun i hi => ?_⟩
  rw [htest, decide_eq_true (List.mem_range.mpr hi)]
  simp

/-! ## The operations -/

namespace Represents

theorem mark (h : Represents n b S) (hi : i < n) : Represents n (b.mark i) (insert i S) where
  numBits := h.numBits
  subset := insert_subset (mem_range.mpr hi) h.subset
  test j hj := by
    rw [test_mark, h.test j hj]
    by_cases hij : i = j
    · simp [hij]
    · simp [hij, Ne.symm hij]

theorem clear (h : Represents n b S) : Represents n (b.clear i) (S.erase i) where
  numBits := h.numBits
  subset := (erase_subset i S).trans h.subset
  test j hj := by
    rw [test_clear, h.test j hj]
    by_cases hij : i = j
    · simp [hij]
    · simp [hij, Ne.symm hij]

theorem findBit_of_nonempty (h : Represents n b S) (hne : (range n \ S).Nonempty) :
    b.findBit = (((range n \ S).min' hne : ℤ), b.mark ((range n \ S).min' hne)) := by
  have hmem := (range n \ S).min'_mem hne
  rw [mem_sdiff, mem_range] at hmem
  have hfind : b.find = some ((range n \ S).min' hne, b.mark ((range n \ S).min' hne)) := by
    refine find_eq_some_iff.mpr ⟨h.numBits ▸ hmem.1, ?_, fun j hj => ?_, rfl⟩
    · rw [h.test _ hmem.1]
      exact decide_eq_false hmem.2
    · have hjn : j < n := hj.trans hmem.1
      rw [h.test j hjn]
      refine decide_eq_true (by_contra fun hjS => ?_)
      have hle := (range n \ S).min'_le j (mem_sdiff.mpr ⟨mem_range.mpr hjn, hjS⟩)
      omega
  rw [findBit, hfind]

theorem findBit_of_full (h : Represents n b S) (hfull : ¬ (range n \ S).Nonempty) :
    b.findBit = (-1, b) := by
  have hfind : b.find = none := by
    refine find_eq_none_iff.mpr fun i hi => ?_
    rw [h.numBits] at hi
    rw [h.test i hi]
    refine decide_eq_true (by_contra fun hiS => hfull ⟨i, ?_⟩)
    exact mem_sdiff.mpr ⟨mem_range.mpr hi, hiS⟩
  rw [findBit, hfind]

theorem numClear (h : Represents n b S) : (b.numClear : ℤ) = n - S.card := by
  have hcount : b.numClear = (range n \ S).card := by
    rw [BitMap.numClear, h.numBits, sdiff_eq_filter]
    have hcongr : (List.range n).countP (fun i => !b.test i) =
        (List.range n).countP fun i => decide (i ∉ S) :=
      List.countP_congr fun i hi => by simp [h.test i (List.mem_range.mp hi)]
    rw [hcongr, List.countP_eq_length_filter]
    rfl
  have hcard := card_sdiff_add_card_eq_card h.subset
  rw [card_range] at hcard
  omega

end Represents

/-- Each operation does to the set what it says. -/
theorem refines_setOp : Refines op (setOp n) (Op.InRange n) (Represents n) := by
  intro b S a h ha
  cases a with
  | mark i =>
    obtain ⟨h₀, hn⟩ : 0 ≤ i ∧ i < n := ha
    refine ⟨b.mark i.toNat, ?_, h.mark (by omega)⟩
    rw [op, markBit, h.numBits, if_pos ⟨h₀, hn⟩]
    rfl
  | clear i =>
    obtain ⟨h₀, hn⟩ : 0 ≤ i ∧ i < n := ha
    refine ⟨b.clear i.toNat, ?_, h.clear⟩
    rw [op, clearBit, h.numBits, if_pos ⟨h₀, hn⟩]
    rfl
  | test i =>
    obtain ⟨h₀, hn⟩ : 0 ≤ i ∧ i < n := ha
    refine ⟨b, ?_, h⟩
    rw [op, testBit, h.numBits, if_pos ⟨h₀, hn⟩, h.test _ (by omega)]
    rfl
  | find =>
    by_cases hne : (range n \ S).Nonempty
    · rw [setOp, dif_pos hne, op, h.findBit_of_nonempty hne]
      refine ⟨b.mark _, rfl, h.mark ?_⟩
      exact mem_range.mp (mem_sdiff.mp ((range n \ S).min'_mem hne)).1
    · rw [setOp, dif_neg hne, op, h.findBit_of_full hne]
      exact ⟨b, rfl, h⟩
  | numClear => exact ⟨b, by rw [op, h.numClear]; rfl, h⟩

/-- For every number of bits and every content of the words before, a bit map answers every
sequence of operations as a set that starts empty, and represents that set after it. -/
theorem run_op_eq_setOp (nitems : ℕ) (words : ℕ → BitVec 32) (ops : List Op)
    (hops : ∀ a ∈ ops, a.InRange nitems) :
    ∃ b b', new nitems words = .ok b ∧
      run op ops b = .ok ((runSpec (setOp nitems) ops ∅).1, b') ∧
      Represents nitems b' (runSpec (setOp nitems) ops ∅).2 := by
  obtain ⟨b, hnew, hb⟩ := represents_new nitems words
  obtain ⟨b', hrun, hb'⟩ := refines_setOp.run hops hb
  exact ⟨b, b', hnew, hrun, hb'⟩

/-- A second word with one bit in use, and ones in all the words before. -/
theorem run_op_eq_setOp_ones :
    let ops := [.find, .mark 32, .find, .clear 0, .test 32, .numClear, .find]
    (∀ a ∈ ops, a.InRange 33) ∧
    ∃ b b', new 33 (fun _ => BitVec.allOnes 32) = .ok b ∧
      run op ops b = .ok ([.int 0, .done, .int 1, .done, .bool true, .int 31, .int 0], b') ∧
      Represents 33 b' {0, 1, 32} := by
  have hops : ∀ a ∈ [Op.find, .mark 32, .find, .clear 0, .test 32, .numClear, .find],
      a.InRange 33 := by
    simp [Op.InRange]
  have hspec : runSpec (setOp 33) [.find, .mark 32, .find, .clear 0, .test 32, .numClear, .find] ∅ =
      ([.int 0, .done, .int 1, .done, .bool true, .int 31, .int 0], {0, 1, 32}) := by
    decide +kernel
  have h := run_op_eq_setOp 33 (fun _ => BitVec.allOnes 32) _ hops
  rw [hspec] at h
  exact ⟨hops, h⟩

end Nachos.BitMap
