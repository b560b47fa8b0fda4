import Mathlib.Data.List.Nodup
import Nachos.Library.Outcome
import Nachos.Filesys.FileHeader

/-! # What `Allocate` takes from the free map

`Allocate` takes the clear bits of the free map in their order: a data sector
for each of the first four entries of the header, then for each block its own
sector and up to 31 data sectors. It does not look whether the map had a bit
left for each of them.
-/

namespace Nachos

open Function

/-! ## Bits found one after the other -/

namespace BitMap

variable {m : BitMap} {i k n : ℕ}

def after (m : BitMap) : ℕ → BitMap
  | 0 => m
  | k + 1 => (m.after k).findBit.2

def nth (m : BitMap) (k : ℕ) : ℤ := (m.after k).findBit.1

theorem findBit_eq (m : BitMap) (k : ℕ) : (m.after k).findBit = (m.nth k, m.after (k + 1)) := rfl

theorem after_add : (m.after n).after k = m.after (n + k) := by
  induction k with
  | zero => rfl
  | succ k ih => rw [after, ih, ← Nat.add_assoc, after]

theorem clearBits_after : (m.after k).clearBits = m.clearBits.drop k := by
  induction k with
  | zero => rfl
  | succ k ih =>
    rw [after, ← List.drop_drop, ← ih, findBit]
    cases hf : (m.after k).find with
    | none =>
      have hnil : (m.after k).clearBits = [] := by
        rw [find_eq_none_iff] at hf
        simpa [clearBits] using hf
      simp [hnil]
    | some r =>
      obtain ⟨i, m'⟩ := r
      simp [clearBits_of_find hf]

theorem nth_of_lt (hk : k < m.clearBits.length) : m.nth k = (m.clearBits[k] : ℕ) := by
  have hdrop := clearBits_after (m := m) (k := k)
  rw [List.drop_eq_getElem_cons hk] at hdrop
  rw [nth, findBit]
  cases hf : (m.after k).find with
  | none =>
    rw [find_eq_none_iff] at hf
    have hnil : (m.after k).clearBits = [] := by simpa [clearBits] using hf
    rw [hnil] at hdrop
    cases hdrop
  | some r =>
    obtain ⟨i, m'⟩ := r
    rw [clearBits_of_find hf] at hdrop
    rw [(List.cons.inj hdrop).1]

theorem nth_of_le (hk : m.clearBits.length ≤ k) : m.nth k = -1 := by
  have hnil : (m.after k).clearBits = [] := by rw [clearBits_after, List.drop_eq_nil_of_le hk]
  rw [nth, findBit]
  cases hf : (m.after k).find with
  | none => rfl
  | some r =>
    obtain ⟨i, m'⟩ := r
    rw [clearBits_of_find hf] at hnil
    cases hnil

theorem numBits_after : (m.after k).numBits = m.numBits := by
  induction k with
  | zero => rfl
  | succ k ih =>
    rw [after, findBit]
    cases hf : (m.after k).find with
    | none => exact ih
    | some r =>
      obtain ⟨i, m'⟩ := r
      obtain ⟨-, -, -, rfl⟩ := find_eq_some_iff.mp hf
      exact ih

theorem mem_clearBits : i ∈ m.clearBits ↔ i < m.numBits ∧ m.test i = false := by
  simp [clearBits]

theorem test_after_of_le (hi : m.numBits ≤ i) : (m.after k).test i = m.test i := by
  induction k with
  | zero => rfl
  | succ k ih =>
    rw [after, findBit]
    cases hf : (m.after k).find with
    | none => exact ih
    | some r =>
      obtain ⟨j, m'⟩ := r
      obtain ⟨hj, -, -, rfl⟩ := find_eq_some_iff.mp hf
      rw [numBits_after] at hj
      rw [test_mark_of_ne (by omega), ih]

theorem test_after : (m.after k).test i = (m.test i || decide (i ∈ m.clearBits.take k)) := by
  have hnodup : m.clearBits.Nodup := List.nodup_range.filter _
  have hsplit : i ∈ m.clearBits ↔ i ∈ m.clearBits.take k ∨ i ∈ m.clearBits.drop k := by
    rw [← List.mem_append, List.take_append_drop]
  have hdisj : i ∈ m.clearBits.take k → i ∉ m.clearBits.drop k := by
    intro h₁ h₂
    rw [← List.take_append_drop k m.clearBits, List.nodup_append] at hnodup
    exact hnodup.2.2 i h₁ i h₂ rfl
  rcases Nat.lt_or_ge i m.numBits with hi | hi
  · have hmem : i ∈ (m.after k).clearBits ↔ (m.after k).test i = false := by
      rw [mem_clearBits, numBits_after]
      exact and_iff_right hi
    rw [clearBits_after] at hmem
    rw [mem_clearBits, and_iff_right hi] at hsplit
    cases ht : m.test i with
    | true =>
      have : i ∉ m.clearBits.drop k := fun h => by simpa [ht] using hsplit.mpr (.inr h)
      simpa using mt hmem.mpr this
    | false =>
      by_cases htake : i ∈ m.clearBits.take k
      · simpa [htake] using mt hmem.mpr (hdisj htake)
      · have hdrop := (hsplit.mp ht).resolve_left htake
        simp [htake, hmem.mp hdrop]
  · have hout : i ∉ m.clearBits.take k := fun h =>
      absurd (mem_clearBits.mp (hsplit.mpr (.inl h))).1 (Nat.not_lt.mpr hi)
    simp [hout, test_after_of_le hi]

theorem exists_nth (hk : k < m.numClear) : ∃ i < m.numBits, m.nth k = i ∧ m.test i = false := by
  rw [numClear_eq_length] at hk
  obtain ⟨hlt, htest⟩ := mem_clearBits.mp (List.getElem_mem hk)
  exact ⟨_, hlt, nth_of_lt hk, htest⟩

theorem nth_eq_neg_one_iff : m.nth k = -1 ↔ m.numClear ≤ k := by
  rw [numClear_eq_length]
  rcases Nat.lt_or_ge k m.clearBits.length with hlt | hge
  · rw [nth_of_lt hlt]
    omega
  · simp [nth_of_le hge, hge]

theorem nth_inj (hi : i < m.numClear) (hk : k < m.numClear) (h : m.nth i = m.nth k) : i = k := by
  rw [numClear_eq_length] at hi hk
  rw [nth_of_lt hi, nth_of_lt hk, Int.natCast_inj] at h
  have hnodup : m.clearBits.Nodup := List.nodup_range.filter _
  exact hnodup.getElem_inj_iff.mp h

theorem nth_after : (m.after k).nth i = m.nth (k + i) := by rw [nth, after_add, nth]

theorem numClear_after : (m.after k).numClear = m.numClear - k := by
  rw [numClear_eq_length, numClear_eq_length, clearBits_after, List.length_drop]

end BitMap

namespace Filesys.FileHeader

open Outcome

variable {h : FileHeader} {m : BitMap} {seq : ℕ → ℤ} {i j k n r : ℕ}

/-! ## The turns of the loop -/

/-- A block with the sectors found from the call number `k` on. -/
def foundBlock (seq : ℕ → ℤ) (k c : ℕ) : IndirectPointerBlock :=
  ⟨c, fun j => if (j : ℕ) < c then seq (k + j) else 0⟩

theorem putSectors_empty (hn : n ≤ MaxIndirectPointers) :
    putSectors n .empty (m.after k) = .ok (foundBlock m.nth k n, m.after (k + n)) := by
  induction n with
  | zero => rfl
  | succ n ih =>
    rw [putSectors, ih (Nat.le_of_succ_le hn), ok_bind]
    simp only [BitMap.findBit_eq, IndirectPointerBlock.putSector, foundBlock]
    rw [setAt_natCast hn, ok_bind, pure_eq_ok, ok_bind, pure_eq_ok]
    congr 2
    rw [IndirectPointerBlock.mk.injEq]
    refine ⟨by push_cast; rfl, funext fun j => ?_⟩
    by_cases hj : j = ⟨n, hn⟩
    · subst hj
      simp
    · have hj' : (j : ℕ) ≠ n := fun he => hj (Fin.ext he)
      rw [update_of_ne hj]
      by_cases hlt : (j : ℕ) < n
      · simp [hlt, Nat.lt_succ_of_lt hlt]
      · simp [hlt, show ¬ (j : ℕ) < n + 1 by omega]

/-- The data sectors that a file of `n` sectors has in its first `i` entries. -/
def dataBefore (n i : ℕ) : ℕ := min n (min i NumDirect + MaxIndirectPointers * (i - NumDirect))

def takenBefore (n i : ℕ) : ℕ := dataBefore n i + (i - NumDirect)

def numEntries (n : ℕ) : ℕ := min n NumDirect + divRoundUp (n - NumDirect) PointersPerIndirect

theorem dataBefore_lt (hi : i < numEntries n) : dataBefore n i < n := by
  unfold numEntries divRoundUp PointersPerIndirect NumDirect at hi
  unfold dataBefore NumDirect MaxIndirectPointers
  split at hi <;> omega

theorem dataBefore_numEntries : dataBefore n (numEntries n) = n := by
  unfold numEntries divRoundUp PointersPerIndirect dataBefore NumDirect MaxIndirectPointers
  split <;> omega

/-- The header with the first `i` entries filled with what `Find` returned. -/
def filled (h : FileHeader) (n : ℕ) (seq : ℕ → ℤ) (i : ℕ) : FileHeader :=
  { h with
    dataSectors := fun j => if (j : ℕ) < i then seq j else h.dataSectors j
    indirectSector := fun j =>
      if NumDirect + j < i then seq (takenBefore n (NumDirect + j)) else h.indirectSector j
    indirectPointers := fun j =>
      if NumDirect + j < i then
        some (foundBlock seq (takenBefore n (NumDirect + j) + 1)
          (dataBefore n (NumDirect + j + 1) - dataBefore n (NumDirect + j)))
      else h.indirectPointers j }

theorem filled_zero : h.filled n seq 0 = h := by simp [filled]

theorem update_filled {α : Type} {l : ℕ} {a : Fin l → α} {g : ℕ → α} (c : ℕ) (hi : i < l) :
    update (fun j : Fin l => if c + (j : ℕ) < c + i then g j else a j) ⟨i, hi⟩ (g i) =
      fun j : Fin l => if c + (j : ℕ) < c + (i + 1) then g j else a j := by
  funext j
  by_cases hj : j = ⟨i, hi⟩
  · subst hj
    simp
  · have hj' : (j : ℕ) ≠ i := fun he => hj (Fin.ext he)
    rw [update_of_ne hj]
    by_cases hji : (j : ℕ) < i
    · simp [hji, Nat.lt_succ_of_lt hji]
    · simp [hji, show ¬ (j : ℕ) < i + 1 by omega]

theorem allocateTurn_direct (hi : i < numEntries n) (hd : i < NumDirect) :
    allocateTurn i (n - dataBefore n i) (h.filled n m.nth i) (m.after (takenBefore n i)) =
      .ok (n - dataBefore n (i + 1), h.filled n m.nth (i + 1),
        m.after (takenBefore n (i + 1))) := by
  have hlt := dataBefore_lt hi
  have hbefore : dataBefore n i = i := by
    unfold dataBefore NumDirect MaxIndirectPointers at *
    omega
  have hnext : dataBefore n (i + 1) = i + 1 := by
    unfold dataBefore NumDirect MaxIndirectPointers at *
    omega
  have htaken : takenBefore n i = i := by unfold takenBefore; omega
  have htaken' : takenBefore n (i + 1) = i + 1 := by unfold takenBefore; omega
  rw [allocateTurn, if_pos hd]
  simp only [htaken, htaken', hbefore, hnext, BitMap.findBit_eq]
  rw [setAt_natCast hd, ok_bind, pure_eq_ok]
  congr 2
  rw [Prod.mk.injEq]
  refine ⟨?_, rfl⟩
  have hblocks : ∀ j : Fin NumInDirect, ¬ NumDirect + (j : ℕ) < i ∧ ¬ NumDirect + (j : ℕ) < i + 1 :=
    fun j => by omega
  have hdata := update_filled (a := h.dataSectors) (g := m.nth) 0 hd
  simp only [Nat.zero_add] at hdata
  simp only [filled, hdata, hblocks, if_false]

theorem allocateTurn_block (hi : NumDirect + i < numEntries n) (hb : i < NumInDirect) :
    allocateTurn (NumDirect + i) (n - dataBefore n (NumDirect + i))
        (h.filled n m.nth (NumDirect + i)) (m.after (takenBefore n (NumDirect + i))) =
      .ok (n - dataBefore n (NumDirect + (i + 1)), h.filled n m.nth (NumDirect + (i + 1)),
        m.after (takenBefore n (NumDirect + (i + 1)))) := by
  have hlt := dataBefore_lt hi
  have hcount : min (n - dataBefore n (NumDirect + i)) MaxIndirectPointers =
      dataBefore n (NumDirect + i + 1) - dataBefore n (NumDirect + i) := by
    unfold dataBefore NumDirect MaxIndirectPointers at *
    omega
  have hle : dataBefore n (NumDirect + i) ≤ dataBefore n (NumDirect + i + 1) := by
    unfold dataBefore NumDirect MaxIndirectPointers
    omega
  have htaken : takenBefore n (NumDirect + i) + 1 +
      (dataBefore n (NumDirect + i + 1) - dataBefore n (NumDirect + i)) =
        takenBefore n (NumDirect + (i + 1)) := by
    unfold takenBefore
    rw [← Nat.add_assoc]
    omega
  have hmax : dataBefore n (NumDirect + i + 1) - dataBefore n (NumDirect + i) ≤
      MaxIndirectPointers := hcount ▸ Nat.min_le_right ..
  have hleft : n - dataBefore n (NumDirect + i) -
      (dataBefore n (NumDirect + i + 1) - dataBefore n (NumDirect + i)) =
        n - dataBefore n (NumDirect + (i + 1)) := by
    rw [← Nat.add_assoc]
    omega
  have hdirect : ∀ j : Fin NumDirect, (j : ℕ) < NumDirect + i ∧ (j : ℕ) < NumDirect + (i + 1) :=
    fun j => by have := j.isLt; omega
  rw [allocateTurn, if_neg (by omega), Nat.add_sub_cancel_left]
  simp only [BitMap.findBit_eq, hcount]
  rw [setAt_natCast hb, ok_bind, putSectors_empty hmax, ok_bind]
  simp only [setAt_natCast hb, ok_bind, pure_eq_ok, hleft, htaken, filled, hdirect, if_true]
  rw [update_filled (g := fun j => m.nth (takenBefore n (NumDirect + j))) NumDirect hb,
    update_filled (g := fun j => some (foundBlock m.nth (takenBefore n (NumDirect + j) + 1)
      (dataBefore n (NumDirect + j + 1) - dataBefore n (NumDirect + j)))) NumDirect hb]

theorem numEntries_le (hn : n ≤ NumDirect + NumInDirect * MaxIndirectPointers) :
    numEntries n ≤ NumDirect + NumInDirect := by
  unfold numEntries divRoundUp PointersPerIndirect
  unfold NumDirect NumInDirect MaxIndirectPointers at *
  split <;> omega

theorem allocateTurn_eq (hn : n ≤ NumDirect + NumInDirect * MaxIndirectPointers)
    (hi : i < numEntries n) :
    allocateTurn i (n - dataBefore n i) (h.filled n m.nth i) (m.after (takenBefore n i)) =
      .ok (n - dataBefore n (i + 1), h.filled n m.nth (i + 1),
        m.after (takenBefore n (i + 1))) := by
  rcases Nat.lt_or_ge i NumDirect with hd | hd
  · exact allocateTurn_direct hi hd
  · obtain ⟨b, rfl⟩ := Nat.exists_eq_add_of_le hd
    have := numEntries_le hn
    exact allocateTurn_block hi (by omega)

theorem allocateLoop_eq (hn : n ≤ NumDirect + NumInDirect * MaxIndirectPointers)
    (hi : i ≤ numEntries n) (hr : n - dataBefore n i ≤ r) :
    allocateLoop r i (n - dataBefore n i) (h.filled n m.nth i) (m.after (takenBefore n i)) =
      .ok (h.filled n m.nth (numEntries n), m.after (takenBefore n (numEntries n))) := by
  induction r generalizing i with
  | zero =>
    have hend : i = numEntries n := by
      by_contra hne
      have := dataBefore_lt (n := n) (i := i) (by omega)
      omega
    subst hend
    rw [allocateLoop, if_neg (by omega)]
  | succ r ih =>
    rw [allocateLoop]
    rcases Nat.lt_or_eq_of_le hi with hlt | rfl
    · have hpos := dataBefore_lt hlt
      have hnext : dataBefore n i < dataBefore n (i + 1) := by
        unfold dataBefore NumDirect MaxIndirectPointers at *
        omega
      rw [if_pos (by omega), allocateTurn_eq hn hlt, ok_bind]
      exact ih hlt (by omega)
    · rw [if_neg (by rw [dataBefore_numEntries]; omega)]

/-- The data sectors of a file of this size. -/
def dataSectorsOf (fileSize : ℤ) : ℕ := divRoundUp fileSize.toNat SectorSize

theorem dataSectorsOf_le {size : ℤ} (h : size ≤ MaxFileSize) :
    dataSectorsOf size ≤ NumDirect + NumInDirect * MaxIndirectPointers := by
  unfold MaxFileSize NumDirect NumInDirect MaxIndirectPointers SectorSize at h
  unfold dataSectorsOf divRoundUp NumDirect NumInDirect MaxIndirectPointers SectorSize
  split <;> omega

/-- The data sectors and the blocks of a file of this size. -/
def totalSectorsOf (fileSize : ℤ) : ℕ :=
  dataSectorsOf fileSize + divRoundUp (dataSectorsOf fileSize - NumDirect) PointersPerIndirect

/-- The header that `Allocate` makes from what `Find` returns. -/
def allocated (h : FileHeader) (fileSize : ℤ) (seq : ℕ → ℤ) : FileHeader :=
  { h with numBytes := fileSize, numSectors := dataSectorsOf fileSize }.filled
    (dataSectorsOf fileSize) seq (numEntries (dataSectorsOf fileSize))

theorem takenBefore_numEntries :
    takenBefore n (numEntries n) = n + divRoundUp (n - NumDirect) PointersPerIndirect := by
  rw [takenBefore, dataBefore_numEntries, numEntries]
  unfold divRoundUp NumDirect PointersPerIndirect
  split <;> omega

/-- `Allocate` fails for a size out of range or when the data sectors do not fit. -/
theorem allocate_eq_false {size : ℤ}
    (hs : size < 0 ∨ MaxFileSize < size ∨ m.numClear < dataSectorsOf size) :
    ∃ h', h.allocate m size = .ok (false, h', m) := by
  unfold allocate
  split
  case isTrue => exact ⟨h, rfl⟩
  case isFalse hsize =>
    have hclear : m.numClear < divRoundUp size.toNat SectorSize := by
      rcases hs with hs | hs | hs
      · exact absurd (.inl hs) hsize
      · exact absurd (.inr hs) hsize
      · exact hs
    dsimp only
    rw [if_pos hclear]
    exact ⟨_, rfl⟩

/-- Otherwise it takes the sectors in their order, or `-1` for those that are not there. -/
theorem allocate_eq_true {size : ℤ} (h₀ : 0 ≤ size) (h₁ : size ≤ MaxFileSize)
    (hn : dataSectorsOf size ≤ m.numClear) :
    h.allocate m size = .ok (true, h.allocated size m.nth, m.after (totalSectorsOf size)) := by
  have hmax := dataSectorsOf_le h₁
  have hloop := allocateLoop_eq (m := m)
    (h := { h with numBytes := size, numSectors := dataSectorsOf size }) (i := 0) hmax
    (Nat.zero_le _) (Nat.sub_le ..)
  have hzero : dataBefore (dataSectorsOf size) 0 = 0 := by simp [dataBefore]
  have hzero' : takenBefore (dataSectorsOf size) 0 = 0 := by simp [takenBefore, hzero]
  rw [hzero, hzero', filled_zero, Nat.sub_zero, BitMap.after, takenBefore_numEntries] at hloop
  rw [allocate, if_neg (by omega)]
  have hclear : ¬ m.numClear < divRoundUp size.toNat SectorSize := Nat.not_lt.mpr hn
  dsimp only
  rw [if_neg hclear]
  unfold dataSectorsOf at hloop
  rw [hloop]
  rfl

/-! ## The sectors of an allocated file -/

theorem flatMap_pieces {α : Type} {f : ℕ → List α} {g : ℕ → α} {t : ℕ → ℕ} (h₀ : t 0 = 0)
    (hf : ∀ i < n, t i ≤ t (i + 1) ∧ f i = (List.range' (t i) (t (i + 1) - t i)).map g) :
    (List.range n).flatMap f = (List.range (t n)).map g := by
  induction n with
  | zero => simp [h₀]
  | succ n ih =>
    obtain ⟨hle, hpiece⟩ := hf n (Nat.lt_succ_self n)
    have hsplit : List.range (t (n + 1)) =
        List.range (t n) ++ List.range' (t n) (t (n + 1) - t n) := by
      have happ := @List.range'_append_1 0 (t n) (t (n + 1) - t n)
      rw [Nat.zero_add, Nat.add_sub_cancel' hle] at happ
      simpa only [List.range_eq_range'] using happ.symm
    rw [List.range_succ, List.flatMap_append, ih fun i hi => hf i (Nat.lt_succ_of_lt hi), hsplit,
      List.map_append]
    simp [hpiece]

theorem numEntries_eq_entries (hn : h.numSectors = n) : h.entries = numEntries n := by
  rw [entries, indirects, hn, numEntries, Int.toNat_natCast]
  congr 2
  omega

theorem entrySectors_filled (hn : h.numSectors = n) (hi : i < numEntries n)
    (hmax : n ≤ NumDirect + NumInDirect * MaxIndirectPointers) :
    takenBefore n i ≤ takenBefore n (i + 1) ∧
      (h.filled n seq (numEntries n)).entrySectors i =
        (List.range' (takenBefore n i) (takenBefore n (i + 1) - takenBefore n i)).map seq := by
  have hlt := dataBefore_lt hi
  rcases Nat.lt_or_ge i NumDirect with hd | hd
  · have htaken : takenBefore n i = i ∧ takenBefore n (i + 1) = i + 1 := by
      unfold takenBefore dataBefore NumDirect MaxIndirectPointers at *
      omega
    rw [htaken.1, htaken.2, entrySectors, dif_pos hd, Nat.add_sub_cancel_left]
    simp [filled, hi]
  · obtain ⟨b, rfl⟩ := Nat.exists_eq_add_of_le hd
    have hb : b < NumInDirect := by have := numEntries_le hmax; omega
    obtain ⟨c, hc⟩ : ∃ c, c = dataBefore n (NumDirect + b + 1) - dataBefore n (NumDirect + b) :=
      ⟨_, rfl⟩
    have hcount : c = min MaxIndirectPointers (n - (NumDirect + b * MaxIndirectPointers)) := by
      unfold dataBefore NumDirect MaxIndirectPointers at *
      omega
    have htaken : takenBefore n (NumDirect + b + 1) = takenBefore n (NumDirect + b) + (c + 1) := by
      unfold takenBefore
      have : dataBefore n (NumDirect + b) ≤ dataBefore n (NumDirect + b + 1) := by
        unfold dataBefore NumDirect MaxIndirectPointers
        omega
      omega
    have hblock : (List.ofFn (foundBlock seq
        (takenBefore n (NumDirect + b) + 1) c).dataSectors).take
        (n - (NumDirect + b * MaxIndirectPointers)) =
          (List.range' (takenBefore n (NumDirect + b) + 1) c).map seq := by
      apply List.ext_getElem
      · simp [hcount, Nat.min_comm]
      · intro j h₁ h₂
        have hj : j < c := by simpa using h₂
        simp [foundBlock, hj]
    have hlt' : NumDirect + b - NumDirect < NumInDirect := by omega
    refine ⟨by omega, ?_⟩
    rw [htaken, Nat.add_sub_cancel_left, entrySectors, dif_neg (by omega), dif_pos hlt',
      List.range'_succ, List.map_cons, ← hblock]
    simp only [blockSectors, filled, hn, Int.toNat_natCast, Nat.add_sub_cancel_left, hi, if_true,
      hc]

/-- The sectors of an allocated file are those that `Find` returned, in this order. -/
theorem sectors_allocated {size : ℤ} (h₁ : size ≤ MaxFileSize) :
    (h.allocated size seq).sectors = (List.range (totalSectorsOf size)).map seq := by
  have hmax := dataSectorsOf_le h₁
  rw [sectors, numEntries_eq_entries (n := dataSectorsOf size) rfl, totalSectorsOf,
    ← takenBefore_numEntries]
  exact flatMap_pieces (by simp [takenBefore, dataBefore])
    fun i hi => entrySectors_filled rfl hi hmax

end Filesys.FileHeader

end Nachos
