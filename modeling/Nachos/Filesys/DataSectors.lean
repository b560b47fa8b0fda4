import Nachos.Filesys.Growth

/-! # The data sectors of a file

The header of a file lists its data sectors in the order in which `Allocate`
takes them. `ByteToSector` looks every sector behind the direct ones up in the
block of the last sector, so it finds the data sectors of files with at most one
block, which is not full.
-/

namespace Nachos.Filesys

open Function Outcome

variable {h : FileHeader} {sec seq : ℕ → Fin NumSectors} {i j n L : ℕ} {z : ℤ}

namespace FileHeader

/-- The data sector with a number, in the order in which `Allocate` takes them. -/
def dataSector (h : FileHeader) (i : ℕ) : Except Fault ℤ :=
  if i < NumDirect then getAt h.dataSectors i
  else do
    match ← getAt h.indirectPointers ((i - NumDirect) / MaxIndirectPointers : ℕ) with
    | some block => getAt block.dataSectors ((i - NumDirect) % MaxIndirectPointers : ℕ)
    | none => .error .undefined

def Lists (h : FileHeader) (n : ℕ) (sec : ℕ → Fin NumSectors) : Prop :=
  ∀ i < n, h.dataSector i = .ok (sec i : ℕ)

/-- The block in which `ByteToSector` looks has the sector at the place of data sector `i` of the
first block. -/
def LastBlockHas (h : FileHeader) (i : ℕ) (z : ℤ) : Prop :=
  ∃ (j : Fin NumInDirect) (b : IndirectPointerBlock) (l : Fin MaxIndirectPointers),
    ((j : ℕ) : ℤ) = (h.numSectors - NumDirect) / PointersPerIndirect ∧ NumDirect + (l : ℕ) = i ∧
      h.indirectPointers j = some b ∧ b.dataSectors l = z

theorem byteToSector_iff_lastBlockHas (hi : NumDirect ≤ i) :
    h.byteToSector (i * SectorSize) = .ok z ↔ h.LastBlockHas i z := by
  constructor
  · exact byteToSector_eq_ok hi
  · rintro ⟨j, b, l, hj, rfl, hptr, rfl⟩
    have hnum : ¬ h.numSectors < NumDirect := by
      unfold PointersPerIndirect at hj
      omega
    have hl : ((NumDirect + (l : ℕ)) * SectorSize - SectorSize * NumDirect) / SectorSize = l := by
      rw [Nat.mul_comm SectorSize, ← Nat.sub_mul, Nat.mul_div_cancel _ sectorSize_pos,
        Nat.add_sub_cancel_left]
    rw [byteToSector, Nat.mul_div_cancel _ sectorSize_pos]
    dsimp only
    rw [if_neg (by omega), if_neg hnum, ← hj, getAt_natCast j.isLt, ok_bind, Fin.eta, hptr]
    dsimp only
    rw [IndirectPointerBlock.byteToSector, hl, getAt_natCast l.isLt]

/-- `ByteToSector` finds a data sector if it is a direct one or the last block has it. -/
theorem Lists.byteToSector_iff (hlists : h.Lists n sec) (hi : i < n) :
    h.byteToSector (i * SectorSize) = .ok (sec i : ℕ) ↔
      (NumDirect ≤ i → h.LastBlockHas i (sec i : ℕ)) := by
  rcases Nat.lt_or_ge i NumDirect with hd | hd
  · have hsec := hlists i hi
    rw [dataSector, if_pos hd, getAt_natCast hd] at hsec
    rw [byteToSector_mul hd]
    exact ⟨fun _ h => absurd hd (Nat.not_lt.mpr h), fun _ => hsec⟩
  · rw [byteToSector_iff_lastBlockHas hd]
    exact ⟨fun h _ => h, fun h => h hd⟩

theorem Maps.lists (hm : h.Maps n sec) (hn : n ≤ NumDirect) : h.Lists n sec := by
  intro i hi
  have hd : i < NumDirect := by omega
  have hsec := hm i hi
  rw [byteToSector_mul hd] at hsec
  rw [dataSector, if_pos hd, getAt_natCast hd, hsec]

/-! ## Files that `Create` makes -/

theorem lists_allocated (hle : L ≤ MaxFileSize) :
    (zero.allocated L fun j => (seq j : ℕ)).Lists (dataSectorsOf L)
      fun i => seq (dataIndex i) := by
  intro i hi
  have hmax : dataSectorsOf L ≤ NumDirect + NumInDirect * MaxIndirectPointers :=
    dataSectorsOf_le (by exact_mod_cast hle)
  rcases Nat.lt_or_ge i NumDirect with hd | hd
  · have hentry : i < numEntries (dataSectorsOf L) := by
      unfold numEntries
      omega
    rw [dataSector, if_pos hd, getAt_natCast hd]
    simp [allocated, filled, hentry, dataIndex, hd]
  · obtain ⟨b, hb⟩ : ∃ b, (i - NumDirect) / MaxIndirectPointers = b := ⟨_, rfl⟩
    obtain ⟨l, hl⟩ : ∃ l, (i - NumDirect) % MaxIndirectPointers = l := ⟨_, rfl⟩
    have hsplit : i = NumDirect + b * MaxIndirectPointers + l ∧ l < MaxIndirectPointers := by
      unfold NumDirect MaxIndirectPointers at *
      omega
    have hbound : b < NumInDirect := by
      unfold NumDirect NumInDirect MaxIndirectPointers at *
      omega
    have hentry : NumDirect + b < numEntries (dataSectorsOf L) := by
      unfold numEntries divRoundUp PointersPerIndirect NumDirect MaxIndirectPointers at *
      split <;> omega
    have hcount : l < dataBefore (dataSectorsOf L) (NumDirect + b + 1) -
        dataBefore (dataSectorsOf L) (NumDirect + b) := by
      unfold dataBefore NumDirect MaxIndirectPointers at *
      omega
    have hindex : takenBefore (dataSectorsOf L) (NumDirect + b) + 1 + l = dataIndex i := by
      rw [dataIndex, if_neg (by omega), hb]
      unfold takenBefore dataBefore NumDirect MaxIndirectPointers at *
      omega
    rw [dataSector, if_neg (by omega), hb, hl, getAt_natCast hbound, ok_bind]
    simp only [allocated, filled, if_pos hentry]
    rw [getAt_natCast hsplit.2]
    simp only [foundBlock, if_pos hcount, hindex]

/-- With a full block no data sector up to the end of the first block is found in the last one. -/
theorem lt_of_lastBlockHas (hdist : Distinct (totalSectorsOf L) seq)
    (hzero : ∀ j < totalSectorsOf L, (seq j : ℕ) ≠ 0) (hj : j < dataSectorsOf L)
    (hfirst : j < NumDirect + MaxIndirectPointers)
    (hhas : (zero.allocated L fun j => (seq j : ℕ)).LastBlockHas i (seq (dataIndex j) : ℕ)) :
    dataSectorsOf L < NumDirect + MaxIndirectPointers := by
  obtain ⟨r, b, l, hr, -, hptr, hl⟩ := hhas
  by_contra hge
  have hr : (r : ℕ) = (dataSectorsOf L - NumDirect) / PointersPerIndirect ∧ 0 < (r : ℕ) := by
    rw [numSectors_allocated] at hr
    unfold NumDirect PointersPerIndirect MaxIndirectPointers at *
    omega
  have hindex : dataIndex j ≤ NumDirect + MaxIndirectPointers := by
    unfold dataIndex NumDirect MaxIndirectPointers at *
    split <;> omega
  simp only [allocated, filled] at hptr
  split at hptr
  case isFalse => cases hptr
  case isTrue hentry =>
    cases hptr
    simp only [foundBlock] at hl
    split at hl
    case isFalse => exact hzero _ (dataIndex_lt hj) (by exact_mod_cast hl.symm)
    case isTrue hcount =>
      -- a later block has other sectors
      have htaken : takenBefore (dataSectorsOf L) (NumDirect + r) + 1 + l < totalSectorsOf L := by
        have := takenBefore_mono (n := dataSectorsOf L) (Nat.succ_le_of_lt hentry)
        rw [takenBefore_numEntries] at this
        unfold totalSectorsOf
        unfold takenBefore dataBefore NumDirect MaxIndirectPointers at *
        omega
      have heq := hdist _ htaken _ (dataIndex_lt hj) (Fin.ext (by exact_mod_cast hl))
      unfold takenBefore dataBefore NumDirect MaxIndirectPointers at *
      omega

/-- Behind the direct sectors the right block is looked up if there is one at most, which is not
full. -/
theorem lastBlockHas_allocated_iff (hdist : Distinct (totalSectorsOf L) seq)
    (hzero : ∀ j < totalSectorsOf L, (seq j : ℕ) ≠ 0) (hi : i < dataSectorsOf L)
    (hd : NumDirect ≤ i) :
    (zero.allocated L fun j => (seq j : ℕ)).LastBlockHas i (seq (dataIndex i) : ℕ) ↔
      dataSectorsOf L < NumDirect + MaxIndirectPointers := by
  constructor
  · rintro ⟨r, b, l, hr, rfl, hptr, hl⟩
    exact lt_of_lastBlockHas hdist hzero hi (Nat.add_lt_add_left l.isLt _)
      ⟨r, b, l, hr, rfl, hptr, hl⟩
  · intro hn
    refine (byteToSector_iff_lastBlockHas hd).mp ?_
    rw [byteToSector_allocated (mul_lt_of_lt_dataSectorsOf hi) hn,
      Nat.mul_div_cancel _ sectorSize_pos]

end FileHeader

end Nachos.Filesys
