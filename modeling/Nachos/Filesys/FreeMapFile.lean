import Nachos.Filesys.Allocation
import Nachos.Filesys.Transfer

/-! # The file of the free map

The free map and the directory have their sectors in the direct entries of
their headers. The free map is one sector; its words are read back as they were
written.
-/

namespace Nachos

/-! ## Files without blocks -/

namespace Filesys

open Function Words Bytes Outcome

variable {d d' : Disk} {f : OpenFile} {h : FileHeader} {m : BitMap} {sec : ℕ → Fin NumSectors}
  {k n : ℕ}

/-- A file with its sectors in the direct entries of the header, that ends in its last sector. -/
structure FileHeader.IsDirect (h : FileHeader) (k : ℕ) (sec : ℕ → Fin NumSectors) : Prop where
  numSectors : h.numSectors = k
  le : k ≤ NumDirect
  length : ((k - 1) * SectorSize : ℕ) < h.numBytes ∧ h.numBytes ≤ (k * SectorSize : ℕ)
  sector : ∀ i : Fin NumDirect, (i : ℕ) < k → h.dataSectors i = (sec i : ℕ)
  distinct : Distinct k sec
  stored : h.IsStored
  unset : ∀ i, h.indirectPointers i = none

namespace FileHeader.IsDirect

theorem indirects (hd : h.IsDirect k sec) : h.indirects = 0 :=
  indirects_of_le (by rw [hd.numSectors]; exact_mod_cast hd.le)

theorem headerSectors (hd : h.IsDirect k sec) (s : ℤ) : h.headerSectors s = {s} := by
  ext z
  simp [FileHeader.headerSectors, hd.indirects]

theorem hasBlocks (hd : h.IsDirect k sec) : h.HasBlocks :=
  hasBlocks_of_le hd.stored (by rw [hd.numSectors]; exact_mod_cast hd.le) hd.unset

theorem maps (hd : h.IsDirect k sec) : h.Maps k sec := by
  intro i hi
  have hlt : i < NumDirect := Nat.lt_of_lt_of_le hi hd.le
  rw [byteToSector, Nat.mul_div_cancel _ sectorSize_pos]
  dsimp only
  rw [if_pos hlt, getAt_natCast hlt, hd.sector ⟨i, hlt⟩ hi]

theorem pos (hd : h.IsDirect k sec) : 0 < k := by
  have := hd.length
  unfold SectorSize at this
  omega

theorem numBytes_pos (hd : h.IsDirect k sec) : 0 < h.numBytes := by
  have := hd.length.1
  omega

theorem sectors (hd : h.IsDirect k sec) :
    h.sectors = (List.range k).map fun i => ((sec i : ℕ) : ℤ) := by
  rw [FileHeader.sectors, entries, hd.indirects, hd.numSectors, Int.toNat_natCast,
    Nat.min_eq_left hd.le, Nat.add_zero, List.map_eq_flatMap]
  refine List.flatMap_congr fun i hi => ?_
  have hik := List.mem_range.mp hi
  have hlt : i < NumDirect := Nat.lt_of_lt_of_le hik hd.le
  rw [entrySectors, dif_pos hlt, hd.sector ⟨i, hlt⟩ hik]

theorem mem_sectors {z : ℤ} (hd : h.IsDirect k sec) : z ∈ h.sectors ↔ z ∈ places k sec := by
  rw [hd.sectors]
  simp [places, eq_comm]

/-- The header is written to one sector. -/
theorem exists_writeBack (hd : h.IsDirect k sec) (s : Fin NumSectors) (d : Disk) :
    ∃ d', h.writeBack (s : ℕ) d = .ok d' ∧ fetchFrom (s : ℕ) d' = .ok h ∧
      d.Frame {((s : ℕ) : ℤ)} d' := by
  rw [← hd.headerSectors]
  refine FileHeader.exists_writeBack hd.hasBlocks fun i hi => absurd hi ?_
  rw [hd.indirects]
  exact Nat.not_lt_zero _

end FileHeader.IsDirect

theorem FileHeader.numEntries_of_le (hle : k ≤ NumDirect) : numEntries k = k := by
  rw [numEntries, Nat.min_eq_left hle, Nat.sub_eq_zero_of_le hle]
  rfl

theorem FileHeader.isDirect_allocated {size : ℤ} {seq : ℕ → ℤ} (hs : h.IsStored)
    (hnone : ∀ i, h.indirectPointers i = none) (hk : dataSectorsOf size = k) (hle : k ≤ NumDirect)
    (hlen : ((k - 1) * SectorSize : ℕ) < size ∧ size ≤ (k * SectorSize : ℕ))
    (hseq : ∀ i < k, seq i = (sec i : ℕ)) (hinj : Distinct k sec) :
    (h.allocated size seq).IsDirect k sec where
  numSectors := by simp [allocated, filled, hk]
  le := hle
  length := hlen
  sector i hi := by
    simp only [allocated, filled, hk, numEntries_of_le hle, if_pos hi, hseq i hi]
  distinct := hinj
  stored := by
    obtain ⟨-, -, hdata, hblocks⟩ := isStored_iff.mp hs
    have hbytes : IsInt size := by
      unfold SectorSize at hlen
      unfold NumDirect at hle
      exact ⟨by omega, by omega⟩
    have hnum : IsInt (dataSectorsOf size) := by
      unfold NumDirect at hle
      exact ⟨by omega, by omega⟩
    refine isStored_iff.mpr ⟨hbytes, hnum, fun i => ?_, fun i => ?_⟩
    · simp only [allocated, filled, hk, numEntries_of_le hle]
      split
      · rw [hseq i ‹_›]
        exact isInt_sector _
      · exact hdata i
    · simp only [allocated, filled, hk, numEntries_of_le hle]
      rw [if_neg (by omega)]
      exact hblocks i
  unset i := by
    simp only [allocated, filled, hk, numEntries_of_le hle]
    rw [if_neg (by omega)]
    exact hnone i

end Filesys

/-! ## The words of the map -/

namespace BitMap

open Function Words Bytes Outcome Filesys

variable {d d' : Disk} {f : OpenFile} {m : BitMap} {sec : ℕ → Fin NumSectors} {i k : ℕ}

def IsFreeMap (m : BitMap) : Prop := m.numBits = NumSectors ∧ ∀ w, 32 ≤ w → m.map w = 0

theorem isFreeMap_ofSize : (ofSize NumSectors).IsFreeMap := ⟨rfl, fun _ _ => rfl⟩

theorem IsFreeMap.numWords (hm : m.IsFreeMap) : m.numWords = 32 := by
  rw [BitMap.numWords, hm.1]
  rfl

theorem IsFreeMap.mark (hm : m.IsFreeMap) (hi : i < NumSectors) : (m.mark i).IsFreeMap := by
  refine ⟨hm.1, fun w hw => ?_⟩
  rw [map_mark, update_of_ne, hm.2 w hw]
  unfold NumSectors at hi
  unfold BitsInWord
  omega

theorem IsFreeMap.clear (hm : m.IsFreeMap) (hi : i < NumSectors) : (m.clear i).IsFreeMap := by
  refine ⟨hm.1, fun w hw => ?_⟩
  rw [map_clear, update_of_ne, hm.2 w hw]
  unfold NumSectors at hi
  unfold BitsInWord
  omega

theorem IsFreeMap.after (hm : m.IsFreeMap) : (m.after k).IsFreeMap := by
  induction k with
  | zero => exact hm
  | succ k ih =>
    rw [BitMap.after, findBit]
    cases hf : (m.after k).find with
    | none => exact ih
    | some r =>
      obtain ⟨i, m'⟩ := r
      obtain ⟨hi, -, -, rfl⟩ := find_eq_some_iff.mp hf
      exact ih.mark (ih.1 ▸ hi)

def ofImage (g : ℕ → UInt8) : BitMap :=
  ⟨NumSectors, fun w => if w < 32 then word fun i => g (4 * w + i) else 0⟩

theorem isFreeMap_ofImage {g : ℕ → UInt8} : (ofImage g).IsFreeMap :=
  ⟨rfl, fun w hw => if_neg (by omega)⟩

theorem bytes_ofImage {g : ℕ → UInt8} {v : ℕ} (hv : v < SectorSize) :
    (ofImage g).bytes v = g v := by
  have hw : v / 4 < 32 := by
    unfold SectorSize at hv
    omega
  rw [bytes, ofImage]
  dsimp only
  rw [if_pos hw, byte_word (Nat.mod_lt v (by decide)), Nat.div_add_mod]

theorem ofImage_eq {g : ℕ → UInt8} (hm : m.IsFreeMap) (hg : ∀ v < SectorSize, g v = m.bytes v) :
    ofImage g = m := by
  obtain ⟨numBits, map⟩ := m
  obtain ⟨rfl, hzero⟩ := hm
  refine congrArg (BitMap.mk NumSectors) (funext fun w => ?_)
  split
  case isTrue hw =>
    rw [← word_byte (map w)]
    refine word_congr fun i hi => ?_
    rw [hg _ (by unfold SectorSize; omega), bytes, show (4 * w + i) / 4 = w by omega,
      show (4 * w + i) % 4 = i by omega]
  case isFalse hw => exact (hzero w (by omega)).symm

theorem fetchFrom_eq (hm : f.hdr.Maps 1 sec) (hpos : 0 < f.hdr.numBytes) :
    (ofSize NumSectors).fetchFrom f d = .ok (ofImage (image sec d)) := by
  have hwords : (ofSize NumSectors).numWords = 32 := isFreeMap_ofSize.numWords
  rw [fetchFrom, hwords, OpenFile.readAt_eq hm (by decide) (by exact_mod_cast hpos) (by decide),
    ok_bind]
  refine congrArg (fun g => Except.ok (BitMap.mk NumSectors g)) (funext fun w => ?_)
  split
  case isTrue hw =>
    refine word_congr fun i hi => ?_
    rw [blit_start (by omega), Nat.zero_add]
  case isFalse => rfl

theorem exists_writeMap (hf : f.hdr.IsDirect 1 sec) (hm : m.IsFreeMap) (depth : ℕ) :
    ∃ d', f.writeAt (depth + 1) m.bytes (m.numWords * 4) 0 d = .ok (f, d') ∧
      d.Frame (places 1 sec) d' ∧ (ofSize NumSectors).fetchFrom f d' = .ok m := by
  rw [hm.numWords]
  obtain ⟨d', hd', hframe, himg⟩ := OpenFile.exists_writeAt (d := d) m.bytes hf.maps hf.distinct
    (by decide : 0 < 32 * 4) (by decide : 0 + 32 * 4 ≤ 1 * SectorSize) hf.length depth
  refine ⟨d', hd', hframe, ?_⟩
  rw [fetchFrom_eq hf.maps hf.numBytes_pos, ofImage_eq hm fun v hv => ?_]
  rw [himg v (by omega)]
  exact blit_start hv

end BitMap

end Nachos
