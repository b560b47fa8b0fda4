import Nachos.Filesys.Create
import Nachos.Filesys.WriteFrame

/-! # Writes that stop

A write stops at a sector that is not on the disk and at a block that is not
there. The file of the directory cannot grow by two sectors, and it does not grow
without a free sector or behind the direct entries of its header; `Create` has
written the free map and the header by then.
-/

namespace Nachos.Filesys

open Function Words Bytes Outcome FileHeader

variable {d d' : Disk} {h dirHdr mapHdr : FileHeader} {m : BitMap} {mapSec s : Fin NumSectors}
  {sec : ℕ → Fin NumSectors} {dir : Directory} {i k n : ℕ} {z : ℤ}

/-! ## Sectors that a write needs -/

namespace FileHeader

theorem writeBlocks_ne {j : Fin NumInDirect} (hw : h.writeBlocks n d = .ok d') (hj : (j : ℕ) < n) :
    h.indirectSector j ≠ -1 := by
  induction n generalizing d' with
  | zero => omega
  | succ n ih =>
    simp only [writeBlocks, bind_eq_ok] at hw
    obtain ⟨d₁, hd₁, z, hz, hw⟩ := hw
    rcases Nat.lt_succ_iff_lt_or_eq.mp hj with hlt | rfl
    · exact ih hd₁ hlt
    · rw [getAt_natCast j.isLt] at hz
      intro he
      obtain rfl : -1 = z := he.symm.trans (Except.ok.inj hz)
      rw [if_pos (by decide), getAt_natCast j.isLt, ok_bind] at hw
      cases hb : h.indirectPointers ⟨j, j.isLt⟩ with
      | none =>
        rw [hb] at hw
        cases hw
      | some block =>
        rw [hb] at hw
        obtain ⟨y, hy, -⟩ := Disk.writeSector_eq_ok.mp hw
        omega

theorem indirectSector_ne_of_writeBack {j : Fin NumInDirect} (hw : h.writeBack z d = .ok d')
    (hj : (j : ℕ) < h.indirects) : h.indirectSector j ≠ -1 := by
  rw [writeBack, bind_eq_ok] at hw
  obtain ⟨d₁, -, hw⟩ := hw
  split at hw
  case isTrue => exact writeBlocks_ne hw hj
  case isFalse hle =>
    rw [indirects_of_le (by omega)] at hj
    omega

theorem exists_nth_block {size : ℤ} {j : Fin NumInDirect}
    (hj : (j : ℕ) < (zero.allocated size (m.after 1).nth).indirects)
    (hne : (zero.allocated size (m.after 1).nth).indirectSector j ≠ -1) :
    ∃ k < m.numClear, 0 < k ∧ (zero.allocated size (m.after 1).nth).indirectSector j = m.nth k := by
  rw [indirectSector_allocated hj, BitMap.nth_after] at hne ⊢
  rw [ne_eq, BitMap.nth_eq_neg_one_iff] at hne
  exact ⟨_, by omega, by omega, rfl⟩

end FileHeader

/-! ## The file of the directory -/

def Directory.sectorsFor (T : ℕ) : ℕ := (Directory.fileSize T - 1) / SectorSize + 1

/-- A table that does not fit: the sectors are looked up in the old header, or in one with more
sectors that is written in the end. -/
theorem DirHeader.writeBack_cases (hd : DirHeader dirHdr k sec d)
    (hm : MapOnDisk mapHdr mapSec m d) (h₀ : ((mapSec : ℕ) : ℤ) ≠ FreeMapSector)
    (hsec₀ : FreeMapSector ∉ dirHdr.sectors) (hsec : ((mapSec : ℕ) : ℤ) ∉ dirHdr.sectors)
    (hend : k * SectorSize < Directory.fileSize dir.tableSize) {r : OpenFile × Disk}
    (hw : dir.writeBack ⟨dirHdr, DirectorySector⟩ d = .ok r) :
    ∃ hdr, (∀ i < Directory.sectorsFor dir.tableSize, ∃ y : Fin NumSectors,
        hdr.byteToSector (i * SectorSize) = .ok ((y : ℕ) : ℤ)) ∧
      (hdr = dirHdr ∨ 0 < m.numClear ∧
        hdr = dirHdr.extendedBy k (Directory.sectorsFor dir.tableSize - k) m.nth ∧
        ∃ len d₁ d₂, { hdr with numBytes := len }.writeBack DirectorySector d₁ = .ok d₂) := by
  have hone : SectorSize ≤ k * SectorSize := Nat.le_mul_of_pos_left _ hd.direct.pos
  obtain ⟨d₁, hd₁, hframe₁, -⟩ := DirOnDisk.exists_writeSize hd dir.tableSize 1
  have hm₁ := hm.frame hframe₁ hsec₀ hsec
  have hlast : (4 + dir.tableSize * DirectoryEntry.size - 1) / SectorSize + 1 =
      Directory.sectorsFor dir.tableSize := rfl
  rw [Directory.writeBack, OpenFile.WriteDepth, hd₁, ok_bind] at hw
  dsimp only at hw
  rw [OpenFile.writeAt_past (OpenFile.paddedLength_eq hd.direct.length.1 hd.direct.length.2)
    hd.direct.pos
    (by decide : 4 < SectorSize) hend] at hw
  dsimp only at hw
  rw [hlast] at hw
  simp only [bind_eq_ok] at hw
  obtain ⟨⟨success, hdr, d₂⟩, hext, ⟨read, buf⟩, -, d₃, hd₃, d₄, hd₄, -⟩ := hw
  have hfound : ∀ i < Directory.sectorsFor dir.tableSize, ∃ y : Fin NumSectors,
      hdr.byteToSector (i * SectorSize) = .ok ((y : ℕ) : ℤ) := by
    intro i hi
    have := OpenFile.writeSectors_found hd₃ hi
    rwa [Nat.zero_add] at this
  refine ⟨hdr, hfound, ?_⟩
  rcases extendFile_cases hm₁ h₀ hd.direct.numSectors 0 hext with ⟨rfl, rfl⟩ |
      ⟨hlt, -, hroom, rfl, -⟩
  · exact .inl rfl
  · exact .inr ⟨by omega, rfl, _, _, _, hd₄⟩

theorem DirHeader.writeBack_far (hd : DirHeader dirHdr k sec d) (hm : MapOnDisk mapHdr mapSec m d)
    (h₀ : ((mapSec : ℕ) : ℤ) ≠ FreeMapSector) (hsec₀ : FreeMapSector ∉ dirHdr.sectors)
    (hsec : ((mapSec : ℕ) : ℤ) ∉ dirHdr.sectors) (hk : k < NumDirect)
    (hfar : NumDirect * SectorSize < Directory.fileSize dir.tableSize) {r : OpenFile × Disk} :
    dir.writeBack ⟨dirHdr, DirectorySector⟩ d ≠ .ok r := by
  intro hw
  have hend : k * SectorSize < Directory.fileSize dir.tableSize := by
    unfold SectorSize NumDirect at *
    omega
  obtain ⟨hdr, hfound, hcases⟩ := hd.writeBack_cases hm h₀ hsec₀ hsec hend hw
  obtain ⟨y, hy⟩ := hfound NumDirect (by
    unfold Directory.sectorsFor
    unfold SectorSize NumDirect at *
    omega)
  obtain ⟨j, b, l, -, -, hptr, -⟩ := byteToSector_eq_ok (Nat.le_refl _) hy
  rcases hcases with rfl | ⟨-, rfl, -⟩
  · rw [hd.direct.unset] at hptr
    cases hptr
  · rw [extendedBy, if_pos hk] at hptr
    rw [show _ = none from hd.direct.unset j] at hptr
    cases hptr

structure FileHeader.NoSpare (h : FileHeader) (k : ℕ) : Prop where
  data : ∀ i : Fin NumDirect, k ≤ i → h.dataSectors i = -1
  block : ∀ j, h.indirectSector j = -1

theorem DirHeader.writeBack_grows (hd : DirHeader dirHdr k sec d)
    (hm : MapOnDisk mapHdr mapSec m d) (h₀ : ((mapSec : ℕ) : ℤ) ≠ FreeMapSector)
    (hsec₀ : FreeMapSector ∉ dirHdr.sectors) (hsec : ((mapSec : ℕ) : ℤ) ∉ dirHdr.sectors)
    (hspare : dirHdr.NoSpare k) (hend : k * SectorSize < Directory.fileSize dir.tableSize)
    {r : OpenFile × Disk} (hw : dir.writeBack ⟨dirHdr, DirectorySector⟩ d = .ok r) :
    0 < m.numClear ∧ Directory.fileSize dir.tableSize ≤ (k + 1) * SectorSize ∧
      k + 1 ≤ NumDirect := by
  obtain ⟨hdr, hfound, hcases⟩ := hd.writeBack_cases hm h₀ hsec₀ hsec hend hw
  have hle : k < Directory.sectorsFor dir.tableSize := by
    unfold Directory.sectorsFor
    unfold SectorSize at *
    omega
  rcases hcases with rfl | ⟨hfree, rfl, len, d₁, d₂, hback⟩
  · -- the sector behind the end is looked up
    exfalso
    obtain ⟨y, hy⟩ := hfound k hle
    rcases Nat.lt_or_ge k NumDirect with hlt | hge
    · rw [byteToSector_mul hlt, hspare.data ⟨k, hlt⟩ (Nat.le_refl _)] at hy
      have := Except.ok.inj hy
      omega
    · obtain ⟨j, b, l, -, -, hptr, -⟩ := byteToSector_eq_ok hge hy
      rw [hd.direct.unset] at hptr
      cases hptr
  · rcases Nat.lt_or_ge k NumDirect with hlt | hge
    · refine ⟨hfree, ?_, hlt⟩
      by_contra hlong
      obtain ⟨y, hy⟩ := hfound (k + 1) (by
        unfold Directory.sectorsFor
        unfold SectorSize at *
        omega)
      rcases Nat.lt_or_ge (k + 1) NumDirect with hlt' | hge
      · rw [byteToSector_mul hlt', dataSectors_extendedBy_of_ne hlt' (Nat.succ_ne_self k),
          hspare.data ⟨k + 1, hlt'⟩ (Nat.le_succ k)] at hy
        have := Except.ok.inj hy
        omega
      · obtain ⟨j, b, l, -, -, hptr, -⟩ := byteToSector_eq_ok hge hy
        rw [extendedBy, if_pos hlt] at hptr
        rw [show _ = none from hd.direct.unset j] at hptr
        cases hptr
    · -- the new block has no sector
      exfalso
      refine indirectSector_ne_of_writeBack (j := ⟨0, by decide⟩) hback ?_ ?_
      · change 0 < divRoundUp ((dirHdr.extendedBy k _ m.nth).numSectors - NumDirect).toNat
          PointersPerIndirect
        rw [numSectors_extendedBy]
        unfold divRoundUp PointersPerIndirect
        unfold NumDirect at *
        split <;> omega
      · rw [indirectSector_extendedBy]
        exact hspare.block _

/-! ## What `Create` has written -/

namespace Consistent

variable {fs fs' : FileSystem} {w : Layout} {dir' : Directory} {name : CString} {size : ℤ}

theorem map_notMem (hc : Consistent fs w) : ((w.mapSec : ℕ) : ℤ) ≠ FreeMapSector ∧
    FreeMapSector ∉ fs.directoryFile.hdr.sectors ∧
      ((w.mapSec : ℕ) : ℤ) ∉ fs.directoryFile.hdr.sectors := by
  have hsys := (Layout.nodup_used hc.owned.1).1
  simp only [Layout.systemSectors, List.nodup_cons, List.mem_cons, not_or] at hsys
  rw [hc.dirSectors]
  exact ⟨Ne.symm hsys.1.2.1, hsys.1.2.2, hsys.2.2.1⟩

theorem directoryFile_eq (hc : Consistent fs w) :
    fs.directoryFile = ⟨fs.directoryFile.hdr, DirectorySector⟩ := by
  rw [← hc.directoryFile]

/-- When the file is flushed, the free map and the header are on the disk, and the directory is
written last. -/
theorem flush_eq_ok (hc : Consistent fs w) (h₀ : 0 ≤ size) (h₁ : size ≤ MaxFileSize)
    (hfree : 0 < w.map.numClear)
    (hflush : fs.flush (w.map.after (1 + totalSectorsOf size))
      (FileHeader.zero.allocated size (w.map.after 1).nth) (w.map.nth 0) dir' = .ok fs') :
    ∃ d, Consistent { fs with disk := d } { w with map := w.map.after (1 + totalSectorsOf size) } ∧
      FileHeader.fetchFrom (w.map.nth 0) d =
        .ok (FileHeader.zero.allocated size (w.map.after 1).nth) ∧
      (∀ z ∈ (FileHeader.zero.allocated size (w.map.after 1).nth).headerSectors (w.map.nth 0),
        z ∉ w.used) ∧
      dir'.writeBack fs.directoryFile d = .ok (fs'.directoryFile, fs'.disk) ∧
      fs'.freeMapFile = fs.freeMapFile := by
  obtain ⟨hdr, hhdr⟩ : ∃ hdr, hdr = FileHeader.zero.allocated size (w.map.after 1).nth := ⟨_, rfl⟩
  rw [← hhdr] at hflush ⊢
  obtain ⟨d₁, hd₁, hc₁, -⟩ := hc.exists_writeMap hc.map.isFreeMap.after hc.owned.after
  rw [FileSystem.flush, hd₁, ok_bind] at hflush
  dsimp only at hflush
  simp only [bind_eq_ok] at hflush
  obtain ⟨d₂, hd₂, ⟨dirFile, d₃⟩, hd₃, -, -, hfs⟩ := hflush
  cases hfs
  have hne : ∀ j : Fin NumInDirect, (j : ℕ) < hdr.indirects → hdr.indirectSector j ≠ -1 :=
    fun j hj => indirectSector_ne_of_writeBack hd₂ hj
  have hnotMem : ∀ z ∈ hdr.headerSectors (w.map.nth 0), z ∉ w.used := by
    rintro z (rfl | ⟨j, hj, rfl⟩)
    · exact hc.owned.nth_notMem hfree
    · subst hhdr
      obtain ⟨k, hk, -, he⟩ := exists_nth_block hj (hne j hj)
      rw [he]
      exact hc.owned.nth_notMem hk
  have hmark₀ : (w.map.after 1).test 0 = true :=
    (hc.owned.after.2 _ (Layout.systemSectors_subset (List.mem_cons_self ..))).2
  have hblocks : hdr.HasBlocks := by
    subst hhdr
    exact hasBlocks_allocated h₀ h₁ (by rw [BitMap.numBits_after, hc.map.numBits]) hmark₀ hne
  obtain ⟨new, hnew, -⟩ := exists_nth_sector (k := 0) hc.map.numBits hfree
  obtain ⟨d₂', hd₂', hfetch, hframe⟩ := FileHeader.exists_writeBack (d := d₁) (s := new) hblocks (by
    intro j hj he
    subst hhdr
    obtain ⟨k, hk, hpos, he'⟩ := exists_nth_block hj (hne j hj)
    rw [he', ← hnew] at he
    have := BitMap.nth_inj hk hfree he
    omega)
  rw [← hnew] at hd₂' hfetch hframe
  cases hd₂'.symm.trans hd₂
  exact ⟨d₂, hc₁.frame hframe fun z hz hz' => hnotMem z hz' hz, hfetch, hnotMem, hd₃, rfl⟩

end Consistent

end Nachos.Filesys
