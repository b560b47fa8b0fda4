import Nachos.Filesys.FileContents

/-! # The sectors that a write changes

`WriteAt` looks its sectors up after an extension that may have failed or may
have put them elsewhere. An entry that is not set is sector 0, the header of the
free map. The sectors of other files are safe exactly when the last sector of
the write is found.
-/

namespace Nachos.Filesys

open Function Words Bytes Outcome FileHeader

variable {d d' : Disk} {f : OpenFile} {h mapHdr : FileHeader} {m : BitMap}
  {mapSec s : Fin NumSectors}
  {sec : ℕ → Fin NumSectors} {others : List ℤ} {b : ℕ → UInt8} {first i k last n L position : ℕ}
  {seq : ℕ → ℤ} {z : ℤ}

/-- A write of any bytes to this range changes sectors of the file and the words of the free map
only: the header of the free map and all other sectors in use stay. -/
def KeepsOthers (mapSec s : Fin NumSectors) (f : OpenFile) (others : List ℤ) (d : Disk)
    (position n : ℕ) : Prop :=
  ∀ b : ℕ → UInt8, ∃ f' d', f.writeAtCount b n position d = .ok (n, f', d') ∧
    d.Frame { z | z = (s : ℕ) ∨ z = (mapSec : ℕ) ∨ z ∈ f'.hdr.sectors } d' ∧
    ∀ y : Fin NumSectors, ((y : ℕ) : ℤ) ∈ FreeMapSector :: others → d' y = d y

/-- The last sector of the write is found: inside of the file in a direct entry or among the
sectors of the last block, and past the end in one new direct entry or in a first block, with room
for it. -/
def WritesOwn (L position n : ℕ) (m : BitMap) : Prop :=
  (position + n ≤ dataSectorsOf L * SectorSize ∧
    ((position + n - 1) / SectorSize < NumDirect ∨
      (position + n - 1) / SectorSize - NumDirect <
        (dataSectorsOf L - NumDirect) % PointersPerIndirect)) ∨
  (dataSectorsOf L * SectorSize < position + n ∧ position < SectorSize ∧
    (position + n - 1) / SectorSize + 1 - dataSectorsOf L ≤ m.numClear ∧
    (dataSectorsOf L < NumDirect ∧ (position + n - 1) / SectorSize = dataSectorsOf L ∨
      dataSectorsOf L = NumDirect ∧ (position + n - 1) / SectorSize < NumDirect + 30))

/-! ## Entries that are not set -/

namespace FileHeader

theorem count_foundBlock_le {j : ℕ} :
    dataBefore k (NumDirect + j + 1) - dataBefore k (NumDirect + j) ≤
      k - NumDirect - MaxIndirectPointers * j := by
  unfold dataBefore NumDirect MaxIndirectPointers
  omega

theorem dataSectors_zero_of_le {j : Fin NumInDirect} {blk : IndirectPointerBlock}
    {l : Fin MaxIndirectPointers}
    (hptr : (FileHeader.zero.allocated L seq).indirectPointers j = some blk)
    (hl : dataSectorsOf L - NumDirect - MaxIndirectPointers * j ≤ l) : blk.dataSectors l = 0 := by
  simp only [allocated, filled] at hptr
  split at hptr
  case isFalse => cases hptr
  case isTrue =>
    cases hptr
    exact if_neg (not_lt.mpr (count_foundBlock_le.trans hl))

theorem byteToSector_zero_of_ge (hge : NumDirect ≤ i)
    (hi : (dataSectorsOf L - NumDirect) % PointersPerIndirect ≤ i - NumDirect)
    (hz : (FileHeader.zero.allocated L seq).byteToSector (i * SectorSize) = .ok z) : z = 0 := by
  obtain ⟨j, blk, l, hj, hl, hptr, rfl⟩ := byteToSector_eq_ok hge hz
  refine dataSectors_zero_of_le hptr ?_
  simp only [allocated, filled] at hj
  unfold NumDirect PointersPerIndirect MaxIndirectPointers at *
  omega

theorem byteToSector_zero_of_past (hi : dataSectorsOf L ≤ i)
    (hz : (FileHeader.zero.allocated L seq).byteToSector (i * SectorSize) = .ok z) : z = 0 := by
  rcases Nat.lt_or_ge i NumDirect with hd | hd
  · rw [byteToSector_mul hd] at hz
    have := numEntries_le_self (n := dataSectorsOf L)
    simp only [allocated, filled, Except.ok.injEq] at hz
    rw [if_neg (by omega)] at hz
    exact hz.symm
  · refine byteToSector_zero_of_ge hd ?_ hz
    have := Nat.mod_le (dataSectorsOf L - NumDirect) PointersPerIndirect
    omega

theorem byteToSector_extendedBy {a : ℕ} {seq' : ℕ → ℤ} (ha : 0 < a) (hle : dataSectorsOf L ≤ last)
    (hsum : dataSectorsOf L + a = 1 + last - first)
    (hz : ((FileHeader.zero.allocated L seq).extendedBy (dataSectorsOf L) a seq').byteToSector
      (last * SectorSize) = .ok z) :
    z = 0 ∨ first = 0 ∧ (dataSectorsOf L < NumDirect ∧ last = dataSectorsOf L ∨
      dataSectorsOf L = NumDirect ∧ last < NumDirect + 30) := by
  have hentries := numEntries_le_self (n := dataSectorsOf L)
  rcases Nat.lt_or_ge last NumDirect with hd | hd
  · rw [byteToSector_mul hd, extendedBy, if_pos (by omega)] at hz
    simp only [Except.ok.injEq] at hz
    split at hz
    · exact .inr ⟨by omega, .inl ⟨by omega, by omega⟩⟩
    · left
      simp only [allocated, filled] at hz
      rw [if_neg (by omega)] at hz
      exact hz.symm
  · obtain ⟨j, blk, l, hj, hl, hptr, rfl⟩ := byteToSector_eq_ok hd hz
    rw [numSectors_extendedBy] at hj
    rw [extendedBy] at hptr
    split at hptr
    case isTrue hlt =>
      -- the file has no block
      simp only [allocated, filled] at hptr
      rw [if_neg (by omega)] at hptr
      cases hptr
    case isFalse hge =>
      dsimp only at hptr
      split at hptr
      case isTrue hnew =>
        cases hptr
        simp only [foundBlock]
        split
        case isFalse => exact .inl rfl
        case isTrue hlt =>
          unfold earlier at hlt
          unfold NumDirect PointersPerIndirect MaxIndirectPointers at *
          exact .inr ⟨by omega, .inr ⟨by omega, by omega⟩⟩
      case isFalse => exact .inl (dataSectors_zero_of_le hptr (by omega))

end FileHeader

/-! ## Writes to sector 0 -/

def sectorZero : Fin NumSectors := ⟨0, by decide⟩

theorem writeSectors_zero {buf : ℕ → UInt8} (hn : 0 < n) (hfirst : first * SectorSize ≤ position)
    (hlast : last = (position + n - 1) / SectorSize)
    (hw : OpenFile.writeSectors h (blit buf (position - first * SectorSize) n b) first
      (1 + last - first) d = .ok d') :
    ∃ z, h.byteToSector (last * SectorSize) = .ok z ∧
      (z = 0 → (d' sectorZero).bytes ((position + n - 1) % SectorSize) = b (n - 1)) := by
  have hle : first ≤ last := by
    rw [hlast, Nat.le_div_iff_mul_le sectorSize_pos]
    omega
  obtain ⟨c, hc⟩ : ∃ c, 1 + last - first = c + 1 := ⟨last - first, by omega⟩
  rw [hc] at hw
  simp only [OpenFile.writeSectors, bind_eq_ok] at hw
  obtain ⟨d₁, -, z, hz, hw⟩ := hw
  rw [show first + c = last by omega] at hz
  refine ⟨z, hz, ?_⟩
  rintro rfl
  obtain ⟨y, hy, rfl⟩ := Disk.writeSector_eq_ok.mp hw
  obtain rfl : y = sectorZero := Fin.ext (by exact_mod_cast hy)
  have hmod : (position + n - 1) % SectorSize < SectorSize := Nat.mod_lt _ sectorSize_pos
  have haddr : c * SectorSize + (position + n - 1) % SectorSize =
      position - first * SectorSize + (n - 1) := by
    unfold SectorSize at *
    omega
  rw [Disk.set_self, Sector.bytes_of_lt hmod, block]
  dsimp only
  rw [haddr, blit_add (by omega)]

theorem writeBack_sectorZero (hw : h.writeBack (s : ℕ) d = .ok d') (hs : s ≠ sectorZero) :
    d' sectorZero = d sectorZero := by
  rw [writeBack, Disk.writeSector_natCast, ok_bind] at hw
  split at hw
  · rw [writeBlocks_other hw fun j hj => hj, Disk.set_of_ne hs.symm]
  · cases hw
    exact Disk.set_of_ne hs.symm

namespace FileOnDisk

theorem mapSec_ne (hf : FileOnDisk mapHdr mapSec s f L m others d) :
    ((mapSec : ℕ) : ℤ) ≠ FreeMapSector := by
  have := hf.owned.1
  simp only [List.nodup_cons, List.mem_cons, not_or] at this
  exact Ne.symm this.1.1

theorem ne_sectorZero (hf : FileOnDisk mapHdr mapSec s f L m others d) : s ≠ sectorZero := by
  rintro rfl
  have := hf.owned.1
  simp only [List.nodup_cons, List.mem_cons, not_or] at this
  exact this.1.2.1 rfl

theorem padded (hf : FileOnDisk mapHdr mapSec s f L m others d) :
    OpenFile.paddedLength f.hdr.numBytes = (dataSectorsOf L * SectorSize : ℕ) := by
  rw [hf.numBytes, paddedLength_natCast]

theorem zero_of_inside {f' : OpenFile} (hf : FileOnDisk mapHdr mapSec s f L m others d) (hn : 0 < n)
    (hend : position + n ≤ dataSectorsOf L * SectorSize) (hown : ¬ WritesOwn L position n m)
    (hw : f.writeAt OpenFile.WriteDepth b n position d = .ok (f', d')) :
    (d' sectorZero).bytes ((position + n - 1) % SectorSize) = b (n - 1) := by
  obtain ⟨-, buf, hd₁⟩ := hf.writeAt_inside hend hw
  obtain ⟨z, hz, hzero⟩ := writeSectors_zero hn (Nat.div_mul_le_self _ _) rfl hd₁
  apply hzero
  obtain ⟨sec, hsec⟩ := hf.header
  rw [hsec] at hz
  have hlast : ¬ ((position + n - 1) / SectorSize < NumDirect ∨
      (position + n - 1) / SectorSize - NumDirect <
      (dataSectorsOf L - NumDirect) % PointersPerIndirect) := fun hc => hown (.inl ⟨hend, hc⟩)
  exact byteToSector_zero_of_ge (by omega) (by omega) hz

theorem zero_of_beyond {f' : OpenFile} (hf : FileOnDisk mapHdr mapSec s f L m others d) (hn : 0 < n)
    (hend : dataSectorsOf L * SectorSize < position + n) (hown : ¬ WritesOwn L position n m)
    (hw : f.writeAt OpenFile.WriteDepth b n position d = .ok (f', d')) :
    (d' sectorZero).bytes ((position + n - 1) % SectorSize) = b (n - 1) := by
  rw [OpenFile.WriteDepth, OpenFile.writeAt_beyond hf.padded hend] at hw
  obtain ⟨start, hstart⟩ : ∃ start,
      start = (if position < dataSectorsOf L * SectorSize then position
    else dataSectorsOf L * SectorSize) := ⟨_, rfl⟩
  rw [← hstart] at hw
  dsimp only at hw
  simp only [bind_eq_ok] at hw
  obtain ⟨⟨success, hdr, d₁⟩, hext, ⟨read, buf⟩, -, d₂, hd₂, d₃, hd₃, hw⟩ := hw
  cases hw
  have hpast : dataSectorsOf L ≤ (position + n - 1) / SectorSize := by
    rw [Nat.le_div_iff_mul_le sectorSize_pos]
    omega
  have hle : start ≤ position := by
    split at hstart <;> omega
  obtain ⟨z, hz, hzero⟩ := writeSectors_zero hn ((Nat.div_mul_le_self _ _).trans hle) rfl hd₂
  rw [hf.hdrSector] at hd₃
  rw [writeBack_sectorZero hd₃ hf.ne_sectorZero]
  apply hzero
  obtain ⟨sec, hsec⟩ := hf.header
  rcases extendFile_cases hf.map hf.mapSec_ne hf.numSectors 0 hext with ⟨rfl, rfl⟩ |
      ⟨hlt, -, hroom, rfl, -⟩
  · rw [hsec] at hz
    exact byteToSector_zero_of_past hpast hz
  · rw [hsec] at hz
    have hsum : dataSectorsOf L +
        (1 + (position + n - 1) / SectorSize - start / SectorSize - dataSectorsOf L) =
        1 + (position + n - 1) / SectorSize - start / SectorSize := by omega
    rcases byteToSector_extendedBy (by omega) hpast hsum hz with hz | ⟨hfirst, hcases⟩
    · exact hz
    · refine absurd (.inr ⟨hend, ?_, ?_, hcases⟩) hown
      · split at hstart
        · rw [← hstart]
          exact (Nat.div_eq_zero_iff_lt sectorSize_pos).mp hfirst
        · unfold SectorSize NumDirect at *
          omega
      · omega

end FileOnDisk

theorem not_keepsOthers (hf : FileOnDisk mapHdr mapSec s f L m others d) (hn : 0 < n)
    (hown : ¬ WritesOwn L position n m) : ¬ KeepsOthers mapSec s f others d position n := by
  intro hk
  obtain ⟨v, hv⟩ : ∃ v, v ≠ (d sectorZero).bytes ((position + n - 1) % SectorSize) := by
    by_cases h₀ : (d sectorZero).bytes ((position + n - 1) % SectorSize) = 0
    · exact ⟨1, by rw [h₀]; decide⟩
    · exact ⟨0, Ne.symm h₀⟩
  obtain ⟨f', d', hw, -, hkeep⟩ := hk fun _ => v
  obtain ⟨-, hw⟩ := writeAtCount_eq_ok.mp hw
  have hlast : (d' sectorZero).bytes ((position + n - 1) % SectorSize) = v := by
    rcases Nat.lt_or_ge (dataSectorsOf L * SectorSize) (position + n) with hend | hend
    · exact hf.zero_of_beyond hn hend hown hw
    · exact hf.zero_of_inside hn hend hown hw
  rw [hkeep sectorZero List.mem_cons_self] at hlast
  exact hv hlast.symm

/-! ## Writes to sectors of the file -/

namespace FileHeader

theorem writeBlocks_of_zero (hz : ∀ j, h.indirectSector j = 0) (hn : n ≤ NumInDirect) :
    h.writeBlocks n d = .ok d := by
  induction n with
  | zero => rfl
  | succ n ih =>
    rw [writeBlocks, ih (by omega), ok_bind, getAt_natCast (by omega), ok_bind,
      if_neg (not_not.mpr (hz _))]
    rfl

theorem writeBack_of_zero (hz : ∀ j, h.indirectSector j = 0) (hn : h.indirects ≤ NumInDirect) :
    h.writeBack (s : ℕ) d = .ok (d.set s h.toSector) := by
  rw [writeBack, Disk.writeSector_natCast, ok_bind]
  split
  · exact writeBlocks_of_zero hz hn
  · rfl

theorem exists_byteToSector_inside (hle : L ≤ MaxFileSize) (hi : i < dataSectorsOf L)
    (hfound : i < NumDirect ∨ i - NumDirect < (dataSectorsOf L - NumDirect) % PointersPerIndirect) :
    ∃ j < totalSectorsOf L,
      (FileHeader.zero.allocated L seq).byteToSector (i * SectorSize) = .ok (seq j) := by
  have hmul : i * SectorSize / SectorSize = i := Nat.mul_div_cancel _ sectorSize_pos
  rcases Nat.lt_or_ge i NumDirect with hd | hd
  · refine ⟨i, Nat.lt_of_lt_of_le hi dataSectorsOf_le_total, ?_⟩
    rw [byteToSector_direct (by rwa [hmul]) (by rwa [hmul]), hmul]
  · have hr := hfound.resolve_left (by omega)
    obtain ⟨b, hb⟩ : ∃ b, (dataSectorsOf L - NumDirect) / PointersPerIndirect = b := ⟨_, rfl⟩
    have hmax := dataSectorsOf_le (by exact_mod_cast hle : (L : ℤ) ≤ MaxFileSize)
    have hentry : NumDirect + b < numEntries (dataSectorsOf L) := by
      unfold numEntries divRoundUp
      rw [if_pos (by omega)]
      omega
    have hblk : b < NumInDirect := by
      have := numEntries_le hmax
      omega
    have hcount : dataBefore (dataSectorsOf L) (NumDirect + b + 1) -
        dataBefore (dataSectorsOf L) (NumDirect + b) =
        (dataSectorsOf L - NumDirect) % PointersPerIndirect := by
      unfold dataBefore NumDirect MaxIndirectPointers PointersPerIndirect at *
      omega
    have hidx : i - NumDirect < MaxIndirectPointers := by
      unfold PointersPerIndirect at hr
      unfold MaxIndirectPointers
      omega
    refine ⟨takenBefore (dataSectorsOf L) (NumDirect + b) + 1 + (i - NumDirect), ?_, ?_⟩
    · have := takenBefore_mono (n := dataSectorsOf L)
        (show NumDirect + b + 1 ≤ numEntries (dataSectorsOf L) from hentry)
      rw [takenBefore_numEntries, ← totalSectorsOf] at this
      unfold takenBefore at *
      omega
    · rw [byteToSector_block (by rwa [hmul]) hb hentry hblk, IndirectPointerBlock.byteToSector,
        Nat.sub_mul_div, hmul, getAt_natCast hidx]
      simp only [foundBlock]
      rw [if_pos (by omega)]

theorem dataSectors_extendedBy_of_ne {a : ℕ} (hi : i < NumDirect) (hne : i ≠ k) :
    (h.extendedBy k a seq).dataSectors ⟨i, hi⟩ = h.dataSectors ⟨i, hi⟩ := by
  unfold extendedBy
  split
  · exact if_neg hne
  · rfl

theorem dataSectors_mem (hn : h.numSectors = n) (hi : i < NumDirect) (hin : i < n) :
    h.dataSectors ⟨i, hi⟩ ∈ h.sectors := by
  refine mem_sectors_of_entry hn (i := i) ?_ ?_
  · unfold numEntries
    omega
  · rw [entrySectors, dif_pos hi]
    exact List.mem_singleton_self _

theorem byteToSector_extendedBy_block {a : ℕ} (ha : a ≤ 30) (hi : i < a) :
    (h.extendedBy NumDirect a seq).byteToSector ((NumDirect + i) * SectorSize) = .ok (seq i) ∧
      seq i ∈ (h.extendedBy NumDirect a seq).sectors := by
  have hnum : (h.extendedBy NumDirect a seq).numSectors = (NumDirect + a : ℕ) :=
    numSectors_extendedBy
  have hidx : i < MaxIndirectPointers := by
    unfold MaxIndirectPointers
    omega
  have hearlier : earlier a = 0 := by
    unfold earlier MaxIndirectPointers
    omega
  have hptr : (h.extendedBy NumDirect a seq).indirectPointers ⟨0, by decide⟩ =
      some (foundBlock seq 0 a) := by
    rw [extendedBy, if_neg (Nat.lt_irrefl _)]
    simp [hearlier]
  constructor
  · have hrel : ((NumDirect + a : ℕ) - NumDirect : ℤ) / PointersPerIndirect = (0 : ℕ) := by
      unfold PointersPerIndirect
      omega
    rw [byteToSector, Nat.mul_div_cancel _ sectorSize_pos]
    dsimp only
    rw [if_neg (by omega), hnum, if_neg (by omega), hrel, getAt_natCast (by decide), ok_bind, hptr]
    dsimp only
    rw [IndirectPointerBlock.byteToSector, Nat.mul_comm SectorSize, ← Nat.sub_mul,
      Nat.mul_div_cancel _ sectorSize_pos, Nat.add_sub_cancel_left, getAt_natCast hidx]
    simp [foundBlock, hi]
  · refine mem_sectors_of_entry hnum (i := NumDirect) ?_ ?_
    · unfold numEntries divRoundUp NumDirect PointersPerIndirect
      split <;> omega
    · rw [entrySectors, dif_neg (Nat.lt_irrefl _), dif_pos (by decide)]
      refine List.mem_cons_of_mem _ ?_
      rw [blockSectors, show (⟨NumDirect - NumDirect, by decide⟩ : Fin NumInDirect) =
        ⟨0, by decide⟩ from rfl, hptr]
      dsimp only
      rw [hnum, Int.toNat_natCast, Nat.zero_mul, Nat.add_zero, Nat.add_sub_cancel_left]
      refine List.mem_take_iff_getElem.mpr ⟨i, ?_, ?_⟩
      · rw [List.length_ofFn]
        omega
      · simp [foundBlock, hi]

end FileHeader

namespace FileOnDisk

theorem notMem_of_sectors (hf : FileOnDisk mapHdr mapSec s f L m others d)
    (hz : z ∈ f.hdr.sectors) :
    z ∉ FreeMapSector :: others := by
  have hnodup := hf.owned.1
  simp only [List.nodup_cons, List.mem_cons, List.mem_append, not_or, List.nodup_append] at hnodup
  obtain ⟨⟨-, -, h₀, -⟩, -, -, -, -, hothers⟩ := hnodup
  intro hmem
  rcases List.mem_cons.mp hmem with rfl | hmem
  · exact h₀ hz
  · exact hothers z hz z hmem rfl

theorem notMem_of_new (hf : FileOnDisk mapHdr mapSec s f L m others d) (hi : i < m.numClear) :
    m.nth i ∉ FreeMapSector :: others := by
  have hnotMem := hf.owned.nth_notMem hi
  simp only [List.mem_cons, List.mem_append, not_or] at hnotMem ⊢
  exact ⟨hnotMem.1, hnotMem.2.2.2.2⟩

theorem sector_notMem (hf : FileOnDisk mapHdr mapSec s f L m others d) :
    ((s : ℕ) : ℤ) ∉ FreeMapSector :: others ∧ ((mapSec : ℕ) : ℤ) ∉ FreeMapSector :: others := by
  have hnodup := hf.owned.1
  simp only [List.nodup_cons, List.mem_cons, List.mem_append, not_or] at hnodup ⊢
  obtain ⟨⟨h₀map, h₀s, -⟩, ⟨-, -, hmap⟩, ⟨-, hs⟩, -⟩ := hnodup
  exact ⟨⟨Ne.symm h₀s, hs⟩, ⟨Ne.symm h₀map, hmap⟩⟩

theorem keepsOthers_inside (hf : FileOnDisk mapHdr mapSec s f L m others d) (hn : 0 < n)
    (hend : position + n ≤ dataSectorsOf L * SectorSize)
    (hlast : (position + n - 1) / SectorSize < NumDirect ∨
      (position + n - 1) / SectorSize - NumDirect <
        (dataSectorsOf L - NumDirect) % PointersPerIndirect) :
    KeepsOthers mapSec s f others d position n := by
  intro b
  obtain ⟨sec, hsec⟩ := hf.header
  obtain ⟨last, hl⟩ : ∃ last, last = (position + n - 1) / SectorSize := ⟨_, rfl⟩
  rw [← hl] at hlast
  have hbounds : position / SectorSize ≤ last ∧ last < dataSectorsOf L ∧
      position + n ≤ (last + 1) * SectorSize := by
    unfold SectorSize at *
    omega
  have hfind : ∀ i, ∃ y : Fin NumSectors, i < last + 1 →
      f.hdr.byteToSector (i * SectorSize) = .ok (y : ℕ) ∧
      ((y : ℕ) : ℤ) ∈ f.hdr.sectors := by
    intro i
    by_cases hi : i < last + 1
    · obtain ⟨j, hj, hz⟩ : ∃ j < totalSectorsOf L,
          f.hdr.byteToSector (i * SectorSize) = .ok (sec j : ℕ) := by
        rw [hsec]
        exact exists_byteToSector_inside hf.le (by omega) (by omega)
      refine ⟨sec j, fun _ => ⟨hz, ?_⟩⟩
      rw [hf.sectors hsec]
      exact List.mem_map.mpr ⟨j, List.mem_range.mpr hj, rfl⟩
    · exact ⟨sectorZero, fun h => absurd h hi⟩
  choose sec' hsec' using hfind
  have hmaps : f.hdr.Maps (last + 1) sec' := fun i hi => (hsec' i hi).1
  have hplaces : ∀ z ∈ places (last + 1) sec', z ∈ f.hdr.sectors := by
    rintro z ⟨i, hi, rfl⟩
    exact (hsec' i hi).2
  have hread : ∀ i ≤ last, ((i * SectorSize : ℕ) : ℤ) < f.hdr.numBytes := by
    intro i hi
    rw [hf.numBytes]
    exact mul_lt_of_lt_dataSectorsOf (by omega)
  obtain ⟨read, buf, hedges, -, hafter⟩ := OpenFile.exists_readEdges (d := d) hmaps hn hbounds.2.2
    (hread _ hbounds.1) fun _ => 0
  rw [← hl] at hedges hafter
  obtain ⟨rfl, -⟩ := hafter (hread _ (Nat.le_refl last))
  obtain ⟨d', hd', hframe⟩ := OpenFile.exists_writeSectors_frame (d := d) hmaps
    (by omega : position / SectorSize + (1 + last - position / SectorSize) ≤ last + 1)
    (blit buf (position - position / SectorSize * SectorSize) n b)
  refine ⟨f, d', writeAtCount_eq_ok.mpr ⟨rfl, ?_⟩,
    hframe.mono fun z hz => .inr (.inr (hplaces z hz)), ?_⟩
  · rw [OpenFile.WriteDepth, OpenFile.writeAt]
    dsimp only
    rw [hf.padded, if_pos (by exact_mod_cast hend), OpenFile.writeInside]
    dsimp only
    rw [← hl, hedges, ok_bind]
    dsimp only
    rw [if_pos rfl, hd', ok_bind, pure_eq_ok]
  · intro y hy
    exact hframe y fun hz => hf.notMem_of_sectors (hplaces _ hz) hy

theorem exists_maps_extendedBy (hf : FileOnDisk mapHdr mapSec s f L m others d)
    (hle : dataSectorsOf L ≤ last) (hroom : last + 1 - dataSectorsOf L ≤ m.numClear)
    (hlast : dataSectorsOf L < NumDirect ∧ last = dataSectorsOf L ∨
      dataSectorsOf L = NumDirect ∧ last < NumDirect + 30) :
    ∃ sec' : ℕ → Fin NumSectors,
      (f.hdr.extendedBy (dataSectorsOf L) (last + 1 - dataSectorsOf L) m.nth).Maps (last + 1) sec' ∧
      ∀ i < last + 1, ((sec' i : ℕ) : ℤ) ∈
          (f.hdr.extendedBy (dataSectorsOf L) (last + 1 - dataSectorsOf L) m.nth).sectors ∧
        (((sec' i : ℕ) : ℤ) ∈ f.hdr.sectors ∨ ∃ j < m.numClear, ((sec' i : ℕ) : ℤ) = m.nth j) := by
  obtain ⟨sec, hsec⟩ := hf.header
  have hnum : (f.hdr.extendedBy (dataSectorsOf L) (last + 1 - dataSectorsOf L) m.nth).numSectors =
      (last + 1 : ℕ) := by
    rw [numSectors_extendedBy]
    omega
  have hold : ∀ i (hi : i < NumDirect), i < dataSectorsOf L →
      f.hdr.dataSectors ⟨i, hi⟩ = (sec i : ℕ) := by
    intro i hi hik
    rw [hsec]
    have : i < numEntries (dataSectorsOf L) := by
      unfold numEntries
      omega
    simp [allocated, filled, this]
  have hfind : ∀ i, ∃ y : Fin NumSectors, i < last + 1 →
      (f.hdr.extendedBy (dataSectorsOf L) (last + 1 - dataSectorsOf L) m.nth).byteToSector
      (i * SectorSize) =
        .ok (y : ℕ) ∧
      ((y : ℕ) : ℤ) ∈ (f.hdr.extendedBy (dataSectorsOf L)
        (last + 1 - dataSectorsOf L) m.nth).sectors ∧
      (((y : ℕ) : ℤ) ∈ f.hdr.sectors ∨ ∃ j < m.numClear, ((y : ℕ) : ℤ) = m.nth j) := by
    intro i
    by_cases hi : i < last + 1
    · rcases Nat.lt_or_ge i (dataSectorsOf L) with hik | hik
      · -- an old sector
        have hd : i < NumDirect := by omega
        have hentry := hold i hd hik
        refine ⟨sec i, fun _ => ⟨?_, ?_, .inl ?_⟩⟩
        · rw [byteToSector_mul hd, dataSectors_extendedBy_of_ne hd (by omega), hentry]
        · rw [← hentry, ← dataSectors_extendedBy_of_ne hd (by omega : i ≠ dataSectorsOf L)]
          exact dataSectors_mem hnum hd hi
        · rw [← hentry]
          exact dataSectors_mem hf.numSectors hd hik
      · obtain ⟨j, rfl⟩ := Nat.exists_eq_add_of_le hik
        obtain ⟨y, hy, -⟩ := exists_nth_sector hf.map.numBits (by omega : j < m.numClear)
        refine ⟨y, fun _ => ?_⟩
        rw [← hy, ← and_assoc]
        refine ⟨?_, .inr ⟨j, by omega, rfl⟩⟩
        rcases hlast with ⟨hlt, hl⟩ | ⟨hk, hlt⟩
        · have hentry : (f.hdr.extendedBy (dataSectorsOf L)
              (last + 1 - dataSectorsOf L) m.nth).dataSectors
              ⟨dataSectorsOf L, hlt⟩ = m.nth j := by
            rw [extendedBy, if_pos hlt, show last + 1 - dataSectorsOf L - 1 = j by omega]
            exact if_pos rfl
          rw [show dataSectorsOf L + j = dataSectorsOf L by omega, byteToSector_mul hlt, hentry]
          exact ⟨rfl, hentry ▸ dataSectors_mem hnum hlt (by omega)⟩
        · rw [hk]
          exact byteToSector_extendedBy_block (by omega) (by omega)
    · exact ⟨sectorZero, fun h => absurd h hi⟩
  choose sec' hsec' using hfind
  exact ⟨sec', fun i hi => (hsec' i hi).1, fun i hi => (hsec' i hi).2⟩

theorem writeBack_extendedBy (hf : FileOnDisk mapHdr mapSec s f L m others d) (a : ℕ) (len : ℤ)
    (hk : dataSectorsOf L ≤ NumDirect) (ha : dataSectorsOf L + a ≤ NumDirect + 30) (d : Disk) :
    { f.hdr.extendedBy (dataSectorsOf L) a m.nth with numBytes := len }.writeBack (s : ℕ) d =
      .ok (d.set s
        { f.hdr.extendedBy (dataSectorsOf L) a m.nth with numBytes := len }.toSector) := by
  refine writeBack_of_zero (fun j => ?_) ?_
  · obtain ⟨sec, hsec⟩ := hf.header
    rw [indirectSector_extendedBy, hsec]
    have := numEntries_le_self (n := dataSectorsOf L)
    exact if_neg (by omega)
  · rw [indirects]
    change divRoundUp ((f.hdr.extendedBy _ _ _).numSectors - _).toNat _ ≤ _
    rw [numSectors_extendedBy]
    unfold divRoundUp NumDirect NumInDirect PointersPerIndirect at *
    split <;> omega

theorem exists_writeAt_extendedBy {sec' : ℕ → Fin NumSectors}
    (hf : FileOnDisk mapHdr mapSec s f L m others d) (hl : last = (position + n - 1) / SectorSize)
    (hend : dataSectorsOf L * SectorSize < position + n) (hpos : position < SectorSize)
    (hroom : last + 1 - dataSectorsOf L ≤ m.numClear) (hk : dataSectorsOf L ≤ NumDirect)
    (hlast : last < NumDirect + 30)
    (hmaps : (f.hdr.extendedBy (dataSectorsOf L) (last + 1 - dataSectorsOf L) m.nth).Maps
      (last + 1) sec') (b : ℕ → UInt8) :
    ∃ len : ℤ, ∃ d', f.writeAt OpenFile.WriteDepth b n position d =
        .ok (⟨{ f.hdr.extendedBy (dataSectorsOf L) (last + 1 - dataSectorsOf L) m.nth with
          numBytes := len }, (s : ℕ)⟩, d') ∧
      d.Frame { z | z = (mapSec : ℕ) ∨ z ∈ places (last + 1) sec' ∨ z = (s : ℕ) } d' := by
  have hle : dataSectorsOf L ≤ last := by
    rw [hl, Nat.le_div_iff_mul_le sectorSize_pos]
    omega
  obtain ⟨d₁, hext, -, hframe₁⟩ := exists_extendFile (n := last + 1) hf.map hf.mapSec_ne
    hf.numSectors (by omega) (by unfold NumDirect NumInDirect at *; omega) hroom 0
  have hback := fun len => hf.writeBack_extendedBy (last + 1 - dataSectorsOf L) len hk (by omega)
  obtain ⟨hdr, hhdr⟩ : ∃ hdr, hdr =
      f.hdr.extendedBy (dataSectorsOf L) (last + 1 - dataSectorsOf L) m.nth := ⟨_, rfl⟩
  rw [← hhdr] at hext hmaps hback ⊢
  obtain ⟨start, hstart⟩ : ∃ start, start = (if position < dataSectorsOf L * SectorSize
    then position else dataSectorsOf L * SectorSize) := ⟨_, rfl⟩
  have hfirst : start / SectorSize = 0 := by
    unfold SectorSize at *
    split at hstart <;> omega
  obtain ⟨read, buf, hedges⟩ : ∃ read buf,
      OpenFile.readEdges ⟨hdr, f.hdrSector⟩ (fun _ => 0) n position 0 last d₁ =
      .ok (read, buf) := OpenFile.exists_readEdges_ok hmaps (by omega) (by omega) _
  obtain ⟨d₂, hd₂, hframe₂⟩ := OpenFile.exists_writeSectors_frame (d := d₁) hmaps
    (by omega : 0 + (1 + last) ≤ last + 1) (blit buf position n b)
  refine ⟨n + start, d₂.set s { hdr with numBytes := n + start }.toSector, ?_,
    (hframe₁.mono ?_).trans ((hframe₂.mono ?_).trans (.set ?_))⟩
  · rw [OpenFile.WriteDepth, OpenFile.writeAt_beyond hf.padded hend, ← hstart, ← hl]
    dsimp only
    rw [hfirst, Nat.sub_zero, Nat.zero_mul, Nat.sub_zero, Nat.add_comm 1, hext, ok_bind]
    dsimp only
    rw [hedges, ok_bind]
    dsimp only
    rw [Nat.add_comm last, hd₂, ok_bind, hf.hdrSector, hback, ok_bind, pure_eq_ok]
  · exact fun z hz => .inl hz
  · exact fun z hz => .inr (.inl hz)
  · exact .inr (.inr rfl)

theorem keepsOthers_beyond (hf : FileOnDisk mapHdr mapSec s f L m others d)
    (hend : dataSectorsOf L * SectorSize < position + n) (hpos : position < SectorSize)
    (hroom : (position + n - 1) / SectorSize + 1 - dataSectorsOf L ≤ m.numClear)
    (hlast : dataSectorsOf L < NumDirect ∧ (position + n - 1) / SectorSize = dataSectorsOf L ∨
      dataSectorsOf L = NumDirect ∧ (position + n - 1) / SectorSize < NumDirect + 30) :
    KeepsOthers mapSec s f others d position n := by
  intro b
  obtain ⟨last, hl⟩ : ∃ last, last = (position + n - 1) / SectorSize := ⟨_, rfl⟩
  rw [← hl] at hlast hroom
  have hle : dataSectorsOf L ≤ last := by
    rw [hl, Nat.le_div_iff_mul_le sectorSize_pos]
    omega
  obtain ⟨sec', hmaps, hsec'⟩ := hf.exists_maps_extendedBy hle hroom hlast
  obtain ⟨len, d', hw, hframe⟩ :=
    hf.exists_writeAt_extendedBy hl hend hpos hroom (by omega) (by omega) hmaps b
  refine ⟨_, d', writeAtCount_eq_ok.mpr ⟨rfl, hw⟩, hframe.mono ?_, fun y hy => hframe y ?_⟩
  · rintro z (hz | ⟨i, hi, rfl⟩ | hz)
    · exact .inr (.inl hz)
    · exact .inr (.inr (hsec' i hi).1)
    · exact .inl hz
  · rintro (hz | ⟨i, hi, hz⟩ | hz)
    · exact hf.sector_notMem.2 (hz ▸ hy)
    · rw [hz] at hy
      rcases (hsec' i hi).2 with hold | ⟨j, hj, hnew⟩
      · exact hf.notMem_of_sectors hold hy
      · exact hf.notMem_of_new hj (hnew ▸ hy)
    · exact hf.sector_notMem.1 (hz ▸ hy)

end FileOnDisk

/-- `WriteAt` keeps the other sectors, whatever it writes, exactly when its last sector is found. -/
theorem keepsOthers_iff (hf : FileOnDisk mapHdr mapSec s f L m others d) (hn : 0 < n) :
    KeepsOthers mapSec s f others d position n ↔ WritesOwn L position n m := by
  constructor
  · intro hk
    by_contra hown
    exact not_keepsOthers hf hn hown hk
  · rintro (⟨hend, hlast⟩ | ⟨hend, hpos, hroom, hlast⟩)
    · exact hf.keepsOthers_inside hn hend hlast
    · exact hf.keepsOthers_beyond hend hpos hroom hlast

/-- One byte inside of a file of one sector, beside sectors of other files. -/
theorem keepsOthers_iff_inside : ∃ (mapHdr : FileHeader) (mapSec s : Fin NumSectors) (f : OpenFile)
    (m : BitMap) (d : Disk),
      FileOnDisk mapHdr mapSec s f 128 m [3, 4] d ∧ KeepsOthers mapSec s f [3, 4] d 5 1 := by
  obtain ⟨mapHdr, mapSec, s, f, m, d, hf, hclear⟩ := exists_emptyFile
  obtain ⟨f', d', -, hf', -⟩ :=
    hf.exists_first (by decide : 0 < 128) (by decide) (by omega) fun _ => 1
  exact ⟨mapHdr, mapSec, s, f', _, d', hf',
    (keepsOthers_iff hf' (by decide)).mpr (.inl ⟨by decide, .inl (by decide)⟩)⟩

/-- A byte at the end of a file of one sector, with more than a thousand sectors free: it goes to
sector 0. -/
theorem exists_not_keepsOthers : ∃ (mapHdr : FileHeader) (mapSec s : Fin NumSectors) (f : OpenFile)
    (m : BitMap) (d : Disk), FileOnDisk mapHdr mapSec s f 128 m [3, 4] d ∧ 1000 ≤ m.numClear ∧
      ¬ KeepsOthers mapSec s f [3, 4] d 128 1 := by
  obtain ⟨mapHdr, mapSec, s, f, m, d, hf, hclear⟩ := exists_emptyFile
  obtain ⟨f', d', -, hf', -⟩ :=
    hf.exists_first (by decide : 0 < 128) (by decide) (by omega) fun _ => 1
  refine ⟨mapHdr, mapSec, s, f', _, d', hf', ?_, not_keepsOthers hf' (by decide) ?_⟩
  · rw [BitMap.numClear_after, hclear]
    decide
  · rintro (⟨hend, -⟩ | ⟨-, hpos, -⟩)
    · exact absurd hend (by decide)
    · exact absurd hpos (by decide)

end Nachos.Filesys
