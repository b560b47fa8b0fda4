import Mathlib.Data.List.GetD
import Nachos.Filesys.DataSectors

/-! # The contents of a file

A file has its header on disk as `Allocate` fills it, its sectors belong to it
alone, and its contents are in its data sectors. A `WriteAt` gives the file the
contents that it should have, and leaves it in this state, when it stays inside
of the file and its sectors are found, or adds the next direct sector, and in no
other case.
-/

namespace Nachos.Filesys

open Function Words Bytes Outcome FileHeader

variable {d d' : Disk} {f : OpenFile} {h mapHdr : FileHeader} {m : BitMap}
  {mapSec s : Fin NumSectors} {sec : ℕ → Fin NumSectors} {others : List ℤ}
  {b c from' : ℕ → UInt8} {i k n L position : ℕ} {seq : ℕ → ℤ}
  {z : ℤ}

/-- A file of `L` bytes on disk. The sectors of the free map, of the header and of the file are
marked and different, also from the other sectors in use. -/
structure FileOnDisk (mapHdr : FileHeader) (mapSec s : Fin NumSectors) (f : OpenFile) (L : ℕ)
    (m : BitMap) (others : List ℤ) (d : Disk) : Prop where
  hdrSector : f.hdrSector = (s : ℕ)
  header : ∃ sec : ℕ → Fin NumSectors, f.hdr = FileHeader.zero.allocated L fun j => (sec j : ℕ)
  le : L ≤ MaxFileSize
  fetch : fetchFrom (s : ℕ) d = .ok f.hdr
  map : MapOnDisk mapHdr mapSec m d
  owned : m.Owned (FreeMapSector :: ((mapSec : ℕ) : ℤ) :: ((s : ℕ) : ℤ) ::
    (f.hdr.sectors ++ others))

/-- The data sectors of the file have these bytes. -/
def OpenFile.Holds (f : OpenFile) (L : ℕ) (c : ℕ → UInt8) (d : Disk) : Prop :=
  ∀ i < L, ∃ y : Fin NumSectors, f.hdr.dataSector (i / SectorSize) = .ok (y : ℕ) ∧
    (d y).bytes (i % SectorSize) = c i

/-- `ReadAt` returns these bytes for the whole file. -/
def OpenFile.Reads (f : OpenFile) (L : ℕ) (c : ℕ → UInt8) (d : Disk) : Prop :=
  0 < L → ∃ into, f.readAt (fun _ => 0) L 0 d = .ok (L, into) ∧ ∀ i < L, into i = c i

/-! ## Where the bytes are -/

theorem dataSectorsOf_pos (hL : 0 < L) : 0 < dataSectorsOf L := by
  unfold dataSectorsOf divRoundUp SectorSize
  split <;> omega

theorem le_mul_dataSectorsOf : L ≤ dataSectorsOf L * SectorSize := by
  unfold dataSectorsOf divRoundUp SectorSize
  split <;> omega

namespace OpenFile

theorem readSectors_eq_ok {hdr : FileHeader} {first : ℕ} {buf : ℕ → UInt8}
    (hr : readSectors hdr first d n = .ok buf) (hi : i < n) :
    ∃ y : Fin NumSectors, hdr.byteToSector ((first + i) * SectorSize) = .ok (y : ℕ) := by
  induction n generalizing buf with
  | zero => exact absurd hi (Nat.not_lt_zero i)
  | succ n ih =>
    simp only [readSectors, bind_eq_ok, Disk.readSector_eq_ok] at hr
    obtain ⟨buf', hbuf', z, hz, data, ⟨y, rfl, -⟩, -⟩ := hr
    rcases Nat.lt_succ_iff_lt_or_eq.mp hi with hlt | rfl
    · exact ih hbuf' hlt
    · exact ⟨y, hz⟩

theorem writeSectors_found {hdr : FileHeader} {buf : ℕ → UInt8} {first : ℕ}
    (hw : writeSectors hdr buf first n d = .ok d') (hi : i < n) :
    ∃ y : Fin NumSectors, hdr.byteToSector ((first + i) * SectorSize) = .ok ((y : ℕ) : ℤ) := by
  induction n generalizing d' with
  | zero => omega
  | succ n ih =>
    simp only [writeSectors, bind_eq_ok] at hw
    obtain ⟨d₁, hd₁, z, hz, hw⟩ := hw
    rcases Nat.lt_succ_iff_lt_or_eq.mp hi with hlt | rfl
    · exact ih hd₁ hlt
    · obtain ⟨y, rfl, -⟩ := Disk.writeSector_eq_ok.mp hw
      exact ⟨y, hz⟩

theorem writeSectors_frame {hdr : FileHeader} {buf : ℕ → UInt8} {first : ℕ}
    (hw : writeSectors hdr buf first n d = .ok d') :
    d.Frame { z | ∃ i < n, hdr.byteToSector ((first + i) * SectorSize) = .ok z } d' := by
  induction n generalizing d' with
  | zero =>
    cases hw
    exact .refl
  | succ n ih =>
    simp only [writeSectors, bind_eq_ok] at hw
    obtain ⟨d₁, hd₁, z, hz, hw⟩ := hw
    obtain ⟨y, rfl, rfl⟩ := Disk.writeSector_eq_ok.mp hw
    refine ((ih hd₁).mono ?_).trans (.set ⟨n, by omega, hz⟩)
    rintro x ⟨i, hi, hx⟩
    exact ⟨i, by omega, hx⟩

theorem holds_iff (hlists : f.hdr.Lists n sec) (hn : L ≤ n * SectorSize) :
    f.Holds L c d ↔ ∀ i < L, image sec d i = c i := by
  refine forall₂_congr fun i hi => ?_
  rw [hlists _ (Nat.div_lt_of_lt_mul (by rw [Nat.mul_comm]; omega))]
  constructor
  · rintro ⟨y, hy, hbyte⟩
    obtain rfl : sec (i / SectorSize) = y := Fin.ext (by exact_mod_cast Except.ok.inj hy)
    exact hbyte
  · intro hbyte
    exact ⟨_, rfl, hbyte⟩

end OpenFile

namespace FileOnDisk

theorem numBytes (hf : FileOnDisk mapHdr mapSec s f L m others d) : f.hdr.numBytes = L := by
  obtain ⟨sec, hsec⟩ := hf.header
  rw [hsec]
  rfl

theorem numSectors (hf : FileOnDisk mapHdr mapSec s f L m others d) :
    f.hdr.numSectors = dataSectorsOf L := by
  obtain ⟨sec, hsec⟩ := hf.header
  rw [hsec]
  rfl

theorem sectors (hf : FileOnDisk mapHdr mapSec s f L m others d)
    (hsec : f.hdr = FileHeader.zero.allocated L fun j => (sec j : ℕ)) :
    f.hdr.sectors = (List.range (totalSectorsOf L)).map fun j => ((sec j : ℕ) : ℤ) := by
  rw [hsec, sectors_allocated (by exact_mod_cast hf.le)]

theorem distinct (hf : FileOnDisk mapHdr mapSec s f L m others d)
    (hsec : f.hdr = FileHeader.zero.allocated L fun j => (sec j : ℕ)) :
    Distinct (totalSectorsOf L) sec := by
  have hnodup :=
    (hf.owned.1.sublist (List.sublist_append_left _ others |>.cons _ |>.cons _ |>.cons _))
  rw [hf.sectors hsec] at hnodup
  intro i hi j hj hij
  exact List.inj_on_of_nodup_map hnodup (List.mem_range.mpr hi) (List.mem_range.mpr hj)
    (by rw [hij])

theorem lists (hf : FileOnDisk mapHdr mapSec s f L m others d)
    (hsec : f.hdr = FileHeader.zero.allocated L fun j => (sec j : ℕ)) :
    f.hdr.Lists (dataSectorsOf L) fun i => sec (dataIndex i) := by
  rw [hsec]
  exact lists_allocated hf.le

theorem holds_iff (hf : FileOnDisk mapHdr mapSec s f L m others d)
    (hsec : f.hdr = FileHeader.zero.allocated L fun j => (sec j : ℕ)) :
    f.Holds L c d ↔ ∀ i < L, image (fun i => sec (dataIndex i)) d i = c i :=
  OpenFile.holds_iff (hf.lists hsec) le_mul_dataSectorsOf

theorem maps (hsec : f.hdr = FileHeader.zero.allocated L fun j => (sec j : ℕ))
    (hk : dataSectorsOf L < NumDirect + MaxIndirectPointers) :
    f.hdr.Maps (dataSectorsOf L) fun i => sec (dataIndex i) := by
  intro i hi
  rw [hsec, byteToSector_allocated (mul_lt_of_lt_dataSectorsOf hi) hk,
    Nat.mul_div_cancel _ sectorSize_pos]

theorem reads_of_holds (hf : FileOnDisk mapHdr mapSec s f L m others d)
    (hk : dataSectorsOf L < NumDirect + MaxIndirectPointers) (hc : f.Holds L c d) :
    f.Reads L c d := by
  intro hpos
  obtain ⟨sec, hsec⟩ := hf.header
  have hread : f.readAt (fun _ => 0) L 0 d =
      .ok (L, blit (fun _ => 0) 0 L fun i => image (fun i => sec (dataIndex i)) d (0 + i)) :=
    OpenFile.readAt_eq (maps hsec hk) hpos (by rw [hf.numBytes]; omega)
      (by rw [Nat.zero_add]; exact le_mul_dataSectorsOf)
  refine ⟨_, hread, fun i hi => ?_⟩
  rw [blit_start hi, Nat.zero_add]
  exact (hf.holds_iff hsec).mp hc i hi

end FileOnDisk

/-! ## What `WriteAt` is for -/

/-- The contents after a write. What is between the end of the file and the position is zero. -/
def overwritten (c : ℕ → UInt8) (L position n : ℕ) (b : ℕ → UInt8) : ℕ → UInt8 :=
  blit (fun i => if i < L then c i else 0) position n b

/-- `WriteAt` returns the number of bytes and leaves a file with the new contents. -/
def Stores (mapHdr : FileHeader) (mapSec s : Fin NumSectors) (f : OpenFile) (L : ℕ) (c : ℕ → UInt8)
    (others : List ℤ) (d : Disk) (position n : ℕ) (b : ℕ → UInt8) : Prop :=
  ∃ f' m' d', f.writeAtCount b n position d = .ok (n, f', d') ∧
    FileOnDisk mapHdr mapSec s f' (max L (position + n)) m' others d' ∧
    f'.Holds (max L (position + n)) (overwritten c L position n b) d'

/-- In the first sector of the file the bytes from the end of the file up to the position are
zero. -/
def ZeroTail (f : OpenFile) (L position : ℕ) (d : Disk) : Prop :=
  ∀ i, L ≤ i → i < position → ∀ y : Fin NumSectors, f.hdr.dataSectors ⟨0, by decide⟩ = (y : ℕ) →
    (d y).bytes i = 0

/-- The write stays inside of the file, and in the direct sectors if there are 35 or more; or it
starts in the first sector and adds one direct sector at the end; or it is the first write to an
empty file and fills one sector at most. -/
def Fits (f : OpenFile) (L position n : ℕ) (d : Disk) : Prop :=
  (position + n ≤ L ∧ (position + n ≤ NumDirect * SectorSize ∨
    dataSectorsOf L < NumDirect + MaxIndirectPointers)) ∨
  (0 < L ∧ dataSectorsOf L < NumDirect ∧ position < SectorSize ∧
    dataSectorsOf (position + n : ℕ) = dataSectorsOf L + 1 ∧ ZeroTail f L position d) ∨
  (L = 0 ∧ position = 0 ∧ n ≤ SectorSize)

/-! ## Writes that break the file -/

namespace FileHeader

theorem mem_sectors_of_entry (hn : h.numSectors = n) (hi : i < numEntries n)
    (hz : z ∈ h.entrySectors i) :
    z ∈ h.sectors := by
  rw [sectors, numEntries_eq_entries hn]
  exact List.mem_flatMap.mpr ⟨i, List.mem_range.mpr hi, hz⟩

/-- An extension by more than one direct sector leaves an entry that is zero among those of the
file. -/
theorem zero_mem_sectors_extendedBy {a : ℕ} {seq' : ℕ → ℤ} (hk : dataSectorsOf L = k)
    (hlt : k < NumDirect + MaxIndirectPointers) (ha : 0 < a) (hbad : 1 < a ∨ NumDirect ≤ k) :
    0 ∈ ((FileHeader.zero.allocated L seq).extendedBy k a seq').sectors := by
  have hnum : ((FileHeader.zero.allocated L seq).extendedBy k a seq').numSectors = (k + a : ℕ) :=
    numSectors_extendedBy
  have hfive : NumDirect < k + a → NumDirect < numEntries (k + a) := by
    intro h
    unfold numEntries divRoundUp NumDirect PointersPerIndirect at *
    split <;> omega
  rcases Nat.lt_or_ge (k + 1) NumDirect with hd | hd
  · -- the second new sector is not in its entry
    refine mem_sectors_of_entry hnum (i := k + 1) ?_ ?_
    · unfold numEntries
      omega
    · rw [entrySectors, dif_pos hd, extendedBy, if_pos (by omega)]
      simp [allocated, filled, hk, numEntries_of_le (by omega : k ≤ NumDirect), zero]
  · refine mem_sectors_of_entry hnum (i := NumDirect) (hfive (by omega)) ?_
    rw [entrySectors, dif_neg (Nat.lt_irrefl _), dif_pos (by decide), indirectSector_extendedBy,
      List.mem_cons]
    rcases Nat.lt_or_ge NumDirect k with hlt' | hle
    · right
      have hcount : dataBefore k (NumDirect + 1) - dataBefore k NumDirect = k - NumDirect := by
        unfold dataBefore NumDirect MaxIndirectPointers at *
        omega
      have hentry : NumDirect < numEntries k := by
        unfold numEntries divRoundUp NumDirect PointersPerIndirect at *
        split <;> omega
      have hptr : ((FileHeader.zero.allocated L seq).extendedBy k a seq').indirectPointers
          ⟨NumDirect - NumDirect, by decide⟩ =
            some (foundBlock seq (takenBefore k NumDirect + 1) (k - NumDirect)) := by
        rw [extendedBy, if_neg (by omega)]
        simp [allocated, filled, hk, hentry, hcount, Nat.ne_of_lt hlt']
      rw [blockSectors, hptr]
      dsimp only
      rw [hnum, Int.toNat_natCast, Nat.sub_self, Nat.zero_mul, Nat.add_zero]
      refine List.mem_take_iff_getElem.mpr ⟨k - NumDirect, ?_, ?_⟩
      · rw [List.length_ofFn]
        omega
      · simp [foundBlock]
    · left
      have hout : ¬ NumDirect + (NumDirect - NumDirect) < numEntries k := by
        rw [numEntries_of_le hle]
        omega
      simp only [allocated, filled, hk, if_neg hout]
      rfl

end FileHeader

theorem paddedLength_natCast : OpenFile.paddedLength L = (dataSectorsOf L * SectorSize : ℕ) := by
  unfold OpenFile.paddedLength dataSectorsOf divRoundUp SectorSize
  rw [Int.tmod_eq_emod_of_nonneg (by omega), Int.toNat_natCast]
  split <;> split <;> omega

theorem FileOnDisk.header_beyond {f' : OpenFile} (hf : FileOnDisk mapHdr mapSec s f L m others d)
    (hend : dataSectorsOf L * SectorSize < position + n)
    (hw : f.writeAt OpenFile.WriteDepth b n position d = .ok (f', d')) :
    ∃ start, start = (if position < dataSectorsOf L * SectorSize then position
        else dataSectorsOf L * SectorSize) ∧
      f'.hdr.numBytes = n + start ∧
      (f'.hdr.numSectors = dataSectorsOf L ∨
        dataSectorsOf L < NumDirect + NumInDirect ∧
        dataSectorsOf L < 1 + (position + n - 1) / SectorSize - start / SectorSize ∧
        f'.hdr = { f.hdr.extendedBy (dataSectorsOf L)
          (1 + (position + n - 1) / SectorSize - start / SectorSize - dataSectorsOf L) m.nth with
            numBytes := n + start }) := by
  have h₀ : ((mapSec : ℕ) : ℤ) ≠ FreeMapSector := by
    have := hf.owned.1
    simp only [List.nodup_cons, List.mem_cons, not_or] at this
    exact Ne.symm this.1.1
  have hpad : OpenFile.paddedLength f.hdr.numBytes = (dataSectorsOf L * SectorSize : ℕ) := by
    rw [hf.numBytes, paddedLength_natCast]
  rw [OpenFile.WriteDepth, OpenFile.writeAt_beyond hpad hend] at hw
  dsimp only at hw
  simp only [bind_eq_ok] at hw
  obtain ⟨⟨success, hdr, d₁⟩, hext, ⟨read, buf⟩, -, d₂, -, d₃, -, hw⟩ := hw
  cases hw
  refine ⟨_, rfl, rfl, ?_⟩
  rcases extendFile_cases hf.map h₀ hf.numSectors 0 hext with ⟨rfl, rfl⟩ | ⟨hmore, hlt, -, rfl, -⟩
  · exact .inl hf.numSectors
  · exact .inr ⟨hlt, hmore, rfl⟩

theorem zero_notMem (hf : FileOnDisk mapHdr mapSec s f L m others d) : 0 ∉ f.hdr.sectors := by
  intro hmem
  have := hf.owned.1
  rw [List.nodup_cons] at this
  exact this.1 (List.mem_cons_of_mem _ (List.mem_cons_of_mem _ (List.mem_append_left _ hmem)))

theorem beyond_of_fileOnDisk {f' : OpenFile} {m' : BitMap}
    (hf : FileOnDisk mapHdr mapSec s f L m others d)
    (hn : 0 < n) (hend : dataSectorsOf L * SectorSize < position + n)
    (hw : f.writeAt OpenFile.WriteDepth b n position d = .ok (f', d'))
    (hf' : FileOnDisk mapHdr mapSec s f' (position + n) m' others d') :
    dataSectorsOf L < NumDirect ∧ dataSectorsOf (position + n : ℕ) = dataSectorsOf L + 1 ∧
      (0 < dataSectorsOf L ∧ position < SectorSize ∨ dataSectorsOf L = 0 ∧ position = 0) := by
  obtain ⟨start, hstart, hbytes, hcases⟩ := hf.header_beyond hend hw
  have hlast : dataSectorsOf (position + n : ℕ) = (position + n - 1) / SectorSize + 1 := by
    unfold dataSectorsOf divRoundUp SectorSize
    split <;> omega
  have hpast : dataSectorsOf L ≤ (position + n - 1) / SectorSize := by
    rw [Nat.le_div_iff_mul_le sectorSize_pos]
    omega
  have hnum := hf'.numSectors
  rw [hf'.numBytes] at hbytes
  rcases hcases with hsame | ⟨hlt, hmore, hhdr⟩
  · omega
  · rw [hhdr] at hnum
    change (f.hdr.extendedBy _ _ _).numSectors = _ at hnum
    rw [numSectors_extendedBy] at hnum
    have hzero : start / SectorSize = 0 := by omega
    have hsecs : 0 ∉ f'.hdr.sectors := zero_notMem hf'
    obtain ⟨sec, hsec⟩ := hf.header
    have hone : ¬ (1 < 1 + (position + n - 1) / SectorSize - start / SectorSize - dataSectorsOf L ∨
        NumDirect ≤ dataSectorsOf L) := by
      intro hbad
      rw [hhdr, hsec] at hsecs
      exact hsecs (zero_mem_sectors_extendedBy rfl (hlt.trans (by decide)) (by omega) hbad)
    refine ⟨by omega, by omega, ?_⟩
    split at hstart
    · left
      unfold SectorSize at *
      omega
    · right
      unfold SectorSize at *
      omega

/-! ## Writes that keep the file -/

theorem OpenFile.Holds.congr {c' : ℕ → UInt8} (hc : f.Holds L c d) (h : ∀ i < L, c i = c' i) :
    f.Holds L c' d := by
  intro i hi
  obtain ⟨y, hy, hbyte⟩ := hc i hi
  exact ⟨y, hy, hbyte.trans (h i hi)⟩

theorem OpenFile.Holds.unique {c' : ℕ → UInt8} (hc : f.Holds L c d) (hc' : f.Holds L c' d)
    (hi : i < L) :
    c i = c' i := by
  obtain ⟨y, hy, hbyte⟩ := hc i hi
  obtain ⟨y', hy', hbyte'⟩ := hc' i hi
  rw [hy] at hy'
  obtain rfl : y = y' := Fin.ext (by exact_mod_cast Except.ok.inj hy')
  exact hbyte.symm.trans hbyte'

theorem writeAtCount_eq_ok {f' : OpenFile} {r : ℕ} :
    f.writeAtCount b n position d = .ok (r, f', d') ↔
      n = r ∧ f.writeAt OpenFile.WriteDepth b n position d = .ok (f', d') := by
  rw [OpenFile.writeAtCount, bind_eq_ok]
  constructor
  · rintro ⟨⟨f₁, d₁⟩, hw, he⟩
    cases he
    exact ⟨rfl, hw⟩
  · rintro ⟨rfl, hw⟩
    exact ⟨_, hw, rfl⟩

namespace FileOnDisk

theorem headerSectors_ne (hf : FileOnDisk mapHdr mapSec s f L m others d)
    (hsec : f.hdr = FileHeader.zero.allocated L fun j => (sec j : ℕ)) {y : ℤ}
    (hy : y ∈ f.hdr.headerSectors (s : ℕ)) (hi : i < dataSectorsOf L) :
    y ≠ (sec (dataIndex i) : ℕ) := by
  rcases hy with rfl | ⟨j, hj, rfl⟩
  · intro he
    have hnodup := hf.owned.1
    simp only [List.nodup_cons, List.mem_append, not_or] at hnodup
    refine hnodup.2.2.1.1 ?_
    rw [he, hf.sectors hsec]
    exact List.mem_map.mpr ⟨_, List.mem_range.mpr (dataIndex_lt hi), rfl⟩
  · rw [hsec] at hj ⊢
    have hentry := lt_indirects_allocated.mp hj
    rw [indirectSector_allocated hj]
    intro he
    have heq := hf.distinct hsec _ (takenBefore_lt hentry) _ (dataIndex_lt hi) (Fin.ext (by omega))
    have := dataBefore_lt hentry
    unfold takenBefore dataBefore dataIndex at *
    unfold NumDirect MaxIndirectPointers at *
    split at heq <;> omega

theorem fetch_frame (hf : FileOnDisk mapHdr mapSec s f L m others d)
    (hsec : f.hdr = FileHeader.zero.allocated L fun j => (sec j : ℕ))
    (hframe : d.Frame (places (dataSectorsOf L) fun i => sec (dataIndex i)) d') :
    fetchFrom (s : ℕ) d' = .ok f.hdr := by
  refine fetchFrom_frame hf.fetch hframe ?_
  rintro y hy ⟨i, hi, rfl⟩
  exact hf.headerSectors_ne hsec hy hi rfl

theorem exists_maps (hsec : f.hdr = FileHeader.zero.allocated L fun j => (sec j : ℕ))
    (hend : position + n ≤ L) (hfound : position + n ≤ NumDirect * SectorSize ∨
      dataSectorsOf L < NumDirect + MaxIndirectPointers) :
    ∃ k ≤ dataSectorsOf L, position + n ≤ k * SectorSize ∧
      f.hdr.Maps k fun i => sec (dataIndex i) := by
  have hlen := hend.trans le_mul_dataSectorsOf
  rcases hfound with hdirect | hk
  · refine ⟨min NumDirect (dataSectorsOf L), Nat.min_le_right .., ?_, fun i hi => ?_⟩
    · rcases Nat.le_total NumDirect (dataSectorsOf L) with h | h
      · rwa [Nat.min_eq_left h]
      · rwa [Nat.min_eq_right h]
    · obtain ⟨hd, hi⟩ := Nat.lt_min.mp hi
      have hmul : i * SectorSize / SectorSize = i := Nat.mul_div_cancel _ sectorSize_pos
      have hdir : dataIndex i = i := if_pos hd
      rw [hsec, byteToSector_direct (by rwa [hmul]) (by rwa [hmul]), hmul]
      dsimp only
      rw [hdir]
  · exact ⟨_, le_rfl, hlen, maps hsec hk⟩

theorem distinct_data (hf : FileOnDisk mapHdr mapSec s f L m others d)
    (hsec : f.hdr = FileHeader.zero.allocated L fun j => (sec j : ℕ)) :
    Distinct (dataSectorsOf L) fun i => sec (dataIndex i) := fun _ hi _ hj hij =>
  dataIndex_inj (hf.distinct hsec _ (dataIndex_lt hi) _ (dataIndex_lt hj) hij)

theorem frame_data (hf : FileOnDisk mapHdr mapSec s f L m others d)
    (hsec : f.hdr = FileHeader.zero.allocated L fun j => (sec j : ℕ))
    (hframe : d.Frame (places (dataSectorsOf L) fun i => sec (dataIndex i)) d') :
    FileOnDisk mapHdr mapSec s f L m others d' := by
  have hmem : ∀ z ∈ places (dataSectorsOf L) fun i => sec (dataIndex i), z ∈ f.hdr.sectors := by
    rintro z ⟨i, hi, rfl⟩
    rw [hf.sectors hsec]
    exact List.mem_map.mpr ⟨_, List.mem_range.mpr (dataIndex_lt hi), rfl⟩
  have hnodup := hf.owned.1
  simp only [List.nodup_cons, List.mem_cons, List.mem_append, not_or] at hnodup
  obtain ⟨⟨-, -, h₀, -⟩, ⟨-, hmap, -⟩, -⟩ := hnodup
  exact { hf with
    fetch := hf.fetch_frame hsec hframe
    map := hf.map.frame hframe (fun hz => h₀ (hmem _ hz)) fun hz => hmap (hmem _ hz) }

theorem exists_inside (hf : FileOnDisk mapHdr mapSec s f L m others d) (hc : f.Holds L c d)
    (hn : 0 < n) (hend : position + n ≤ L) (hfound : position + n ≤ NumDirect * SectorSize ∨
      dataSectorsOf L < NumDirect + MaxIndirectPointers) (b : ℕ → UInt8) :
    ∃ d', f.writeAtCount b n position d = .ok (n, f, d') ∧
      FileOnDisk mapHdr mapSec s f L m others d' ∧
      f.Holds L (blit c position n b) d' := by
  obtain ⟨sec, hsec⟩ := hf.header
  obtain ⟨k, hk, hkend, hmaps⟩ := exists_maps hsec hend hfound
  have hdist := hf.distinct_data hsec
  have hlast : k - 1 < dataSectorsOf L := by
    rcases Nat.eq_zero_or_pos k with rfl | hpos
    · omega
    · omega
  obtain ⟨d', hd', hframe, himg⟩ := OpenFile.exists_writeInside (d := d) b hmaps
    (fun i hi j hj => hdist i (hi.trans_le hk) j (hj.trans_le hk)) hn hkend
    (by rw [hf.numBytes]; exact mul_lt_of_lt_dataSectorsOf hlast)
  have hw : f.writeAt OpenFile.WriteDepth b n position d = .ok (f, d') := by
    rw [OpenFile.WriteDepth, OpenFile.writeAt]
    dsimp only
    rw [hf.numBytes, paddedLength_natCast,
      if_pos (by exact_mod_cast hend.trans le_mul_dataSectorsOf), hd']
    rfl
  have hf' : FileOnDisk mapHdr mapSec s f L m others d' := by
    refine hf.frame_data hsec (hframe.mono ?_)
    rintro z ⟨i, hi, rfl⟩
    exact ⟨i, hi.trans_le hk, rfl⟩
  refine ⟨d', writeAtCount_eq_ok.mpr ⟨rfl, hw⟩, hf', (hf'.holds_iff hsec).mpr fun i hi => ?_⟩
  have hold := (hf.holds_iff hsec).mp hc i hi
  rcases Nat.lt_or_ge i (k * SectorSize) with hlow | hhigh
  · rw [himg i hlow]
    exact blit_congr hold
  · -- behind the sectors that are written
    have hdiv : k ≤ i / SectorSize := (Nat.le_div_iff_mul_le sectorSize_pos).mpr hhigh
    have hin : i / SectorSize < dataSectorsOf L := div_lt_dataSectorsOf (by exact_mod_cast hi)
    rw [blit_of_le (by omega), ← hold, image, image, hframe]
    rintro ⟨j, hj, he⟩
    have := hdist _ hin _ (hj.trans_le hk) (Fin.ext (by exact_mod_cast he))
    omega

theorem writeAt_inside {f' : OpenFile} (hf : FileOnDisk mapHdr mapSec s f L m others d)
    (hend : position + n ≤ dataSectorsOf L * SectorSize)
    (hw : f.writeAt OpenFile.WriteDepth b n position d = .ok (f', d')) :
    f' = f ∧ ∃ buf, OpenFile.writeSectors f.hdr
      (blit buf (position - position / SectorSize * SectorSize) n b) (position / SectorSize)
      (1 + (position + n - 1) / SectorSize - position / SectorSize) d = .ok d' := by
  rw [OpenFile.WriteDepth, OpenFile.writeAt] at hw
  dsimp only at hw
  rw [hf.numBytes, paddedLength_natCast, if_pos (by exact_mod_cast hend), bind_eq_ok] at hw
  obtain ⟨d₁, hd₁, hw⟩ := hw
  cases hw
  rw [OpenFile.writeInside, bind_eq_ok] at hd₁
  obtain ⟨⟨read, buf⟩, -, hd₁⟩ := hd₁
  dsimp only at hd₁
  split at hd₁
  case isFalse => cases hd₁
  case isTrue => exact ⟨rfl, buf, hd₁⟩

/-- With 35 sectors or more the last data sector of a write behind the direct ones is not
written. -/
theorem keeps_last {buf : ℕ → UInt8} {first last : ℕ}
    (hf : FileOnDisk mapHdr mapSec s f L m others d)
    (hsec : f.hdr = FileHeader.zero.allocated L fun j => (sec j : ℕ))
    (hge : NumDirect + MaxIndirectPointers ≤ dataSectorsOf L) (hle : first ≤ last)
    (hlast : last < dataSectorsOf L) (hbehind : NumDirect ≤ last)
    (hw : OpenFile.writeSectors f.hdr buf first (1 + last - first) d = .ok d') :
    d' (sec (dataIndex last)) = d (sec (dataIndex last)) := by
  have hzero : ∀ j < totalSectorsOf L, (sec j : ℕ) ≠ 0 := by
    intro j hj he
    refine zero_notMem hf ?_
    rw [hf.sectors hsec]
    exact List.mem_map.mpr ⟨j, List.mem_range.mpr hj, by exact_mod_cast he⟩
  obtain ⟨y, hy⟩ := OpenFile.writeSectors_found hw (by omega : last - first < 1 + last - first)
  rw [Nat.add_sub_cancel' hle] at hy
  obtain ⟨-, -, l, -, hl, -⟩ := byteToSector_eq_ok hbehind hy
  have hfirst : last < NumDirect + MaxIndirectPointers := by
    have := l.isLt
    omega
  refine OpenFile.writeSectors_frame hw _ ?_
  rintro ⟨i, hi, hz⟩
  rcases Nat.lt_or_ge (first + i) NumDirect with hd | hd
  · have hmul : (first + i) * SectorSize / SectorSize = first + i :=
      Nat.mul_div_cancel _ sectorSize_pos
    rw [hsec, byteToSector_direct (by rwa [hmul]) (by rw [hmul]; omega), hmul] at hz
    have hdir : dataIndex (first + i) = first + i := if_pos hd
    have := hf.distinct_data hsec (first + i) (by omega) last hlast
      (Fin.ext (by simpa [hdir] using hz))
    omega
  · rw [hsec, byteToSector_iff_lastBlockHas hd] at hz
    have := lt_of_lastBlockHas (hf.distinct hsec) hzero hlast hfirst hz
    omega

end FileOnDisk

theorem FileHeader.isStored_zero : FileHeader.zero.IsStored :=
  have hzero : IsInt 0 := by decide
  isStored_iff.mpr ⟨hzero, hzero, fun _ => hzero, fun _ => hzero⟩

theorem FileHeader.extended_allocated {len : ℤ} {new : Fin NumSectors} (hk : dataSectorsOf L = k)
    (hlen : dataSectorsOf len = k + 1) (hlt : k < NumDirect) :
    { (FileHeader.zero.allocated L fun j => (sec j : ℕ)).extended k (new : ℕ) with
      numBytes := len } =
      FileHeader.zero.allocated len fun j => (update sec k new j : ℕ) := by
  simp only [extended, allocated, filled, hk, hlen, numEntries_of_le hlt, numEntries_of_le hlt.le,
    FileHeader.mk.injEq, true_and]
  refine ⟨by omega, ?_, ?_, ?_⟩
  · funext i
    by_cases hi : (i : ℕ) = k
    · simp [hi]
    · simp only [hi, if_false, update_of_ne hi, show (i : ℕ) < k + 1 ↔ (i : ℕ) < k by omega]
  · funext j
    rw [if_neg (by omega), if_neg (by omega)]
  · funext j
    rw [if_neg (by omega), if_neg (by omega)]

theorem FileHeader.dataSectorsOf_first (hn : 0 < n) (hmax : n ≤ SectorSize) :
    dataSectorsOf n = 1 := by
  unfold dataSectorsOf divRoundUp SectorSize at *
  split <;> omega

theorem FileHeader.totalSectorsOf_first (hn : 0 < n) (hmax : n ≤ SectorSize) :
    totalSectorsOf n = 1 := by
  have hdata := dataSectorsOf_first hn hmax
  rw [totalSectorsOf_of_le (by rw [hdata]; decide), hdata]

theorem FileHeader.isDirect_first {h hdr : FileHeader} {new : Fin NumSectors}
    (hsec : h = FileHeader.zero.allocated (0 : ℕ) fun j => (sec j : ℕ))
    (hhdr : hdr = { h.extended 0 (new : ℕ) with numBytes := n }) (hn : 0 < n)
    (hmax : n ≤ SectorSize) : hdr.IsDirect 1 fun _ => new := by
  have hdata := dataSectorsOf_first hn hmax
  have hsame : hdr = FileHeader.zero.allocated n fun j => (update sec 0 new j : ℕ) := by
    rw [hhdr, hsec]
    exact extended_allocated rfl hdata (by decide)
  rw [hsame]
  refine isDirect_allocated isStored_zero (fun _ => rfl) hdata (by decide)
    (OpenFile.length_of_divRoundUp (by exact_mod_cast hn) hdata) (fun i hi => ?_)
    fun i hi j hj _ => by omega
  rw [Nat.lt_one_iff.mp hi, update_self]

namespace FileOnDisk

theorem grown {new : Fin NumSectors} {hdr : FileHeader} {e : ℕ}
    (hf : FileOnDisk mapHdr mapSec s f L m others d)
    (hsec : f.hdr = FileHeader.zero.allocated L fun j => (sec j : ℕ))
    (hlt : dataSectorsOf L < NumDirect) (he : dataSectorsOf e = dataSectorsOf L + 1)
    (hfree : 0 < m.numClear) (hnew : m.nth 0 = (new : ℕ))
    (hhdr : hdr = { f.hdr.extended (dataSectorsOf L) (new : ℕ) with numBytes := e })
    (hfetch : fetchFrom (s : ℕ) d' = .ok hdr) (hmap : MapOnDisk mapHdr mapSec (m.after 1) d') :
    FileOnDisk mapHdr mapSec s ⟨hdr, (s : ℕ)⟩ e (m.after 1) others d' := by
  have hhdr' : hdr = FileHeader.zero.allocated e
      fun j => (update sec (dataSectorsOf L) new j : ℕ) := by
    rw [hhdr, hsec, extended_allocated rfl he hlt]
  have hle : (e : ℤ) ≤ MaxFileSize := by
    unfold dataSectorsOf divRoundUp SectorSize NumDirect at *
    unfold MaxFileSize NumDirect NumInDirect MaxIndirectPointers SectorSize
    split at he <;> omega
  have htotal : ∀ k ≤ NumDirect, ∀ size : ℤ, dataSectorsOf size = k → totalSectorsOf size = k := by
    rintro k hk size rfl
    exact totalSectorsOf_of_le hk
  have hold : (List.range (dataSectorsOf L)).map
      (fun i => ((update sec (dataSectorsOf L) new i : ℕ) : ℤ)) =
      (List.range (dataSectorsOf L)).map fun i => ((sec i : ℕ) : ℤ) := by
    refine List.map_congr_left fun i hi => ?_
    rw [update_of_ne (Nat.ne_of_lt (List.mem_range.mp hi))]
  have hsectors : hdr.sectors = f.hdr.sectors ++ [((new : ℕ) : ℤ)] := by
    rw [hhdr', sectors_allocated hle, hf.sectors hsec, htotal _ hlt.le _ rfl, htotal _ hlt _ he,
      List.range_succ, List.map_append, List.map_singleton, update_self, hold]
  have howned := hf.owned.take hf.map.numBits (Nat.succ_le_of_lt hfree)
  refine ⟨rfl, ⟨_, hhdr'⟩, by exact_mod_cast hle, hfetch, hmap, howned.perm ?_⟩
  rw [hsectors, List.append_assoc]
  simp only [List.range_one, List.map_cons, List.map_nil, hnew, List.singleton_append]
  refine List.Perm.trans ?_ (((List.perm_middle.cons _).cons _).cons _).symm
  exact (List.Perm.swap ..).trans (((List.Perm.swap ..).trans ((List.Perm.swap ..).cons _)).cons _)

theorem isDirect (hf : FileOnDisk mapHdr mapSec s f L m others d)
    (hsec : f.hdr = FileHeader.zero.allocated L fun j => (sec j : ℕ)) (hL : 0 < L)
    (hle : dataSectorsOf L ≤ NumDirect) : f.hdr.IsDirect (dataSectorsOf L) sec := by
  have hdist := hf.distinct hsec
  rw [totalSectorsOf_of_le hle] at hdist
  rw [hsec]
  exact isDirect_allocated isStored_zero (fun _ => rfl) rfl hle
    (OpenFile.length_of_divRoundUp (by exact_mod_cast hL) rfl) (fun _ _ => rfl) hdist

/-- A write that starts in the first sector and adds the next direct sector. -/
theorem exists_grow (hf : FileOnDisk mapHdr mapSec s f L m others d)
    (hsec : f.hdr = FileHeader.zero.allocated L fun j => (sec j : ℕ)) (hL : 0 < L)
    (hlt : dataSectorsOf L < NumDirect) (hpos : position < SectorSize)
    (he : dataSectorsOf (position + n : ℕ) = dataSectorsOf L + 1) (hfree : 0 < m.numClear)
    (b : ℕ → UInt8) :
    ∃ f' d', f.writeAtCount b n position d = .ok (n, f', d') ∧
      FileOnDisk mapHdr mapSec s f' (position + n) (m.after 1) others d' ∧
      f'.Holds (position + n) (blit (image sec d) position n b) d' := by
  obtain ⟨new, hnew, -⟩ := exists_nth_sector hf.map.numBits hfree
  have hdirect := hf.isDirect hsec hL hlt.le
  have hnodup := hf.owned.1
  have hnotMem := hf.owned.nth_notMem hfree
  rw [hnew] at hnotMem
  simp only [List.nodup_cons, List.mem_cons, List.mem_append, not_or] at hnodup hnotMem
  obtain ⟨⟨h₁, h₂, h₃, -⟩, ⟨h₄, h₅, -⟩, ⟨h₆, -⟩, h₇⟩ := hnodup
  obtain ⟨h₈, h₉, h₁₀, h₁₁, -⟩ := hnotMem
  have hends : dataSectorsOf L * SectorSize < position + n ∧
      position + n ≤ (dataSectorsOf L + 1) * SectorSize := by
    have hpos' : (0 : ℤ) < (position + n : ℕ) := by
      by_contra hc
      obtain ⟨rfl, rfl⟩ : position = 0 ∧ n = 0 := by omega
      exact absurd he.symm (Nat.succ_ne_zero _)
    have hlen := OpenFile.length_of_divRoundUp hpos' he
    rw [Nat.add_sub_cancel] at hlen
    omega
  obtain ⟨hdr, d', hw, hdirect', hhdr, hfetch, hmap, -, himg⟩ := OpenFile.exists_writeAt_past
    (s := s) b hf.map hdirect hf.hdrSector hlt hfree hnew
    (by
      simp only [List.nodup_cons, List.mem_cons, not_or]
      exact ⟨⟨h₁, h₂, Ne.symm h₈, h₃⟩, ⟨h₄, Ne.symm h₉, h₅⟩, ⟨Ne.symm h₁₀, h₆⟩, h₁₁,
        h₇.of_append_left⟩)
    hpos hends.1 hends.2 0
  have hlen : hdr.numBytes = (position + n : ℕ) := by
    rw [hhdr]
    dsimp only
    omega
  refine ⟨⟨hdr, (s : ℕ)⟩, d', writeAtCount_eq_ok.mpr ⟨rfl, hw⟩, ?_, ?_⟩
  · refine hf.grown hsec hlt he hfree hnew ?_ hfetch hmap
    rw [hhdr, show ((position + n : ℕ) : ℤ) = n + position by omega]
  · exact (OpenFile.holds_iff (hdirect'.maps.lists hlt) hends.2).mpr himg

theorem exists_first (hf : FileOnDisk mapHdr mapSec s f 0 m others d) (hn : 0 < n)
    (hmax : n ≤ SectorSize) (hfree : 0 < m.numClear) (b : ℕ → UInt8) :
    ∃ f' d', f.writeAtCount b n 0 d = .ok (n, f', d') ∧
      FileOnDisk mapHdr mapSec s f' n (m.after 1) others d' ∧ f'.Holds n b d' := by
  obtain ⟨sec, hsec⟩ := hf.header
  obtain ⟨new, hnew, -⟩ := exists_nth_sector hf.map.numBits hfree
  have hdata := dataSectorsOf_first hn hmax
  have hnodup := hf.owned.1
  have hnotMem := hf.owned.nth_notMem hfree
  rw [hnew] at hnotMem
  simp only [List.nodup_cons, List.mem_cons, not_or] at hnodup hnotMem
  obtain ⟨⟨h₀map, h₀s, -⟩, ⟨hmaps, -⟩, -⟩ := hnodup
  obtain ⟨h₀new, hmapnew, hsnew, -⟩ := hnotMem
  obtain ⟨d₁, hext, hmap₁, -⟩ :=
    exists_extendFile (n := 1) hf.map (Ne.symm h₀map) hf.numSectors (by decide)
    (by decide) (by rw [show dataSectorsOf (0 : ℕ) = 0 from rfl]; omega) 0
  rw [show dataSectorsOf (0 : ℕ) = 0 from rfl, Nat.sub_zero, extendedBy_one (by decide),
    hnew] at hext
  obtain ⟨hdr, hhdr⟩ : ∃ hdr : FileHeader,
      hdr = { f.hdr.extended 0 (new : ℕ) with numBytes := n } := ⟨_, rfl⟩
  have hdirect : hdr.IsDirect 1 fun _ => new := isDirect_first hsec hhdr hn hmax
  have hmapsTo : (f.hdr.extended 0 (new : ℕ)).Maps 1 fun _ => new := by
    have := hdirect.maps
    rwa [hhdr] at this
  have hpad : OpenFile.paddedLength f.hdr.numBytes = (0 * SectorSize : ℕ) := by
    rw [hf.numBytes]
    rfl
  have hlast : (0 + n - 1) / SectorSize = 0 := Nat.div_eq_of_lt (by omega)
  -- nothing is read, since the length of the file is still zero
  obtain ⟨read, hedges⟩ : ∃ read,
      OpenFile.readEdges ⟨f.hdr.extended 0 (new : ℕ), f.hdrSector⟩ (fun _ => 0)
      n 0 0 0 d₁ = .ok (read, fun _ => 0) := by
    refine OpenFile.exists_readEdges_past ?_ (Nat.le_refl 0) _
    change f.hdr.numBytes ≤ (0 * SectorSize : ℕ)
    rw [hf.numBytes, Nat.zero_mul]
  obtain ⟨d₂, hd₂, hframe₂, himg₂⟩ := OpenFile.exists_writeSectors (d := d₁) hmapsTo
    (fun i hi j hj _ => by omega) (by decide : 0 + 1 ≤ 1) (blit (fun _ => 0) 0 n b)
  obtain ⟨d₃, hd₃, hfetch, hframe₃⟩ := hdirect.exists_writeBack s d₂
  have hplaces : ∀ z ∈ places 1 (fun _ => new), z = (new : ℕ) := by
    rintro z ⟨-, -, rfl⟩
    rfl
  refine ⟨⟨hdr, (s : ℕ)⟩, d₃, writeAtCount_eq_ok.mpr ⟨rfl, ?_⟩, ?_, ?_⟩
  · rw [OpenFile.WriteDepth, OpenFile.writeAt_beyond hpad (by omega)]
    dsimp only
    rw [if_neg (by omega), hlast, Nat.zero_mul, Nat.zero_div, Nat.sub_zero, Nat.add_zero, hext,
      ok_bind]
    dsimp only
    rw [hedges, ok_bind]
    dsimp only
    rw [Nat.zero_sub, hd₂, ok_bind, hf.hdrSector]
    have hhdr' : hdr = { f.hdr.extended 0 (new : ℕ) with numBytes := n + (0 : ℕ) } := by
      rw [hhdr, Int.natCast_zero, Int.add_zero]
    dsimp only at hhdr'
    rw [← hhdr', hd₃]
    rfl
  · refine hf.grown hsec (by decide) hdata hfree hnew hhdr hfetch ?_
    refine (hmap₁.frame hframe₂ ?_ ?_).frame hframe₃ h₀s hmaps
    · exact fun hz => h₀new (hplaces _ hz).symm
    · exact fun hz => hmapnew (hplaces _ hz).symm
  · refine (OpenFile.holds_iff (hdirect.maps.lists (by decide)) (by omega)).mpr fun i hi => ?_
    rw [image_frame (n := 1) (by omega) hframe₃ fun _ _ => hsnew, himg₂ i (by omega), Nat.zero_mul,
      blit_start (by omega), blit_start hi]

end FileOnDisk

theorem divRoundUp_mono {n m : ℕ} (s : ℕ) (h : n ≤ m) : divRoundUp n s ≤ divRoundUp m s := by
  unfold divRoundUp
  rcases (Nat.div_le_div_right (c := s) h).lt_or_eq with hlt | heq
  · split <;> split <;> omega
  · -- with the same quotient the remainder grows
    have hn := Nat.div_add_mod n s
    have hm := Nat.div_add_mod m s
    rw [heq] at hn ⊢
    split <;> split <;> omega

theorem FileHeader.totalSectorsOf_mono {size size' : ℤ} (h : size ≤ size') :
    totalSectorsOf size ≤ totalSectorsOf size' := by
  have hdata : dataSectorsOf size ≤ dataSectorsOf size' :=
    divRoundUp_mono SectorSize (Int.toNat_le_toNat h)
  exact Nat.add_le_add hdata (divRoundUp_mono PointersPerIndirect (Nat.sub_le_sub_right hdata _))

theorem lt_mul_of_dataSectorsOf_succ (hL : 0 < L) (he : dataSectorsOf n = dataSectorsOf L + 1) :
    L < n := by
  unfold dataSectorsOf divRoundUp SectorSize at he
  split at he <;> split at he <;> omega

theorem FileOnDisk.dataSectors_zero
    (hsec : f.hdr = FileHeader.zero.allocated L fun j => (sec j : ℕ)) (hL : 0 < L) :
    f.hdr.dataSectors ⟨0, by decide⟩ = (sec 0 : ℕ) := by
  have hpos : 0 < numEntries (dataSectorsOf L) := by
    have := dataSectorsOf_pos hL
    unfold numEntries NumDirect
    omega
  rw [hsec]
  simp [allocated, filled, hpos]

theorem overwritten_iff (hf : FileOnDisk mapHdr mapSec s f L m others d) (hc : f.Holds L c d)
    (hsec : f.hdr = FileHeader.zero.allocated L fun j => (sec j : ℕ)) (hL : 0 < L)
    (hlt : dataSectorsOf L < NumDirect) (hpos : position < SectorSize) :
    (∀ i < position + n, blit (image sec d) position n b i = overwritten c L position n b i) ↔
      ZeroTail f L position d := by
  have hdirect := hf.isDirect hsec hL hlt.le
  have himage : ∀ i < position, image sec d i = (d (sec 0)).bytes i := by
    intro i hi
    rw [image, Nat.div_eq_of_lt (by omega), Nat.mod_eq_of_lt (by omega)]
  constructor
  · intro heq i hlow hhigh y hy
    have hbyte := heq i (by omega)
    rw [FileOnDisk.dataSectors_zero hsec hL] at hy
    obtain rfl : sec 0 = y := Fin.ext (by omega)
    rwa [overwritten, blit_of_lt hhigh, blit_of_lt hhigh, if_neg (by omega),
      himage i hhigh] at hbyte
  · intro htail i hi
    rcases Nat.lt_or_ge i position with hlow | hlow
    · refine blit_congr ?_
      split
      case isTrue hiL =>
        exact (OpenFile.holds_iff (hdirect.maps.lists hlt.le) le_mul_dataSectorsOf).mp hc i hiL
      case isFalse hiL =>
        rw [himage i hlow]
        exact htail i (by omega) hlow _ (FileOnDisk.dataSectors_zero hsec hL)
    · obtain ⟨j, rfl⟩ := Nat.exists_eq_add_of_le hlow
      rw [overwritten, blit_add (by omega), blit_add (by omega)]

/-! ## When `WriteAt` is right -/

/-- A write that fits gives the file its new contents. -/
theorem FileOnDisk.exists_stores (hf : FileOnDisk mapHdr mapSec s f L m others d)
    (hc : f.Holds L c d) (hn : 0 < n)
    (hroom : totalSectorsOf (position + n : ℕ) ≤ totalSectorsOf L + m.numClear)
    (hfits : Fits f L position n d) (b : ℕ → UInt8) :
    ∃ f' d', f.writeAtCount b n position d = .ok (n, f', d') ∧
      FileOnDisk mapHdr mapSec s f' (max L (position + n))
        (m.after (totalSectorsOf (max L (position + n) : ℕ) - totalSectorsOf L)) others d' ∧
      f'.Holds (max L (position + n)) (overwritten c L position n b) d' := by
  rcases hfits with ⟨hin, hfound⟩ | ⟨hL, hlt, hpos, he, htail⟩ | ⟨rfl, rfl, hmax⟩
  · obtain ⟨d', hw, hf', hc'⟩ := hf.exists_inside hc hn hin hfound b
    rw [Nat.max_eq_left hin, Nat.sub_self]
    refine ⟨f, d', hw, hf', hc'.congr fun i hi => ?_⟩
    exact blit_congr (if_pos hi).symm
  · obtain ⟨sec, hsec⟩ := hf.header
    have hmore := lt_mul_of_dataSectorsOf_succ hL he
    rw [totalSectorsOf_of_le (by omega), he, totalSectorsOf_of_le hlt.le] at hroom
    obtain ⟨f', d', hw, hf', hc'⟩ := hf.exists_grow hsec hL hlt hpos he (by omega) b
    rw [Nat.max_eq_right hmore.le, totalSectorsOf_of_le (by omega), he, totalSectorsOf_of_le hlt.le,
      Nat.add_sub_cancel_left]
    exact ⟨f', d', hw, hf', hc'.congr ((overwritten_iff hf hc hsec hL hlt hpos).mpr htail)⟩
  · rw [Nat.zero_add, totalSectorsOf_first hn hmax] at hroom
    obtain ⟨f', d', hw, hf', hc'⟩ := hf.exists_first hn hmax (by
      rw [show totalSectorsOf (0 : ℕ) = 0 from rfl] at hroom
      omega) b
    rw [Nat.zero_add, Nat.max_eq_right (Nat.zero_le n), totalSectorsOf_first hn hmax]
    refine ⟨f', d', hw, hf', hc'.congr fun i hi => ?_⟩
    exact (blit_start hi).symm

theorem not_stores_of_inside (hf : FileOnDisk mapHdr mapSec s f L m others d)
    (hend : position + n ≤ dataSectorsOf L * SectorSize) (hlong : L < position + n) :
    ¬ Stores mapHdr mapSec s f L c others d position n b := by
  rintro ⟨f', m', d', hw, hf', -⟩
  obtain ⟨rfl, -⟩ := hf.writeAt_inside hend (writeAtCount_eq_ok.mp hw).2
  have := hf'.numBytes
  rw [hf.numBytes] at this
  omega

/-- Inside of a file of 35 sectors or more the data sectors behind the direct ones are not found. -/
theorem exists_not_stores_of_long (hf : FileOnDisk mapHdr mapSec s f L m others d)
    (hc : f.Holds L c d) (hn : 0 < n) (hend : position + n ≤ L)
    (hbehind : NumDirect * SectorSize < position + n)
    (hge : NumDirect + MaxIndirectPointers ≤ dataSectorsOf L) :
    ∃ b, ¬ Stores mapHdr mapSec s f L c others d position n b := by
  -- a byte that the file does not have at the end of the range
  refine ⟨fun _ => c (position + n - 1) + 1, ?_⟩
  rintro ⟨f', m', d', hw, hf', hc'⟩
  obtain ⟨sec, hsec⟩ := hf.header
  obtain ⟨rfl, buf, hsectors⟩ :=
    hf.writeAt_inside (hend.trans le_mul_dataSectorsOf) (writeAtCount_eq_ok.mp hw).2
  rw [Nat.max_eq_left hend] at hf' hc'
  have hlast : (position + n - 1) / SectorSize < dataSectorsOf L :=
    div_lt_dataSectorsOf (by omega)
  have hkeep := hf.keeps_last hsec hge (Nat.div_le_div_right (by omega)) hlast
    (by rw [Nat.le_div_iff_mul_le sectorSize_pos]; omega) hsectors
  have hold := (hf.holds_iff hsec).mp hc (position + n - 1) (by omega)
  have hnew := (hf'.holds_iff hsec).mp hc' (position + n - 1) (by omega)
  have hover : overwritten c L position n (fun _ => c (position + n - 1) + 1) (position + n - 1) =
      c (position + n - 1) + 1 := by
    rw [overwritten, Nat.add_sub_assoc hn, blit_add (by omega)]
  rw [hover, ← hold, image, image, hkeep] at hnew
  exact absurd hnew (by simp)

theorem fits_of_stores (hf : FileOnDisk mapHdr mapSec s f L m others d) (hc : f.Holds L c d)
    (hn : 0 < n) (hroom : totalSectorsOf (position + n : ℕ) ≤ totalSectorsOf L + m.numClear)
    (hend : dataSectorsOf L * SectorSize < position + n)
    (hst : Stores mapHdr mapSec s f L c others d position n b) : Fits f L position n d := by
  obtain ⟨f', m', d', hw, hf', hc'⟩ := hst
  have hlen := le_mul_dataSectorsOf (L := L)
  rw [Nat.max_eq_right (by omega)] at hf' hc'
  obtain ⟨hlt, he, hcases⟩ := beyond_of_fileOnDisk hf hn hend (writeAtCount_eq_ok.mp hw).2
    hf'
  rcases hcases with ⟨hk, hpos⟩ | ⟨hk, rfl⟩
  · have hL : 0 < L := by
      rcases Nat.eq_zero_or_pos L with rfl | h
      · exact absurd hk (by decide)
      · exact h
    obtain ⟨sec, hsec⟩ := hf.header
    rw [totalSectorsOf_of_le (by omega), he, totalSectorsOf_of_le hlt.le] at hroom
    obtain ⟨f₁, d₁, hw₁, -, hc₁⟩ := hf.exists_grow hsec hL hlt hpos he (by omega) b
    rw [hw] at hw₁
    cases hw₁
    exact .inr (.inl ⟨hL, hlt, hpos, he,
      (overwritten_iff hf hc hsec hL hlt hpos).mp fun i hi => hc₁.unique hc' hi⟩)
  · refine .inr (.inr ⟨?_, rfl, ?_⟩)
    · rwa [hk, Nat.zero_mul, Nat.le_zero] at hlen
    · rw [hk] at he
      unfold dataSectorsOf divRoundUp SectorSize at he
      unfold SectorSize
      split at he <;> omega

/-! ## Chunks -/

/-- Write one chunk after the other with `Write`. -/
def OpenFile.writeChunks :
    List (List UInt8) → ℕ → OpenFile → Disk → Except Fault (ℕ × OpenFile × Disk)
  | [], seekPosition, f, d => .ok (seekPosition, f, d)
  | chunk :: chunks, seekPosition, f, d => do
    let (_, seekPosition, f, d) ← f.write (fun i => chunk.getD i 0) chunk.length seekPosition d
    writeChunks chunks seekPosition f d

/-- Every chunk fits at the end of the file, which has this length before the first one. -/
def ChunksFit : ℕ → List (List UInt8) → Prop
  | _, [] => True
  | L, chunk :: chunks =>
    (0 < chunk.length ∧
      (0 < L ∧ L < SectorSize ∧ SectorSize < L + chunk.length ∧ L + chunk.length ≤ 2 * SectorSize ∨
        L = 0 ∧ chunk.length ≤ SectorSize)) ∧ ChunksFit (L + chunk.length) chunks

theorem fits_append (h : 0 < L ∧ L < SectorSize ∧ SectorSize < L + n ∧ L + n ≤ 2 * SectorSize ∨
    L = 0 ∧ n ≤ SectorSize) : Fits f L L n d := by
  rcases h with ⟨hL, hlow, hhigh, hmax⟩ | ⟨rfl, hmax⟩
  · have hone : dataSectorsOf L = 1 := by
      unfold dataSectorsOf divRoundUp SectorSize at *
      split <;> omega
    have htwo : dataSectorsOf (L + n : ℕ) = 2 := by
      unfold dataSectorsOf divRoundUp SectorSize at *
      split <;> omega
    refine .inr (.inl ⟨hL, by rw [hone]; decide, hlow, by rw [hone, htwo], fun i h₁ h₂ => ?_⟩)
    omega
  · exact .inr (.inr ⟨rfl, rfl, hmax⟩)

theorem FileOnDisk.exists_writeChunks {chunks : List (List UInt8)}
    (hf : FileOnDisk mapHdr mapSec s f L m others d) (hc : f.Holds L c d)
    (hfits : ChunksFit L chunks)
    (hroom : totalSectorsOf (L + chunks.flatten.length : ℕ) ≤ totalSectorsOf L + m.numClear) :
    ∃ f' m' d', f.writeChunks chunks L d = .ok (L + chunks.flatten.length, f', d') ∧
      FileOnDisk mapHdr mapSec s f' (L + chunks.flatten.length) m' others d' ∧
      f'.Holds (L + chunks.flatten.length)
        (fun i => if i < L then c i else chunks.flatten.getD (i - L) 0) d' := by
  induction chunks generalizing f L c m d with
  | nil =>
    refine ⟨f, m, d, rfl, hf, hc.congr fun i hi => ?_⟩
    exact (if_pos hi).symm
  | cons chunk chunks ih =>
    obtain ⟨⟨hpos, hfit⟩, hrest⟩ := hfits
    have hmono : totalSectorsOf (L + chunk.length : ℕ) ≤
        totalSectorsOf (L + (chunk :: chunks).flatten.length : ℕ) := by
      apply totalSectorsOf_mono
      rw [List.flatten_cons, List.length_append]
      omega
    obtain ⟨f₁, d₁, hw₁, hf₁, hc₁⟩ :=
      hf.exists_stores hc hpos (by omega) (fits_append hfit) fun i => chunk.getD i 0
    rw [Nat.max_eq_right (Nat.le_add_right ..)] at hf₁ hc₁
    have hclear : (m.after (totalSectorsOf (L + chunk.length : ℕ) - totalSectorsOf L)).numClear +
        totalSectorsOf (L + chunk.length : ℕ) = totalSectorsOf L + m.numClear := by
      have := totalSectorsOf_mono (by omega : (L : ℤ) ≤ (L + chunk.length : ℕ))
      rw [BitMap.numClear_after]
      omega
    have hlen : L + (chunk :: chunks).flatten.length =
        L + chunk.length + chunks.flatten.length := by
      rw [List.flatten_cons, List.length_append, Nat.add_assoc]
    rw [hlen] at hroom ⊢
    obtain ⟨f', m', d', hw, hf', hc'⟩ := ih hf₁ hc₁ hrest (by omega)
    refine ⟨f', m', d', ?_, hf', hc'.congr fun i hi => ?_⟩
    · rw [OpenFile.writeChunks, OpenFile.write, hw₁]
      exact hw
    · rw [List.flatten_cons]
      rcases Nat.lt_or_ge i L with hlow | hlow
      · rw [if_pos (by omega), if_pos hlow, overwritten, blit_of_lt hlow, if_pos hlow]
      · obtain ⟨j, rfl⟩ := Nat.exists_eq_add_of_le hlow
        rw [if_neg (by omega : ¬ L + j < L), Nat.add_sub_cancel_left]
        rcases Nat.lt_or_ge j chunk.length with hj | hj
        · rw [if_pos (by omega), overwritten, blit_add hj, List.getD_append _ _ _ _ hj]
        · rw [if_neg (by omega), List.getD_append_right _ _ _ _ hj, Nat.add_sub_add_left]

theorem length_of_chunksFit {chunks : List (List UInt8)} (hL : L ≤ 2 * SectorSize)
    (h : ChunksFit L chunks) : L + chunks.flatten.length ≤ 2 * SectorSize := by
  induction chunks generalizing L with
  | nil => exact hL
  | cons chunk chunks ih =>
    obtain ⟨⟨-, hfit⟩, hrest⟩ := h
    have := ih (by omega) hrest
    rw [List.flatten_cons, List.length_append]
    omega

/-- `WriteAt` does what it is for, whatever it writes, exactly when the write fits; a write past the
end that does not fit stores nothing. So do writes of chunks that all fit, and the file is read
back. -/
theorem stores_iff (hf : FileOnDisk mapHdr mapSec s f L m others d) (hc : f.Holds L c d) :
    (∀ position n : ℕ, 0 < n → position + n ≤ MaxFileSize →
      totalSectorsOf (position + n : ℕ) ≤ totalSectorsOf L + m.numClear →
      ((∀ b, Stores mapHdr mapSec s f L c others d position n b) ↔ Fits f L position n d) ∧
      (L < position + n → ∀ b, Stores mapHdr mapSec s f L c others d position n b →
        Fits f L position n d)) ∧
    (L = 0 → ∀ chunks : List (List UInt8), ChunksFit 0 chunks →
      totalSectorsOf (chunks.flatten.length : ℕ) ≤ m.numClear →
      ∃ f' m' d', f.writeChunks chunks 0 d = .ok (chunks.flatten.length, f', d') ∧
        FileOnDisk mapHdr mapSec s f' chunks.flatten.length m' others d' ∧
        f'.Holds chunks.flatten.length (fun i => chunks.flatten.getD i 0) d' ∧
        f'.Reads chunks.flatten.length (fun i => chunks.flatten.getD i 0) d') := by
  refine ⟨fun position n hn _ hroom => ?_, ?_⟩
  · have hpast : L < position + n → ∀ b, Stores mapHdr mapSec s f L c others d position n b →
        Fits f L position n d := by
      intro hlong b hst
      rcases Nat.lt_or_ge (dataSectorsOf L * SectorSize) (position + n) with hend | hend
      · exact fits_of_stores hf hc hn hroom hend hst
      · exact absurd hst (not_stores_of_inside hf hend hlong)
    refine ⟨⟨fun hst => ?_, fun hfits b => ?_⟩, hpast⟩
    · rcases Nat.lt_or_ge L (position + n) with hlong | hin
      · exact hpast hlong _ (hst fun _ => 0)
      · by_contra hout
        rw [Fits, not_or, not_and, not_or, Nat.not_le, Nat.not_lt] at hout
        obtain ⟨hbehind, hge⟩ := hout.1 hin
        obtain ⟨b, hb⟩ := exists_not_stores_of_long hf hc hn hin hbehind hge
        exact hb (hst b)
    · obtain ⟨f', d', hw, hf', hc'⟩ := hf.exists_stores hc hn hroom hfits b
      exact ⟨f', _, d', hw, hf', hc'⟩
  · rintro rfl chunks hfits hroom
    obtain ⟨f', m', d', hw, hf', hc'⟩ := hf.exists_writeChunks hc hfits (by
      rw [Nat.zero_add]
      exact hroom.trans (Nat.le_add_left ..))
    have hlen := length_of_chunksFit (Nat.zero_le _) hfits
    rw [Nat.zero_add] at hw hf' hc' hlen
    have hholds : f'.Holds chunks.flatten.length (fun i => chunks.flatten.getD i 0) d' :=
      hc'.congr fun i _ => if_neg (Nat.not_lt_zero i)
    refine ⟨f', m', d', hw, hf', hholds, hf'.reads_of_holds ?_ hholds⟩
    unfold dataSectorsOf divRoundUp NumDirect MaxIndirectPointers SectorSize at *
    split <;> omega

theorem exists_emptyFile :
    ∃ (mapHdr : FileHeader) (mapSec s : Fin NumSectors) (f : OpenFile) (m : BitMap)
    (d : Disk), FileOnDisk mapHdr mapSec s f 0 m [3, 4] d ∧ m.numClear = 1019 := by
  have h₀ : (((⟨1, by decide⟩ : Fin NumSectors) : ℕ) : ℤ) ≠ FreeMapSector := by decide
  have hsecs : FileHeader.zero.sectors = [] := rfl
  have hclear : ((threeMarked.mark 3).mark 4).numClear = 1019 := by
    have h₁ := BitMap.numClear_mark (b := threeMarked) (i := 3) (by decide) (by decide)
    have h₂ := BitMap.numClear_mark (b := threeMarked.mark 3) (i := 4) (by decide) (by decide)
    rw [numClear_threeMarked] at h₁
    omega
  obtain ⟨mapHdr, d, hmap⟩ :=
    exists_mapOnDisk ((isFreeMap_threeMarked.mark (i := 3) (by decide)).mark (i := 4) (by decide))
    h₀
  obtain ⟨d', -, hfetch, hframe⟩ := exists_writeBack (d := d) (s := ⟨2, by decide⟩)
    (hasBlocks_of_le isStored_zero (by decide) fun _ => rfl)
    fun j hj => absurd hj (Nat.not_lt_zero _)
  have hout : ∀ z : ℤ, z ≠ 2 → z ∉ FileHeader.zero.headerSectors
      ((⟨2, by decide⟩ : Fin NumSectors) : ℕ) := by
    rintro z hz (rfl | ⟨j, hj, -⟩)
    · exact hz rfl
    · exact absurd hj (Nat.not_lt_zero _)
  refine ⟨mapHdr, _, ⟨2, by decide⟩, ⟨FileHeader.zero, 2⟩, _, d',
    ⟨rfl, ⟨fun _ => ⟨0, by decide⟩, ?_⟩, by decide, hfetch,
      hmap.frame hframe (hout _ (by decide)) (hout _ (by decide)), ?_, ?_⟩, hclear⟩
  · rw [allocated, show numEntries (dataSectorsOf (0 : ℕ)) = 0 from rfl, filled_zero]
    rfl
  · rw [hsecs]
    decide
  · rw [hsecs]
    simp only [List.nil_append, List.mem_cons, List.not_mem_nil, or_false]
    rintro z (rfl | rfl | rfl | rfl | rfl)
    all_goals exact ⟨by decide, by decide⟩

/-- A file of 100 bytes gets 50 new ones and grows by another 50, beside sectors of other files. -/
theorem stores_iff_grows :
    ∃ (mapHdr : FileHeader) (mapSec s : Fin NumSectors) (f : OpenFile) (m : BitMap)
    (d : Disk), FileOnDisk mapHdr mapSec s f 100 m [3, 4] d ∧ f.Holds 100 (fun _ => 1) d ∧
      Stores mapHdr mapSec s f 100 (fun _ => 1) [3, 4] d 50 100 fun _ => 2 := by
  obtain ⟨mapHdr, mapSec, s, f, m, d, hf, hclear⟩ := exists_emptyFile
  obtain ⟨f', d', -, hf', hc'⟩ :=
    hf.exists_first (by decide : 0 < 100) (by decide) (by omega) fun _ => 1
  have hroom : totalSectorsOf (50 + 100 : ℕ) ≤ totalSectorsOf (100 : ℕ) + (m.after 1).numClear := by
    rw [BitMap.numClear_after, hclear]
    decide
  refine ⟨mapHdr, mapSec, s, f', m.after 1, d', hf', hc',
    ((stores_iff hf' hc').1 50 100 (by decide) (by decide) hroom).1.mpr (.inr (.inl ?_)) _⟩
  exact ⟨by decide, by decide, by decide, by decide, fun i h₁ h₂ => by omega⟩

/-- Two bytes are written to an empty file and two more behind them: the length stays two. -/
theorem exists_not_stores :
    ∃ (mapHdr : FileHeader) (mapSec s : Fin NumSectors) (f : OpenFile) (m : BitMap)
    (d : Disk), FileOnDisk mapHdr mapSec s f 2 m [3, 4] d ∧ f.Holds 2 (fun _ => 1) d ∧
      totalSectorsOf (2 + 2 : ℕ) ≤ totalSectorsOf (2 : ℕ) + m.numClear ∧
      ¬ Stores mapHdr mapSec s f 2 (fun _ => 1) [3, 4] d 2 2 fun _ => 1 := by
  obtain ⟨mapHdr, mapSec, s, f, m, d, hf, hclear⟩ := exists_emptyFile
  obtain ⟨f', d', -, hf', hc'⟩ :=
    hf.exists_first (by decide : 0 < 2) (by decide) (by omega) fun _ => 1
  refine ⟨mapHdr, mapSec, s, f', m.after 1, d', hf', hc', ?_,
    not_stores_of_inside hf' (by decide) (by decide)⟩
  exact Nat.le_add_right ..

end Nachos.Filesys
