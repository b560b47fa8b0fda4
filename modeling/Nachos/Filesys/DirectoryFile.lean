import Nachos.Filesys.Extension
import Nachos.Filesys.FileSystem

/-! # The file of the directory

The number of entries and the entries are read back as they were written. When
the table has grown out of the last sector of its file, the file grows by a
sector.
-/

namespace Nachos.Filesys

open Function Words Bytes Outcome

/-! ## Entries and tables as bytes -/

namespace DirectoryEntry

variable {e : DirectoryEntry} {f g : ℕ → UInt8}

theorem ofBytes_congr (h : ∀ j < size, f j = g j) : ofBytes f = ofBytes g := by
  have hsec : int (fun i => f (4 + i)) = int fun i => g (4 + i) :=
    int_congr fun i hi => h _ (by unfold size; omega)
  have hname : ∀ i : Fin (FileNameMaxLen + 1), f (8 + i) = g (8 + i) := by
    intro i
    have hi := i.isLt
    unfold FileNameMaxLen at hi
    exact h _ (by unfold size; omega)
  simp only [ofBytes, h 0 (by decide), hsec, hname]

theorem ofBytes_bytes (h : IsInt e.sector) : ofBytes e.bytes = e := by
  have hsec : int (fun i => e.bytes (4 + i)) = e.sector := by
    rw [← int_intByte h]
    refine int_congr fun i hi => ?_
    simp [bytes, show 4 + i < 8 by omega]
  have hname : ∀ i : Fin (FileNameMaxLen + 1), e.bytes (8 + i) = e.name i := by
    intro i
    have hi : 8 + (i : ℕ) - 8 = i := Nat.add_sub_cancel_left ..
    rw [bytes, if_neg (by omega), if_neg (by omega), if_neg (by omega), dif_pos (by omega)]
    exact congrArg e.name (Fin.ext hi)
  have huse : (e.bytes 0 != 0) = e.inUse := by
    cases hu : e.inUse <;> simp [bytes, hu]
  simp only [ofBytes, hsec, hname, huse]

end DirectoryEntry

namespace Directory

variable {d : Disk} {dir : Directory} {f : OpenFile} {g : ℕ → UInt8} {sec : ℕ → Fin NumSectors}
  {k n : ℕ}

def fileSize (n : ℕ) : ℕ := 4 + n * DirectoryEntry.size

def bytes (dir : Directory) (v : ℕ) : UInt8 :=
  if v < 4 then intByte dir.tableSize v else dir.tableBytes (v - 4)

def ofImage (g : ℕ → UInt8) : Directory :=
  ⟨(List.range (int g).toNat).map fun i => .ofBytes fun j => g (4 + i * DirectoryEntry.size + j)⟩

theorem ofImage_congr {g' : ℕ → UInt8} (h : ∀ v < fileSize (int g).toNat, g' v = g v) :
    ofImage g' = ofImage g := by
  have hsize : int g' = int g := int_congr fun i hi => h i (by unfold fileSize; omega)
  simp only [ofImage, hsize, Directory.mk.injEq, List.map_inj_left, List.mem_range]
  intro i hi
  refine DirectoryEntry.ofBytes_congr fun j hj => h _ ?_
  have := mul_add_lt hi hj
  unfold fileSize
  omega

theorem ofImage_bytes (hn : IsInt dir.tableSize) (hs : ∀ e ∈ dir.table, IsInt e.sector) :
    ofImage dir.bytes = dir := by
  have hsize : int dir.bytes = dir.tableSize := by
    rw [← int_intByte hn]
    exact int_congr fun i hi => if_pos hi
  obtain ⟨table⟩ := dir
  simp only [ofImage, hsize, tableSize, Int.toNat_natCast, Directory.mk.injEq]
  refine List.ext_getElem (by simp) fun i h₁ h₂ => ?_
  rw [List.getElem_map, List.getElem_range,
    ← DirectoryEntry.ofBytes_bytes (hs _ (List.getElem_mem h₂))]
  refine DirectoryEntry.ofBytes_congr fun j hj => ?_
  have hsub : 4 + i * DirectoryEntry.size + j - 4 = j + i * DirectoryEntry.size := by omega
  rw [bytes, if_neg (by omega), hsub, tableBytes, Nat.add_mul_div_right _ _ (by decide),
    Nat.div_eq_of_lt hj, Nat.zero_add, Nat.add_mul_mod_self_right, Nat.mod_eq_of_lt hj]
  simp [h₂]

theorem blit_tableBytes {v : ℕ} (hg : ∀ i < 4, g i = intByte dir.tableSize i)
    (hv : v < fileSize dir.tableSize) :
    blit g 4 (dir.tableSize * DirectoryEntry.size) dir.tableBytes v = dir.bytes v := by
  rcases Nat.lt_or_ge v 4 with hlow | hlow
  · rw [blit_of_lt hlow, hg v hlow, bytes, if_pos hlow]
  · obtain ⟨i, rfl⟩ := Nat.exists_eq_add_of_le hlow
    unfold fileSize at hv
    rw [blit_add (by omega), bytes, if_neg (by omega), Nat.add_sub_cancel_left]

theorem fetchFrom_of_maps (hm : f.hdr.Maps k sec) (hlen : 4 < f.hdr.numBytes) (hk : 0 < k)
    (size : ℕ) : fetchFrom size f d =
      if int (image sec d) < 0 then .error .undefined
      else (f.readAt (fun _ => 0) ((int (image sec d)).toNat * DirectoryEntry.size) 4 d).bind
        fun r => .ok ⟨(List.range (int (image sec d)).toNat).map fun i =>
          .ofBytes fun j => r.2 (i * DirectoryEntry.size + j)⟩ := by
  have hone : SectorSize ≤ k * SectorSize := Nat.le_mul_of_pos_left _ hk
  have hsize : int (blit (intByte size) 0 4 fun i => image sec d (0 + i)) = int (image sec d) := by
    refine int_congr fun i hi => ?_
    rw [blit_start hi, Nat.zero_add]
  rw [fetchFrom, OpenFile.readAt_eq hm (by decide) (by omega) (by unfold SectorSize at *; omega),
    ok_bind]
  dsimp only
  rw [hsize]
  rfl

theorem fetchFrom_eq (hm : f.hdr.Maps k sec) (hlen : 4 < f.hdr.numBytes) (hk : 0 < k)
    (hpos : 0 < int (image sec d))
    (hroom : fileSize (int (image sec d)).toNat ≤ k * SectorSize) (size : ℕ) :
    fetchFrom size f d = .ok (ofImage (image sec d)) := by
  unfold fileSize at hroom
  rw [fetchFrom_of_maps hm hlen hk, if_neg (by omega),
    OpenFile.readAt_eq hm ?_ (by exact_mod_cast hlen) hroom, Except.bind]
  · simp only [ofImage, Except.ok.injEq, Directory.mk.injEq, List.map_inj_left,
      List.mem_range]
    intro i hi
    refine DirectoryEntry.ofBytes_congr fun j hj => ?_
    rw [blit_start (mul_add_lt hi hj), Nat.add_assoc]
  · exact Nat.mul_pos (by omega) (by decide)

theorem int_of_fetchFrom (hm : f.hdr.Maps k sec) (hlen : 4 < f.hdr.numBytes) (hk : 0 < k)
    {size : ℕ} (h : fetchFrom size f d = .ok dir) :
    0 ≤ int (image sec d) ∧ (int (image sec d)).toNat = dir.tableSize := by
  rw [fetchFrom_of_maps hm hlen hk] at h
  split at h
  · cases h
  · obtain ⟨r, -, h⟩ := bind_eq_ok.mp h
    cases h
    exact ⟨by omega, by simp [tableSize]⟩

end Directory

/-! ## The directory on disk -/

variable {d d' : Disk} {dir dir' : Directory} {dirHdr : FileHeader} {S : Set ℤ}
  {sec : ℕ → Fin NumSectors} {k : ℕ}

structure DirHeader (dirHdr : FileHeader) (k : ℕ) (sec : ℕ → Fin NumSectors) (d : Disk) : Prop where
  direct : dirHdr.IsDirect k sec
  start : 4 < dirHdr.numBytes
  header : FileHeader.fetchFrom DirectorySector d = .ok dirHdr

structure DirOnDisk (dirHdr : FileHeader) (k : ℕ) (sec : ℕ → Fin NumSectors) (dir : Directory)
    (d : Disk) : Prop extends DirHeader dirHdr k sec d where
  table : Directory.fetchFrom NumDirEntries ⟨dirHdr, DirectorySector⟩ d = .ok dir
  pos : 0 < dir.tableSize
  room : Directory.fileSize dir.tableSize ≤ k * SectorSize

namespace DirOnDisk

theorem int_image (hd : DirOnDisk dirHdr k sec dir d) : int (image sec d) = dir.tableSize := by
  obtain ⟨h₀, h₁⟩ :=
    Directory.int_of_fetchFrom (f := ⟨dirHdr, DirectorySector⟩) hd.direct.maps hd.start
    hd.direct.pos hd.table
  omega

theorem ofImage_eq (hd : DirOnDisk dirHdr k sec dir d) : Directory.ofImage (image sec d) = dir := by
  have hpos := hd.pos
  have htable := hd.table
  rw [Directory.fetchFrom_eq (f := ⟨dirHdr, DirectorySector⟩) hd.direct.maps hd.start hd.direct.pos
    (by rw [hd.int_image]; omega) (by rw [hd.int_image]; exact hd.room)] at htable
  exact Except.ok.inj htable

theorem isInt (hd : DirOnDisk dirHdr k sec dir d) : ∀ e ∈ dir.table, IsInt e.sector := by
  intro e he
  rw [← hd.ofImage_eq] at he
  obtain ⟨i, -, rfl⟩ := List.mem_map.mp he
  exact isInt_int

theorem of_image (hh : DirHeader dirHdr k sec d) (hpos : 0 < dir.tableSize)
    (hroom : Directory.fileSize dir.tableSize ≤ k * SectorSize)
    (hsize : int (image sec d) = dir.tableSize) (himg : Directory.ofImage (image sec d) = dir) :
    DirOnDisk dirHdr k sec dir d := by
  refine ⟨hh, ?_, hpos, hroom⟩
  rw [Directory.fetchFrom_eq (f := ⟨dirHdr, DirectorySector⟩) hh.direct.maps hh.start hh.direct.pos
    (by rw [hsize]; omega) (by rw [hsize]; exact hroom), himg]

theorem of_header {hdr : FileHeader} (hd : DirOnDisk dirHdr k sec dir d)
    (hh : DirHeader hdr k sec d') (himg : ∀ v < k * SectorSize, image sec d' v = image sec d v) :
    DirOnDisk hdr k sec dir d' := by
  have hroom : Directory.fileSize (int (image sec d)).toNat ≤ k * SectorSize := by
    rw [hd.int_image]
    exact hd.room
  have hsize : int (image sec d') = int (image sec d) :=
    int_congr fun i hi => himg i (by unfold Directory.fileSize at hroom; omega)
  refine of_image hh hd.pos hd.room (hsize.trans hd.int_image) ?_
  rw [Directory.ofImage_congr fun v hv => himg v (by omega), hd.ofImage_eq]

theorem frame (hd : DirOnDisk dirHdr k sec dir d) (hS : d.Frame S d') (h₁ : DirectorySector ∉ S)
    (hsec : ∀ z ∈ dirHdr.sectors, z ∉ S) : DirOnDisk dirHdr k sec dir d' := by
  refine hd.of_header ⟨hd.direct, hd.start, FileHeader.fetchFrom_frame hd.header hS ?_⟩
    fun v hv => ?_
  · simpa [hd.direct.headerSectors] using h₁
  · exact image_frame hv hS fun i hi => hsec _ (hd.direct.mem_sectors.mpr ⟨i, hi, rfl⟩)

theorem of_bytes (hh : DirHeader dirHdr k sec d) (hpos : 0 < dir.tableSize)
    (hroom : Directory.fileSize dir.tableSize ≤ k * SectorSize)
    (hints : ∀ e ∈ dir.table, IsInt e.sector)
    (himg : ∀ v < Directory.fileSize dir.tableSize, image sec d v = dir.bytes v) :
    DirOnDisk dirHdr k sec dir d := by
  have hsize : IsInt dir.tableSize := by
    have hk := hh.direct.le
    unfold Directory.fileSize DirectoryEntry.size SectorSize at hroom
    unfold NumDirect at hk
    exact ⟨by omega, by omega⟩
  have hint : int dir.bytes = dir.tableSize := by
    rw [← int_intByte hsize]
    exact int_congr fun i hi => if_pos hi
  refine of_image hh hpos hroom ?_ ?_
  · rw [← hint]
    exact int_congr fun i hi => himg i (by unfold Directory.fileSize; omega)
  · rw [← Directory.ofImage_bytes hsize hints]
    refine Directory.ofImage_congr fun v hv => himg v ?_
    rwa [hint] at hv

theorem exists_writeSize (hd : DirHeader dirHdr k sec d) (z : ℤ) (depth : ℕ) :
    ∃ d', OpenFile.writeAt (depth + 1) (intByte z) 4 0 ⟨dirHdr, DirectorySector⟩ d =
        .ok (⟨dirHdr, DirectorySector⟩, d') ∧
      d.Frame { y | y ∈ dirHdr.sectors } d' ∧ ∀ i < 4, image sec d' i = intByte z i := by
  have hone : SectorSize ≤ k * SectorSize := Nat.le_mul_of_pos_left _ hd.direct.pos
  obtain ⟨d', hd', hframe, himg⟩ := OpenFile.exists_writeAt (f := ⟨dirHdr, DirectorySector⟩)
    (d := d) (intByte z) hd.direct.maps hd.direct.distinct (by decide : 0 < 4)
    (by unfold SectorSize at *; omega : 0 + 4 ≤ k * SectorSize) hd.direct.length depth
  refine ⟨d', hd', hframe.mono fun y hy => hd.direct.mem_sectors.mpr hy, fun i hi => ?_⟩
  rw [himg i (by unfold SectorSize at *; omega), blit_start hi]

theorem exists_write (hd : DirHeader dirHdr k sec d) (h₁ : DirectorySector ∉ dirHdr.sectors)
    (hpos : 0 < dir'.tableSize) (hroom : Directory.fileSize dir'.tableSize ≤ k * SectorSize)
    (hints : ∀ e ∈ dir'.table, IsInt e.sector) :
    ∃ d', dir'.writeBack ⟨dirHdr, DirectorySector⟩ d = .ok (⟨dirHdr, DirectorySector⟩, d') ∧
      DirOnDisk dirHdr k sec dir' d' ∧ d.Frame { y | y ∈ dirHdr.sectors } d' := by
  obtain ⟨d₁, hd₁, hframe₁, himg₁⟩ := exists_writeSize hd dir'.tableSize 1
  obtain ⟨d₂, hd₂, hframe₂, himg₂⟩ := OpenFile.exists_writeAt (f := ⟨dirHdr, DirectorySector⟩)
    (d := d₁) dir'.tableBytes hd.direct.maps hd.direct.distinct
    (Nat.mul_pos hpos (by decide)) hroom hd.direct.length 1
  have hframe : d.Frame { y | y ∈ dirHdr.sectors } d₂ :=
    hframe₁.trans (hframe₂.mono fun y hy => hd.direct.mem_sectors.mpr hy)
  refine ⟨d₂, ?_, of_bytes ⟨hd.direct, hd.start, ?_⟩ hpos hroom hints fun v hv => ?_, hframe⟩
  · rw [Directory.writeBack, OpenFile.WriteDepth, hd₁, ok_bind]
    exact hd₂
  · exact FileHeader.fetchFrom_frame hd.header hframe (by simpa [hd.direct.headerSectors] using h₁)
  · rw [himg₂ v (by omega), Directory.blit_tableBytes himg₁ hv]

theorem exists_write_past {mapHdr : FileHeader} {mapSec new : Fin NumSectors} {m : BitMap}
    (hd : DirHeader dirHdr k sec d) (hm : MapOnDisk mapHdr mapSec m d) (hlt : k < NumDirect)
    (hfree : 0 < m.numClear) (hnew : m.nth 0 = (new : ℕ))
    (hnodup : (FreeMapSector :: ((mapSec : ℕ) : ℤ) :: DirectorySector :: ((new : ℕ) : ℤ) ::
      dirHdr.sectors).Nodup)
    (hend : k * SectorSize < Directory.fileSize dir'.tableSize)
    (hroom : Directory.fileSize dir'.tableSize ≤ (k + 1) * SectorSize)
    (hints : ∀ e ∈ dir'.table, IsInt e.sector) :
    ∃ hdr d', dir'.writeBack ⟨dirHdr, DirectorySector⟩ d = .ok (⟨hdr, DirectorySector⟩, d') ∧
      DirOnDisk hdr (k + 1) (update sec k new) dir' d' ∧ MapOnDisk mapHdr mapSec (m.after 1) d' ∧
      d.Frame { z | z = (mapSec : ℕ) ∨ z = DirectorySector ∨ z = (new : ℕ) ∨ z ∈ dirHdr.sectors }
        d' := by
  have hone : SectorSize ≤ k * SectorSize := Nat.le_mul_of_pos_left _ hd.direct.pos
  have hpos : 0 < dir'.tableSize := by
    unfold Directory.fileSize DirectoryEntry.size SectorSize at *
    omega
  obtain ⟨d₁, hd₁, hframe₁, himg₁⟩ := exists_writeSize hd dir'.tableSize 1
  have hm₁ : MapOnDisk mapHdr mapSec m d₁ := by
    simp only [List.nodup_cons, List.mem_cons, not_or] at hnodup
    exact hm.frame hframe₁ hnodup.1.2.2.2 hnodup.2.1.2.2
  obtain ⟨hdr, d₂, hd₂, hdirect, hlen, hheader, hmap, hframe₂, himg₂⟩ :=
    OpenFile.exists_writeAt_past (f := ⟨dirHdr, DirectorySector⟩) (s := ⟨1, by decide⟩)
      dir'.tableBytes hm₁ hd.direct rfl hlt hfree hnew hnodup
        (by decide : 4 < SectorSize) hend hroom 0
  refine ⟨hdr, d₂, ?_, of_bytes ⟨hdirect, ?_, hheader⟩ hpos hroom hints fun v hv => ?_, hmap, ?_⟩
  · rw [Directory.writeBack, OpenFile.WriteDepth, hd₁, ok_bind]
    exact hd₂
  · have := Nat.mul_pos hpos (by decide : 0 < DirectoryEntry.size)
    rw [hlen]
    dsimp only
    omega
  · rw [himg₂ v hv, Directory.blit_tableBytes himg₁ hv]
  · exact (hframe₁.mono fun z hz => .inr (.inr (.inr hz))).trans hframe₂

end DirOnDisk

end Nachos.Filesys
