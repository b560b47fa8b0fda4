import Nachos.Filesys.DirectoryFile
import Nachos.Filesys.Names
import Nachos.Filesys.Ownership

/-! # Consistent file systems

The free map, the directory and the headers of the files are on disk, and the
sectors that they name are different and marked. The free map and the directory
can be written one after the other, and so can sectors that are not in use. A
formatted disk is consistent.
-/

namespace Nachos.Filesys

open Function Words Bytes Outcome

/-- What is on the disk of a file system. -/
structure Layout where
  /-- The sector of the free map. -/
  mapSec : Fin NumSectors
  map : BitMap
  /-- The number of sectors of the directory file. -/
  dirLen : ℕ
  dirSec : ℕ → Fin NumSectors
  dir : Directory
  /-- The header of the file with its header in this sector. -/
  file : ℤ → FileHeader

namespace Layout

variable {w : Layout} {z : ℤ}

def dirSectors (w : Layout) : List ℤ := (List.range w.dirLen).map fun i => ((w.dirSec i : ℕ) : ℤ)

def fileSectors (w : Layout) : List ℤ := w.dir.live.flatMap fun p => p.2 :: (w.file p.2).sectors

def systemSectors (w : Layout) : List ℤ :=
  FreeMapSector :: DirectorySector :: ((w.mapSec : ℕ) : ℤ) :: w.dirSectors

def used (w : Layout) : List ℤ := w.systemSectors ++ w.fileSectors

theorem mem_fileSectors {p : List UInt8 × ℤ} (hp : p ∈ w.dir.live)
    (hz : z = p.2 ∨ z ∈ (w.file p.2).sectors) :
    z ∈ w.fileSectors :=
  List.mem_flatMap.mpr ⟨p, hp, List.mem_cons.mpr hz⟩

theorem systemSectors_subset : w.systemSectors ⊆ w.used := List.subset_append_left ..

theorem fileSectors_subset : w.fileSectors ⊆ w.used := List.subset_append_right ..

theorem nodup_used (h : w.used.Nodup) :
    w.systemSectors.Nodup ∧ ∀ z ∈ w.fileSectors, z ∉ w.systemSectors := by
  rw [used, List.nodup_append] at h
  exact ⟨h.1, fun z hz hz' => h.2.2 z hz' z hz rfl⟩

def Fetches (w : Layout) (d : Disk) : Prop :=
  ∀ p ∈ w.dir.live, FileHeader.fetchFrom p.2 d = .ok (w.file p.2)

theorem Fetches.frame {d d' : Disk} {S : Set ℤ} (h : w.Fetches d) (hd : d.Frame S d')
    (hS : ∀ z ∈ w.fileSectors, z ∉ S) : w.Fetches d' := by
  intro p hp
  refine FileHeader.fetchFrom_frame (h p hp) hd fun z hz => hS z (mem_fileSectors hp ?_)
  exact FileHeader.headerSectors_subset hz

end Layout

/-- The files of the system and what the layout says are on the disk. The directory file is in the
direct entries of its header. -/
structure Consistent (fs : FileSystem) (w : Layout) : Prop where
  freeMapFile : fs.freeMapFile.hdrSector = FreeMapSector
  directoryFile : fs.directoryFile.hdrSector = DirectorySector
  map : MapOnDisk fs.freeMapFile.hdr w.mapSec w.map fs.disk
  dir : DirOnDisk fs.directoryFile.hdr w.dirLen w.dirSec w.dir fs.disk
  tableSize : NumDirEntries ≤ w.dir.tableSize
  file : w.Fetches fs.disk
  keys : (w.dir.live.map Prod.fst).Nodup
  owned : w.map.Owned w.used

namespace Consistent

variable {fs : FileSystem} {w : Layout} {d : Disk} {dir : Directory} {file : ℤ → FileHeader}
  {m : BitMap} {name : CString} {S : Set ℤ} {s : ℤ}

theorem fetchFreeMap (hc : Consistent fs w) : fs.fetchFreeMap = .ok w.map := by
  obtain ⟨d, ⟨mapHdr, mapSector⟩, dirFile⟩ := fs
  obtain rfl : mapSector = FreeMapSector := hc.freeMapFile
  exact hc.map.map

theorem fetchDirectory (hc : Consistent fs w) : fs.fetchDirectory = .ok w.dir := by
  obtain ⟨d, mapFile, dirHdr, dirSector⟩ := fs
  obtain rfl : dirSector = DirectorySector := hc.directoryFile
  exact hc.dir.table

theorem dirSectors (hc : Consistent fs w) : fs.directoryFile.hdr.sectors = w.dirSectors :=
  hc.dir.direct.sectors

theorem frame (hc : Consistent fs w) (hd : fs.disk.Frame S d) (hS : ∀ z ∈ w.used, z ∉ S) :
    Consistent { fs with disk := d } w where
  freeMapFile := hc.freeMapFile
  directoryFile := hc.directoryFile
  map := hc.map.frame hd (hS _ (Layout.systemSectors_subset (by simp [Layout.systemSectors])))
    (hS _ (Layout.systemSectors_subset (by simp [Layout.systemSectors])))
  dir := hc.dir.frame hd (hS _ (Layout.systemSectors_subset (by simp [Layout.systemSectors])))
    fun z hz => hS _ (Layout.systemSectors_subset (by
    rw [hc.dirSectors] at hz
    simp [Layout.systemSectors, hz]))
  tableSize := hc.tableSize
  file := hc.file.frame hd fun z hz => hS z (Layout.fileSectors_subset hz)
  keys := hc.keys
  owned := hc.owned

/-! ## Searching -/

theorem lookup_nonneg (hc : Consistent fs w) (h : w.dir.live.lookup name.key = some s) : 0 ≤ s := by
  have hmem : s ∈ w.used :=
    Layout.fileSectors_subset (Layout.mem_fileSectors (Assoc.mem_of_lookup h) (.inl rfl))
  exact (hc.owned.2 s hmem).1.1

theorem find_eq_neg_one_iff (hc : Consistent fs w) :
    w.dir.find name = -1 ↔ w.dir.live.lookup name.key = none := by
  rw [Directory.find_eq]
  cases h : w.dir.live.lookup name.key with
  | none => simp
  | some s =>
    have := hc.lookup_nonneg h
    simp only [Option.getD_some, reduceCtorEq, iff_false]
    omega

theorem find_eq_of_lookup (h : w.dir.live.lookup name.key = some s) : w.dir.find name = s := by
  rw [Directory.find_eq, h, Option.getD_some]

theorem fetchFile (hc : Consistent fs w) (h : w.dir.live.lookup name.key = some s) :
    FileHeader.fetchFrom s fs.disk = .ok (w.file s) :=
  hc.file _ (Assoc.mem_of_lookup h)

/-! ## Writing the free map and the directory -/

theorem exists_writeMap (hc : Consistent fs w) (hm : m.IsFreeMap) (ho : m.Owned w.used) :
    ∃ d, m.writeBack fs.freeMapFile fs.disk = .ok (fs.freeMapFile, d) ∧
      Consistent { fs with disk := d } { w with map := m } ∧
      fs.disk.Frame { z | z ∉ w.fileSectors } d := by
  obtain ⟨hsys, hfiles⟩ := Layout.nodup_used hc.owned.1
  simp only [Layout.systemSectors, List.nodup_cons, List.mem_cons, not_or] at hsys hfiles
  obtain ⟨⟨h₀₁, h₀map, h₀dir⟩, ⟨h₁map, h₁dir⟩, hmapdir, -⟩ := hsys
  obtain ⟨d, hd, hmap, hframe⟩ := hc.map.exists_write (Ne.symm h₀map) hm 1
  have hfile : ∀ z ∈ w.fileSectors, z ∉ ({((w.mapSec : ℕ) : ℤ)} : Set ℤ) :=
    fun z hz => (hfiles z hz).2.2.1
  refine ⟨d, ?_, ⟨hc.freeMapFile, hc.directoryFile, hmap, ?_, hc.tableSize,
    hc.file.frame hframe hfile, hc.keys, ho⟩, hframe.mono fun z hz hz' => hfile z hz' hz⟩
  · obtain ⟨d', ⟨mapHdr, mapSector⟩, dirFile⟩ := fs
    obtain rfl : mapSector = FreeMapSector := hc.freeMapFile
    exact hd
  · refine hc.dir.frame hframe h₁map fun z hz => ?_
    rw [hc.dirSectors] at hz
    rintro rfl
    exact hmapdir hz

theorem exists_writeDirectory (hc : Consistent fs w) (hT : NumDirEntries ≤ dir.tableSize)
    (hroom : Directory.fileSize dir.tableSize ≤ w.dirLen * SectorSize)
    (hints : ∀ e ∈ dir.table, IsInt e.sector) (hkeys : (dir.live.map Prod.fst).Nodup)
    (hfile : { w with dir, file }.Fetches fs.disk) (ho : w.map.Owned { w with dir, file }.used) :
    ∃ d, dir.writeBack fs.directoryFile fs.disk = .ok (fs.directoryFile, d) ∧
      Consistent { fs with disk := d } { w with dir, file } ∧
      fs.disk.Frame { z | z ∉ w.fileSectors } d := by
  obtain ⟨hsys, hfiles⟩ := Layout.nodup_used ho.1
  simp only [Layout.systemSectors, List.nodup_cons, List.mem_cons, not_or] at hsys hfiles
  obtain ⟨⟨h₀₁, h₀map, h₀dir⟩, ⟨h₁map, h₁dir⟩, hmapdir, -⟩ := hsys
  have hold := Layout.nodup_used hc.owned.1
  have hpos : 0 < dir.tableSize := Nat.lt_of_lt_of_le (by decide) hT
  have hsec := hc.dirSectors
  obtain ⟨d, hd, hdir, hframe⟩ :=
    DirOnDisk.exists_write hc.dir.toDirHeader (by rw [hsec]; exact h₁dir)
    hpos hroom hints
  rw [hsec] at hframe
  refine ⟨d, ?_, ⟨hc.freeMapFile, hc.directoryFile, hc.map.frame hframe h₀dir hmapdir, hdir, hT,
    hfile.frame hframe fun z hz => (hfiles z hz).2.2.2, hkeys, ho⟩, hframe.mono fun z hz hz' => ?_⟩
  · obtain ⟨d', mapFile, dirHdr, dirSector⟩ := fs
    obtain rfl : dirSector = DirectorySector := hc.directoryFile
    exact hd
  · exact hold.2 z hz' (by simp [Layout.systemSectors, show z ∈ w.dirSectors from hz])

theorem exists_writeDirectory_past (hc : Consistent fs w) (hlt : w.dirLen < NumDirect)
    (hfree : 0 < w.map.numClear) {new : Fin NumSectors} (hnew : w.map.nth 0 = (new : ℕ))
    (hT : NumDirEntries ≤ dir.tableSize)
    (hend : w.dirLen * SectorSize < Directory.fileSize dir.tableSize)
    (hroom : Directory.fileSize dir.tableSize ≤ (w.dirLen + 1) * SectorSize)
    (hints : ∀ e ∈ dir.table, IsInt e.sector) (hkeys : (dir.live.map Prod.fst).Nodup)
    (hfile : { w with dir, file }.Fetches fs.disk) (ho : w.map.Owned { w with dir, file }.used) :
    ∃ dirFile d, dir.writeBack fs.directoryFile fs.disk = .ok (dirFile, d) ∧
      Consistent { fs with disk := d, directoryFile := dirFile }
        { w with
          map := w.map.after 1, dirLen := w.dirLen + 1, dirSec := update w.dirSec w.dirLen new,
          dir, file } ∧
      fs.disk.Frame { z | z ∉ w.fileSectors } d := by
  have hnotMem : ((new : ℕ) : ℤ) ∉ Layout.used { w with dir, file } := hnew ▸ ho.nth_notMem hfree
  have htake := ho.take hc.map.numBits (n := 1) hfree
  obtain ⟨hsys, hfiles⟩ := Layout.nodup_used ho.1
  simp only [Layout.used, Layout.systemSectors, List.nodup_cons, List.mem_cons, List.mem_append,
    not_or]
    at hsys hfiles hnotMem
  obtain ⟨⟨h₀₁, h₀map, h₀dir⟩, ⟨h₁map, h₁dir⟩, hmapdir, hdirs⟩ := hsys
  obtain ⟨⟨hnew₀, hnew₁, hnewmap, hnewdir⟩, hnewfile⟩ := hnotMem
  have hsec := hc.dirSectors
  have hnodup : (FreeMapSector :: ((w.mapSec : ℕ) : ℤ) :: DirectorySector :: ((new : ℕ) : ℤ) ::
      fs.directoryFile.hdr.sectors).Nodup := by
    rw [hsec]
    simp only [List.nodup_cons, List.mem_cons, not_or]
    exact ⟨⟨h₀map, h₀₁, Ne.symm hnew₀, h₀dir⟩, ⟨Ne.symm h₁map, Ne.symm hnewmap, hmapdir⟩,
      ⟨Ne.symm hnew₁, h₁dir⟩, hnewdir, hdirs⟩
  obtain ⟨hdr, d, hd, hdir, hmap, hframe⟩ :=
    DirOnDisk.exists_write_past hc.dir.toDirHeader hc.map hlt hfree
    hnew hnodup hend hroom hints
  rw [hsec] at hframe
  refine ⟨⟨hdr, DirectorySector⟩, d, ?_, ⟨hc.freeMapFile, rfl, hmap, hdir, hT,
    hfile.frame hframe fun z hz => ?_, hkeys, ?_⟩, hframe.mono fun z hz hz' => ?_⟩
  · obtain ⟨d', mapFile, dirHdr, dirSector⟩ := fs
    obtain rfl : dirSector = DirectorySector := hc.directoryFile
    exact hd
  · obtain ⟨-, hz₁, hzmap, hzdir⟩ := hfiles z hz
    rintro (h | h | rfl | h)
    · exact hzmap h
    · exact hz₁ h
    · exact hnewfile hz
    · exact hzdir h
  · have hold : (List.range w.dirLen).map (fun i => ((update w.dirSec w.dirLen new i : ℕ) : ℤ)) =
        w.dirSectors := by
      refine List.map_congr_left fun i hi => ?_
      rw [update_of_ne (Nat.ne_of_lt (List.mem_range.mp hi))]
    have hmiddle : (w.systemSectors ++
        ((new : ℕ) : ℤ) :: Layout.fileSectors { w with dir, file }).Perm
        (((new : ℕ) : ℤ) :: (w.systemSectors ++ Layout.fileSectors { w with dir, file })) :=
        List.perm_middle
    refine htake.perm ?_
    simp only [Layout.used, Layout.systemSectors, Layout.dirSectors, Layout.fileSectors,
      List.range_succ, List.map_append, hold, List.map_cons, List.map_nil, update_self, hnew,
      List.range_zero, List.nil_append, List.cons_append, List.append_assoc] at hmiddle ⊢
    exact hmiddle.symm
  · have hz₁ := (Layout.nodup_used hc.owned.1).2 z hz'
    simp only [Layout.systemSectors, List.mem_cons, not_or] at hz₁
    rcases hz with h | h | rfl | h
    · exact hz₁.2.2.1 h
    · exact hz₁.2.1 h
    · exact (hnew ▸ hc.owned.nth_notMem hfree) (Layout.fileSectors_subset hz')
    · exact hz₁.2.2.2 h

end Consistent

/-! ## Formatting -/

namespace FileSystem

variable {tableMem : ℕ → UInt8}

def formatMap : BitMap :=
  ((BitMap.ofSize NumSectors).mark FreeMapSector.toNat).mark DirectorySector.toNat

theorem isFreeMap_formatMap : formatMap.IsFreeMap :=
  (BitMap.isFreeMap_ofSize.mark (by decide)).mark (by decide)

theorem numClear_formatMap : formatMap.numClear = 1022 := by
  have h₀ : (BitMap.ofSize NumSectors).numClear = NumSectors := by
    simp [BitMap.numClear, BitMap.ofSize, BitMap.test]
  have h₁ :=
    BitMap.numClear_mark (b := BitMap.ofSize NumSectors) (i := FreeMapSector.toNat) (by decide)
    (by decide)
  have h₂ := BitMap.numClear_mark (b := (BitMap.ofSize NumSectors).mark FreeMapSector.toNat)
    (i := DirectorySector.toNat) (by decide) (by decide)
  have h₃ : NumSectors = 1024 := rfl
  unfold formatMap
  omega

theorem owned_formatMap : formatMap.Owned [FreeMapSector, DirectorySector] := by
  refine ⟨by decide, fun z hz => ?_⟩
  simp only [List.mem_cons, List.not_mem_nil, or_false] at hz
  rcases hz with rfl | rfl
  · exact ⟨by decide, by decide⟩
  · exact ⟨by decide, by decide⟩

def formatDirectory (tableMem : ℕ → UInt8) : Directory :=
  ⟨(List.range NumDirEntries).map fun i =>
    { DirectoryEntry.ofBytes fun j => tableMem (i * DirectoryEntry.size + j) with inUse := false }⟩

theorem tableSize_formatDirectory : (formatDirectory tableMem).tableSize = NumDirEntries := by
  simp [Directory.tableSize, formatDirectory]

theorem live_formatDirectory : (formatDirectory tableMem).live = [] := by
  simp [Directory.live, Directory.liveEntries, formatDirectory]

theorem exists_formatSectors : ∃ a b : Fin NumSectors,
    formatMap.nth 0 = (a : ℕ) ∧ formatMap.nth 1 = (b : ℕ) ∧
      (formatMap.after 2).Owned [((a : ℕ) : ℤ), ((b : ℕ) : ℤ), FreeMapSector, DirectorySector] := by
  obtain ⟨a, ha, -⟩ := FileHeader.exists_nth_sector (m := formatMap) (k := 0) rfl
    (by rw [numClear_formatMap]; decide)
  obtain ⟨b, hb, -⟩ := FileHeader.exists_nth_sector (m := formatMap) (k := 1) rfl
    (by rw [numClear_formatMap]; decide)
  have howned := owned_formatMap.take (n := 2) rfl (by rw [numClear_formatMap]; decide)
  simp only [show List.range 2 = [0, 1] from rfl, List.map_cons, List.map_nil, List.cons_append,
    List.nil_append, ha, hb] at howned
  exact ⟨a, b, ha, hb, howned⟩

theorem exists_allocate_one (mem : Sector) (size : ℤ) {m : BitMap} {y : Fin NumSectors}
    (h₀ : 0 < size) (h₁ : size ≤ MaxFileSize) (hone : FileHeader.dataSectorsOf size = 1)
    (hfree : 0 < m.numClear) (hy : m.nth 0 = (y : ℕ)) :
    ∃ hdr, (FileHeader.ofSector mem).allocate m size = .ok (true, hdr, m.after 1) ∧
      hdr.IsDirect 1 (fun _ => y) ∧ hdr.numBytes = size := by
  have htotal : FileHeader.totalSectorsOf size = 1 := by
    rw [FileHeader.totalSectorsOf, hone]
    rfl
  refine ⟨(FileHeader.ofSector mem).allocated size m.nth, ?_, ?_, rfl⟩
  · rw [FileHeader.allocate_eq_true h₀.le h₁ (by rwa [hone]), htotal]
  · refine FileHeader.isDirect_allocated FileHeader.isStored_ofSector (fun _ => rfl) hone
      (by decide) (OpenFile.length_of_divRoundUp h₀ hone) (fun i hi => ?_)
      fun i hi j hj _ => by omega
    rw [Nat.lt_one_iff.mp hi, hy]

theorem format_eq {mapHdr dirHdr : FileHeader} {m : BitMap} {d₁ d₂ d₃ d₄ : Disk}
    (hmapAlloc : (FileHeader.ofSector mapMem).allocate formatMap FreeMapFileSize =
      .ok (true, mapHdr, formatMap.after 1))
    (hdirAlloc : (FileHeader.ofSector dirMem).allocate (formatMap.after 1) DirectoryFileSize =
      .ok (true, dirHdr, m))
    (hd₁ : mapHdr.writeBack FreeMapSector d = .ok d₁)
    (hd₂ : dirHdr.writeBack DirectorySector d₁ = .ok d₂)
    (hmap : OpenFile.new FreeMapSector d₂ = .ok ⟨mapHdr, FreeMapSector⟩)
    (hdir : OpenFile.new DirectorySector d₂ = .ok ⟨dirHdr, DirectorySector⟩)
    (hd₃ : m.writeBack ⟨mapHdr, FreeMapSector⟩ d₂ = .ok (⟨mapHdr, FreeMapSector⟩, d₃))
    (hd₄ : (formatDirectory tableMem).writeBack ⟨dirHdr, DirectorySector⟩ d₃ =
      .ok (⟨dirHdr, DirectorySector⟩, d₄)) :
    format mapMem dirMem tableMem d =
      .ok ⟨d₄, ⟨mapHdr, FreeMapSector⟩, ⟨dirHdr, DirectorySector⟩⟩ := by
  unfold formatMap at hmapAlloc hdirAlloc
  unfold formatDirectory at hd₄
  rw [format]
  dsimp only
  rw [hmapAlloc, ok_bind]
  dsimp only
  rw [if_neg (by decide), hdirAlloc, ok_bind]
  dsimp only
  rw [if_neg (by decide), hd₁, ok_bind, hd₂, ok_bind, hmap, ok_bind, hdir, ok_bind, hd₃, ok_bind]
  dsimp only
  rw [hd₄]
  rfl

/-- A formatted disk is consistent and has no files. -/
theorem exists_format (mapMem dirMem : Sector) (tableMem : ℕ → UInt8) (d : Disk) :
    ∃ fs w, format mapMem dirMem tableMem d = .ok fs ∧ Consistent fs w ∧
    w.dir = formatDirectory tableMem ∧ w.dirLen = 1 ∧ w.map = formatMap.after 2 := by
  obtain ⟨a, b, ha, hb, howned⟩ := exists_formatSectors
  have hnodup := howned.1
  simp only [List.nodup_cons, List.mem_cons, List.not_mem_nil, or_false, not_or] at hnodup
  obtain ⟨⟨hab, ha₀, ha₁⟩, ⟨hb₀, hb₁⟩, h₀₁, -⟩ := hnodup
  obtain ⟨mapHdr, hmapAlloc, hmapDirect, -⟩ := exists_allocate_one mapMem FreeMapFileSize
    (by decide) (by decide) rfl (by rw [numClear_formatMap]; decide) ha
  obtain ⟨dirHdr, hdirAlloc, hdirDirect, hdirBytes⟩ := exists_allocate_one dirMem
    DirectoryFileSize (m := formatMap.after 1) (by decide) (by decide) rfl
    (by rw [BitMap.numClear_after, numClear_formatMap]; decide) (by rw [BitMap.nth_after, hb])
  obtain ⟨m, hm⟩ : ∃ m, m = formatMap.after 2 := ⟨_, rfl⟩
  have hfree : m.IsFreeMap := hm ▸ isFreeMap_formatMap.after
  rw [BitMap.after_add, ← hm] at hdirAlloc
  rw [← hm] at howned
  obtain ⟨d₁, hd₁, hfetch₁, -⟩ := hmapDirect.exists_writeBack ⟨0, by decide⟩ d
  obtain ⟨d₂, hd₂, hfetch₂, hframe₂⟩ := hdirDirect.exists_writeBack ⟨1, by decide⟩ d₁
  have hmapHeader : FileHeader.fetchFrom FreeMapSector d₂ = .ok mapHdr :=
    FileHeader.fetchFrom_frame hfetch₁ hframe₂ (by simp [hmapDirect.headerSectors, FreeMapSector])
  have hmap₂ : MapOnDisk mapHdr a _ d₂ :=
    ⟨hmapDirect, hmapHeader, BitMap.fetchFrom_eq hmapDirect.maps hmapDirect.numBytes_pos⟩
  obtain ⟨d₃, hd₃, hmap₃, hframe₃⟩ := hmap₂.exists_write ha₀ hfree 1
  have hdir₃ : DirHeader dirHdr 1 (fun _ => b) d₃ := by
    have hstart : 4 < DirectoryFileSize := by decide
    refine ⟨hdirDirect, by rw [hdirBytes]; exact hstart,
      FileHeader.fetchFrom_frame hfetch₂ hframe₃ ?_⟩
    simpa [hdirDirect.headerSectors] using Ne.symm ha₁
  have hints : ∀ e ∈ (formatDirectory tableMem).table, IsInt e.sector := by
    intro e he
    obtain ⟨i, -, rfl⟩ := List.mem_map.mp he
    exact isInt_int
  obtain ⟨d₄, hd₄, hdir₄, hframe₄⟩ := DirOnDisk.exists_write hdir₃
    (by simpa [hdirDirect.sectors] using Ne.symm hb₁) (by rw [tableSize_formatDirectory]; decide)
    (by rw [tableSize_formatDirectory]; decide) hints
  have hmap₄ := hmap₃.frame hframe₄ (by simpa [hdirDirect.sectors] using Ne.symm hb₀)
    (by simpa [hdirDirect.sectors] using hab)
  have hopenDir : OpenFile.new DirectorySector d₂ = .ok ⟨dirHdr, DirectorySector⟩ := by
    rw [OpenFile.new, show FileHeader.fetchFrom DirectorySector d₂ = .ok dirHdr from hfetch₂]
    rfl
  refine ⟨⟨d₄, ⟨mapHdr, FreeMapSector⟩, ⟨dirHdr, DirectorySector⟩⟩, ⟨a, m, 1, fun _ => b,
    formatDirectory tableMem, fun _ => .zero⟩,
    format_eq hmapAlloc hdirAlloc hd₁ hd₂ hmap₂.open_ hopenDir hd₃ hd₄,
    ⟨rfl, rfl, hmap₄, hdir₄, tableSize_formatDirectory.ge, ?_, ?_, ?_⟩, rfl, rfl, hm⟩
  · intro p hp
    rw [live_formatDirectory] at hp
    cases hp
  · rw [live_formatDirectory]
    exact List.nodup_nil
  · refine howned.perm ?_
    simp only [Layout.used, Layout.fileSectors, live_formatDirectory, List.flatMap_nil,
      List.append_nil]
    exact (List.perm_append_comm : ([((a : ℕ) : ℤ), ((b : ℕ) : ℤ)] ++
      [FreeMapSector, DirectorySector]).Perm _)

end FileSystem

end Nachos.Filesys
