import Nachos.Filesys.Consistent
import Nachos.Filesys.Allocated

/-! # Creating a file

`Create` looks for sectors in the free map that it has read, and writes the map,
the header and the directory one after the other. When the table of the
directory has outgrown its file, the file takes one sector more from the map on
disk.
-/

namespace Nachos.Filesys

open Function Words Bytes Outcome FileHeader

/-- The sectors that the file of the directory, now with `k` of them, takes for one more name. -/
def Directory.growth (dir : Directory) (k : ℕ) : ℕ :=
  if Directory.fileSize dir.nextSize ≤ k * SectorSize then 0 else 1

theorem Directory.growth_le_one (dir : Directory) {k : ℕ} : dir.growth k ≤ 1 := by
  rw [growth]
  split <;> omega

/-- There are sectors for the header, the data, the blocks and the directory, and the directory with
one more name stays in the direct entries of its header. -/
structure CreateFits (m : BitMap) (dir : Directory) (k : ℕ) (size : ℤ) : Prop where
  sectors : 1 + totalSectorsOf size + dir.growth k ≤ m.numClear
  table : Directory.fileSize dir.nextSize ≤ (k + dir.growth k) * SectorSize
  direct : k + dir.growth k ≤ NumDirect

instance (m : BitMap) (dir : Directory) (k : ℕ) (size : ℤ) : Decidable (CreateFits m dir k size) :=
  decidable_of_iff (_ ∧ _ ∧ _) ⟨fun ⟨h₁, h₂, h₃⟩ => ⟨h₁, h₂, h₃⟩, fun ⟨h₁, h₂, h₃⟩ => ⟨h₁, h₂, h₃⟩⟩

/-- The name is there, the size is out of range, or there are no sectors for the header and the
data. -/
def Refused (m : BitMap) (dir : Directory) (name : CString) (size : ℤ) : Prop :=
  dir.find name ≠ -1 ∨ size < 0 ∨ MaxFileSize < size ∨ m.numClear ≤ dataSectorsOf size

theorem Directory.tableSize_le_nextSize {dir : Directory} : dir.tableSize ≤ dir.nextSize := by
  rw [nextSize]
  split <;> omega

namespace Consistent

variable {fs : FileSystem} {w : Layout} {dir : Directory} {file : ℤ → FileHeader} {name : CString}
  {size : ℤ}
  {m : BitMap} {g : ℕ}

theorem exists_writeGrown (hc : Consistent fs w)
    (hg : g = if Directory.fileSize dir.tableSize ≤ w.dirLen * SectorSize then 0 else 1)
    (hfree : g ≤ w.map.numClear)
    (hroom : Directory.fileSize dir.tableSize ≤ (w.dirLen + g) * SectorSize)
    (hdirect : w.dirLen + g ≤ NumDirect) (hT : NumDirEntries ≤ dir.tableSize)
    (hints : ∀ e ∈ dir.table, IsInt e.sector) (hkeys : (dir.live.map Prod.fst).Nodup)
    (hfile : { w with dir, file }.Fetches fs.disk) (ho : w.map.Owned { w with dir, file }.used) :
    ∃ dirFile d w', dir.writeBack fs.directoryFile fs.disk = .ok (dirFile, d) ∧
      Consistent ⟨d, fs.freeMapFile, dirFile⟩ w' ∧ w'.dir = dir ∧ w'.file = file ∧
      w'.map = w.map.after g ∧ w'.dirLen = w.dirLen + g ∧
        fs.disk.Frame { z | z ∉ w.fileSectors } d := by
  split at hg
  case isTrue hle =>
    subst hg
    obtain ⟨d, hd, hc', hframe⟩ := hc.exists_writeDirectory hT hle hints hkeys hfile ho
    exact ⟨fs.directoryFile, d, _, hd, hc', rfl, rfl, rfl, rfl, hframe⟩
  case isFalse hgt =>
    subst hg
    obtain ⟨new, hnew, -⟩ := exists_nth_sector (k := 0) hc.map.numBits hfree
    obtain ⟨dirFile, d, hd, hc', hframe⟩ := hc.exists_writeDirectory_past hdirect hfree hnew hT
      (Nat.not_le.mp hgt) hroom hints hkeys hfile ho
    exact ⟨dirFile, d, _, hd, hc', rfl, rfl, rfl, rfl, hframe⟩

/-! ## The steps before the disk is written -/

theorem create_present (hc : Consistent fs w) (h : w.dir.live.lookup name.key ≠ none) :
    fs.create name size = .ok (false, fs) := by
  rw [FileSystem.create, hc.fetchDirectory, ok_bind, hc.dir.header, ok_bind,
    if_pos (mt hc.find_eq_neg_one_iff.mp h), pure_eq_ok]

theorem create_full (hc : Consistent fs w) (h : w.map.numClear = 0) :
    fs.create name size = .ok (false, fs) := by
  by_cases hno : w.dir.live.lookup name.key = none
  · have hnth : w.map.nth 0 = -1 := BitMap.nth_eq_neg_one_iff.mpr h.le
    rw [FileSystem.create, hc.fetchDirectory, ok_bind, hc.dir.header, ok_bind,
      if_neg (not_not.mpr (hc.find_eq_neg_one_iff.mpr hno)), hc.fetchFreeMap, ok_bind]
    dsimp only
    rw [show w.map.findBit.1 = -1 from hnth, if_pos rfl, pure_eq_ok]
  · exact hc.create_present hno

theorem two_le_tableSize (hc : Consistent fs w) : 2 ≤ w.dir.tableSize := by
  have := hc.tableSize
  unfold NumDirEntries at this
  omega

theorem exists_add (hc : Consistent fs w) (hno : w.dir.live.lookup name.key = none) :
    ∃ dir', w.dir.add name (w.map.nth 0) = .ok (true, dir') ∧
      dir'.live.Perm ((name.key, w.map.nth 0) :: w.dir.live) ∧ dir'.tableSize = w.dir.nextSize ∧
      ∀ e ∈ dir'.table, IsInt e.sector :=
  Directory.exists_add hc.two_le_tableSize hno hc.dir.isInt (isInt_nth hc.map.numBits)

theorem create_eq (hc : Consistent fs w) (hno : w.dir.live.lookup name.key = none)
    (hfree : 0 < w.map.numClear) {dir' : Directory}
    (hadd : w.dir.add name (w.map.nth 0) = .ok (true, dir')) :
    fs.create name size = (do
      let (allocated, hdr, freeMap) ← FileHeader.zero.allocate (w.map.after 1) size
      if !allocated then return (false, fs)
      else return (true, ← fs.flush freeMap hdr (w.map.nth 0) dir')) := by
  have hfind : w.map.findBit = (w.map.nth 0, w.map.after 1) := rfl
  have hnth : w.map.nth 0 ≠ -1 := by
    rw [ne_eq, BitMap.nth_eq_neg_one_iff]
    omega
  rw [FileSystem.create, hc.fetchDirectory, ok_bind, hc.dir.header, ok_bind,
    if_neg (not_not.mpr (hc.find_eq_neg_one_iff.mpr hno)), hc.fetchFreeMap, ok_bind, hfind]
  dsimp only
  rw [if_neg hnth, hadd, ok_bind]
  rfl

theorem create_refused (hc : Consistent fs w) (h : Refused w.map w.dir name size) :
    fs.create name size = .ok (false, fs) := by
  by_cases hno : w.dir.live.lookup name.key = none
  · replace h := h.resolve_left (not_not.mpr (hc.find_eq_neg_one_iff.mpr hno))
    rcases Nat.eq_zero_or_pos w.map.numClear with hz | hfree
    · exact hc.create_full hz
    · obtain ⟨dir', hadd, -⟩ := hc.exists_add hno
      have hsize : size < 0 ∨ MaxFileSize < size ∨
          (w.map.after 1).numClear < dataSectorsOf size := by
        rw [BitMap.numClear_after]
        omega
      obtain ⟨hdr, halloc⟩ := allocate_eq_false (h := FileHeader.zero) hsize
      rw [hc.create_eq hno hfree hadd, halloc, ok_bind]
      rfl
  · exact hc.create_present hno

theorem create_eq_flush (hc : Consistent fs w) (hno : w.dir.live.lookup name.key = none)
    (h₀ : 0 ≤ size) (h₁ : size ≤ MaxFileSize) (hdata : dataSectorsOf size < w.map.numClear)
    {dir' : Directory} (hadd : w.dir.add name (w.map.nth 0) = .ok (true, dir')) :
    fs.create name size = (do
      return (true, ← fs.flush (w.map.after (1 + totalSectorsOf size))
        (FileHeader.zero.allocated size (w.map.after 1).nth) (w.map.nth 0) dir')) := by
  have halloc := allocate_eq_true (h := FileHeader.zero) (m := w.map.after 1) h₀ h₁
    (by rw [BitMap.numClear_after]; omega)
  rw [hc.create_eq hno (by omega) hadd, halloc, ok_bind, BitMap.after_add]
  rfl

/-! ## The new file -/

theorem map_nth_succ (n : ℕ) :
    (List.range (1 + n)).map m.nth = m.nth 0 :: (List.range n).map (m.after 1).nth := by
  rw [Nat.add_comm, List.range_succ_eq_map, List.map_cons, List.map_map]
  refine congrArg (_ :: ·) (List.map_congr_left fun i _ => ?_)
  rw [BitMap.nth_after, Nat.add_comm]
  rfl

theorem owned_new (hc : Consistent fs w) (h₁ : size ≤ MaxFileSize)
    (hroom : 1 + totalSectorsOf size ≤ w.map.numClear) :
    (w.map.after (1 + totalSectorsOf size)).Owned
      (w.map.nth 0 :: (FileHeader.zero.allocated size (w.map.after 1).nth).sectors ++ w.used) := by
  have htake := hc.owned.take hc.map.numBits hroom
  rwa [map_nth_succ, ← sectors_allocated h₁] at htake

theorem nodup_keys (hc : Consistent fs w) (hno : w.dir.live.lookup name.key = none)
    {dir' : Directory} {s : ℤ} (hperm : dir'.live.Perm ((name.key, s) :: w.dir.live)) :
    (dir'.live.map Prod.fst).Nodup := by
  rw [(hperm.map Prod.fst).nodup_iff, List.map_cons, List.nodup_cons]
  exact ⟨Assoc.lookup_eq_none_iff.mp hno, hc.keys⟩

theorem used_perm {dir' : Directory} {s : ℤ} {hdr : FileHeader} {key : List UInt8}
    (hperm : dir'.live.Perm ((key, s) :: w.dir.live)) (hs : s ∉ w.fileSectors) :
    (s :: hdr.sectors ++ w.used).Perm { w with dir := dir', file := update w.file s hdr }.used := by
  have hold : w.dir.live.flatMap (fun p => p.2 :: (update w.file s hdr p.2).sectors) =
      w.fileSectors := by
    refine List.flatMap_congr fun p hp => ?_
    rw [update_of_ne]
    rintro rfl
    exact hs (Layout.mem_fileSectors hp (.inl rfl))
  have hfiles := hperm.flatMap_right fun p => p.2 :: (update w.file s hdr p.2).sectors
  rw [List.flatMap_cons, update_self, hold] at hfiles
  exact (List.perm_append_comm_assoc _ _ _).trans (hfiles.symm.append_left w.systemSectors)

theorem fetches_new {d : Disk} {dir' : Directory} {s : ℤ} {hdr : FileHeader} {key : List UInt8}
    (hperm : dir'.live.Perm ((key, s) :: w.dir.live)) (hs : s ∉ w.fileSectors) (hold : w.Fetches d)
    (hnew : FileHeader.fetchFrom s d = .ok hdr) :
    Layout.Fetches { w with dir := dir', file := update w.file s hdr } d := by
  intro p hp
  rcases List.mem_cons.mp (hperm.mem_iff.mp hp) with rfl | hmem
  · simpa using hnew
  · have hne : p.2 ≠ s := by
      rintro rfl
      exact hs (Layout.mem_fileSectors hmem (.inl rfl))
    simpa [update_of_ne hne] using hold p hmem

/-- `Create` of a new name, with enough sectors. -/
theorem exists_create (hc : Consistent fs w) (hno : w.dir.live.lookup name.key = none)
    (h₀ : 0 ≤ size) (h₁ : size ≤ MaxFileSize) (hfit : CreateFits w.map w.dir w.dirLen size) :
    ∃ fs' w', fs.create name size = .ok (true, fs') ∧ Consistent fs' w' ∧
      w'.dir.live.Perm ((name.key, w.map.nth 0) :: w.dir.live) ∧ w'.dir.tableSize = w.dir.nextSize ∧
      w'.file = update w.file (w.map.nth 0) (FileHeader.zero.allocated size (w.map.after 1).nth) ∧
      w'.map = w.map.after (1 + totalSectorsOf size + w.dir.growth w.dirLen) ∧
      w'.dirLen = w.dirLen + w.dir.growth w.dirLen ∧
        fs.disk.Frame { z | z ∉ w.fileSectors } fs'.disk := by
  have hbits := hc.map.numBits
  have hsectors := hfit.sectors
  obtain ⟨new, hnew, -⟩ := exists_nth_sector (k := 0) hbits (by omega)
  obtain ⟨dir', hadd, hperm, hsize, hints⟩ := hc.exists_add hno
  have howned := hc.owned_new h₁ (by omega : 1 + totalSectorsOf size ≤ w.map.numClear)
  obtain ⟨hdr, hhdr⟩ : ∃ hdr, hdr = FileHeader.zero.allocated size (w.map.after 1).nth := ⟨_, rfl⟩
  rw [← hhdr] at howned ⊢
  have hdisjoint : ∀ z ∈ w.used, z ∉ { z | z = w.map.nth 0 ∨ z ∈ hdr.sectors } := by
    rintro z hz hz'
    exact (List.nodup_append.mp howned.1).2.2 z (List.mem_cons.mpr hz') z hz rfl
  have hnotMem : w.map.nth 0 ∉ w.fileSectors := fun hm =>
    hdisjoint _ (Layout.fileSectors_subset hm) (.inl rfl)
  -- the free map
  obtain ⟨d₁, hd₁, hc₁, hframe₁⟩ := hc.exists_writeMap hc.map.isFreeMap.after
    (howned.sublist (List.sublist_append_right ..))
  -- the header
  have hmark₀ : (w.map.after 1).test 0 = true := by
    have := hc.owned.2 _ (Layout.systemSectors_subset (List.mem_cons_self ..))
    rw [BitMap.test_after, show w.map.test 0 = true from this.2, Bool.true_or]
  have hmarkNew : (w.map.after 1).test new = true := by
    have := (hc.owned.take hbits (by omega : 1 ≤ w.map.numClear)).2 (w.map.nth 0) (by simp)
    rw [hnew, Int.toNat_natCast] at this
    exact this.2
  have hroom : totalSectorsOf size ≤ (w.map.after 1).numClear := by
    rw [BitMap.numClear_after]
    omega
  have hbits₁ : (w.map.after 1).numBits = NumSectors := by rw [BitMap.numBits_after, hbits]
  have hblocks := hasBlocks_of_room hbits₁ h₀ h₁ hroom hmark₀
  obtain ⟨d₂, hd₂, hfetch, hframe₂⟩ := FileHeader.exists_writeBack (d := d₁) (s := new) hblocks
    fun j hj => indirectSector_ne hroom hmarkNew hj
  rw [← hhdr, ← hnew] at hd₂ hfetch hframe₂
  have hframe₂' := hframe₂.mono FileHeader.headerSectors_subset
  have hc₂ := hc₁.frame hframe₂' hdisjoint
  -- the directory
  have hg : w.dir.growth w.dirLen =
      if Directory.fileSize dir'.tableSize ≤ w.dirLen * SectorSize then 0 else 1 := by
    rw [hsize]
    rfl
  have hT : NumDirEntries ≤ dir'.tableSize :=
    hsize ▸ hc.tableSize.trans Directory.tableSize_le_nextSize
  obtain ⟨dirFile, d₃, w', hd₃, hc₃, hdir, hfile, hmap, hlen, hframe₃⟩ := hc₂.exists_writeGrown hg
    (by rw [BitMap.numClear_after]; omega) (by rw [hsize]; exact hfit.table) hfit.direct hT hints
    (hc.nodup_keys hno hperm) (fetches_new hperm hnotMem hc₂.file hfetch)
    (howned.perm (used_perm hperm hnotMem))
  refine ⟨⟨d₃, fs.freeMapFile, dirFile⟩, w', ?_, hc₃,
    by rw [hdir]; exact hperm, by rw [hdir, hsize], hfile, ?_, hlen, ?_⟩
  · rw [hc.create_eq_flush hno h₀ h₁ ?_ hadd, ← hhdr, FileSystem.flush, hd₁, ok_bind]
    · dsimp only
      rw [hd₂, ok_bind, show dir'.writeBack fs.directoryFile d₂ = _ from hd₃, ok_bind]
      dsimp only
      rw [show FileHeader.fetchFrom DirectorySector d₃ = _ from hc₃.dir.header]
      rfl
    · have : dataSectorsOf size ≤ totalSectorsOf size := dataSectorsOf_le_total
      omega
  · rw [hmap, BitMap.after_add]
  · have hframe₂ : d₁.Frame { z | z ∉ w.fileSectors } d₂ :=
      hframe₂'.mono fun z hz hz' => hdisjoint z (Layout.fileSectors_subset hz') hz
    exact hframe₁.trans (hframe₂.trans hframe₃)

theorem not_refused (hc : Consistent fs w) (h : ¬ Refused w.map w.dir name size) :
    w.dir.live.lookup name.key = none ∧ 0 ≤ size ∧ size ≤ MaxFileSize ∧
      dataSectorsOf size < w.map.numClear := by
  simp only [Refused, not_or, not_not, hc.find_eq_neg_one_iff] at h
  exact ⟨h.1, by omega, by omega, by omega⟩

/-- `Create` is refused, or it makes the file. -/
theorem create_cases (hc : Consistent fs w)
    (h : Refused w.map w.dir name size ∨ CreateFits w.map w.dir w.dirLen size) :
    (Refused w.map w.dir name size ∧ fs.create name size = .ok (false, fs)) ∨
    (¬ Refused w.map w.dir name size ∧ ∃ fs' w', fs.create name size = .ok (true, fs') ∧
      Consistent fs' w' ∧ w'.dir.live.Perm ((name.key, w.map.nth 0) :: w.dir.live)) := by
  by_cases hr : Refused w.map w.dir name size
  · exact .inl ⟨hr, hc.create_refused hr⟩
  · have hfit := h.resolve_left hr
    obtain ⟨hno, h₀, h₁, -⟩ := hc.not_refused hr
    obtain ⟨fs', w', hcreate, hc', hperm, -⟩ := hc.exists_create hno h₀ h₁ hfit
    exact .inr ⟨hr, fs', w', hcreate, hc', hperm⟩

end Consistent

end Nachos.Filesys
