import Nachos.Filesys.Consistent

/-! # Opening and removing files

`Open` finds the header of a name. `Remove` clears the bits of a file in the
free map that it has read, and writes the map and the directory. What it leaves
on the disk is as it was described if the file had no blocks.
-/

namespace Nachos.Filesys

open Function Words Bytes Outcome FileHeader

namespace Consistent

variable {fs : FileSystem} {w : Layout} {dir : Directory} {name : CString} {s : ℤ} {m : BitMap}

/-! ## Opening -/

theorem open_absent (hc : Consistent fs w) (h : w.dir.live.lookup name.key = none) :
    fs.open_ name = .ok none := by
  rw [FileSystem.open_, hc.fetchDirectory, ok_bind, hc.find_eq_neg_one_iff.mpr h]
  rfl

theorem open_present (hc : Consistent fs w) (h : w.dir.live.lookup name.key = some s) :
    fs.open_ name = .ok (some ⟨w.file s, s⟩) := by
  have hopen : OpenFile.new s fs.disk = .ok ⟨w.file s, s⟩ := by
    rw [OpenFile.new, hc.fetchFile h, ok_bind, pure_eq_ok]
  rw [FileSystem.open_, hc.fetchDirectory, ok_bind, find_eq_of_lookup h]
  dsimp only
  rw [if_pos (hc.lookup_nonneg h), hopen, ok_bind, pure_eq_ok]

/-! ## Removing -/

theorem exists_writeBoth (hc : Consistent fs w) (hm : m.IsFreeMap) (hpos : 0 < dir.tableSize)
    (hroom : Directory.fileSize dir.tableSize ≤ w.dirLen * SectorSize)
    (hints : ∀ e ∈ dir.table, IsInt e.sector) :
    ∃ d₁ d₂, m.writeBack fs.freeMapFile fs.disk = .ok (fs.freeMapFile, d₁) ∧
      dir.writeBack fs.directoryFile d₁ = .ok (fs.directoryFile, d₂) ∧
      MapOnDisk fs.freeMapFile.hdr w.mapSec m d₂ ∧
      DirOnDisk fs.directoryFile.hdr w.dirLen w.dirSec dir d₂ ∧
      fs.disk.Frame { z | z ∉ w.fileSectors } d₂ := by
  obtain ⟨d, ⟨mapHdr, mapSector⟩, ⟨dirHdr, dirSector⟩⟩ := fs
  obtain rfl : mapSector = FreeMapSector := hc.freeMapFile
  obtain rfl : dirSector = DirectorySector := hc.directoryFile
  obtain ⟨hsys, hfiles⟩ := Layout.nodup_used hc.owned.1
  simp only [Layout.systemSectors, List.nodup_cons, List.mem_cons, not_or] at hsys hfiles
  obtain ⟨⟨h₀₁, h₀map, h₀dir⟩, ⟨h₁map, h₁dir⟩, hmapdir, -⟩ := hsys
  have hsec : dirHdr.sectors = w.dirSectors := hc.dirSectors
  obtain ⟨d₁, hd₁, hmap₁, hframe₁⟩ := hc.map.exists_write (Ne.symm h₀map) hm 1
  have hdir₁ : DirOnDisk dirHdr w.dirLen w.dirSec w.dir d₁ := by
    refine hc.dir.frame hframe₁ h₁map fun z hz => ?_
    rw [show dirHdr.sectors = _ from hsec] at hz
    rintro rfl
    exact hmapdir hz
  obtain ⟨d₂, hd₂, hdir₂, hframe₂⟩ := DirOnDisk.exists_write hdir₁.toDirHeader
    (by rwa [hsec]) hpos hroom hints
  rw [hsec] at hframe₂
  have hmap₂ := hmap₁.frame hframe₂ h₀dir hmapdir
  refine ⟨d₁, d₂, hd₁, hd₂, hmap₂, hdir₂, ?_⟩
  have hframe₁' : d.Frame { z | z ∉ w.fileSectors } d₁ :=
    hframe₁.mono fun z hz hz' => (hfiles z hz').2.2.1 hz
  exact hframe₁'.trans (hframe₂.mono fun z hz hz' => (hfiles z hz').2.2.2 hz)

/-- `Remove` of a name that is there, from what `Deallocate` does with the free map. -/
theorem exists_remove_of (hc : Consistent fs w) (h : w.dir.live.lookup name.key = some s)
    (hremove : w.dir.remove name = (true, dir)) (hsize : dir.tableSize = w.dir.tableSize)
    (hints : ∀ e ∈ dir.table, IsInt e.sector) (hdealloc : (w.file s).deallocate w.map = .ok m)
    (hm : m.IsFreeMap) :
    ∃ d, fs.remove name = .ok (true, { fs with disk := d }) ∧
      MapOnDisk fs.freeMapFile.hdr w.mapSec (m.clear s.toNat) d ∧
      DirOnDisk fs.directoryFile.hdr w.dirLen w.dirSec dir d ∧
      fs.disk.Frame { z | z ∉ w.fileSectors } d := by
  have hs : 0 ≤ s ∧ s < NumSectors :=
    (hc.owned.2 s (Layout.fileSectors_subset
      (Layout.mem_fileSectors (Assoc.mem_of_lookup h) (.inl rfl)))).1
  obtain ⟨d₁, d₂, hd₁, hd₂, hmap, hdir, hframe⟩ := hc.exists_writeBoth (m := m.clear s.toNat)
    (hm.clear (by omega)) (by rw [hsize]; exact hc.dir.pos) (by rw [hsize]; exact hc.dir.room) hints
  have hclear : m.clearBit s = .ok (m.clear s.toNat) := by
    rw [BitMap.clearBit, if_pos (by rw [hm.1]; exact hs)]
  refine ⟨d₂, ?_, hmap, hdir, hframe⟩
  rw [FileSystem.remove, hc.fetchDirectory, ok_bind]
  dsimp only
  rw [find_eq_of_lookup h, if_neg (by omega), hc.fetchFile h, ok_bind, hc.fetchFreeMap, ok_bind,
    hdealloc, ok_bind, hclear, ok_bind, hremove]
  dsimp only
  rw [hd₁, ok_bind]
  dsimp only
  rw [hd₂]
  rfl

theorem remove_absent (hc : Consistent fs w) (h : w.dir.live.lookup name.key = none) :
    fs.remove name = .ok (false, fs) := by
  rw [FileSystem.remove, hc.fetchDirectory, ok_bind]
  dsimp only
  rw [if_pos (hc.find_eq_neg_one_iff.mpr h), pure_eq_ok]

theorem used_perm_remove {dir' : Directory} {key : List UInt8}
    (hperm : w.dir.live.Perm ((key, s) :: dir'.live)) :
    w.used.Perm ((w.file s).sectors ++ s :: Layout.used { w with dir := dir' }) := by
  have hfiles := hperm.flatMap_right fun p => p.2 :: (w.file p.2).sectors
  rw [List.flatMap_cons] at hfiles
  refine (hfiles.append_left w.systemSectors).trans ?_
  refine (List.perm_append_comm_assoc _ _ _).trans ?_
  exact List.perm_middle.symm

theorem exists_remove (hc : Consistent fs w) (h : w.dir.live.lookup name.key = some s)
    (hdirect : (w.file s).numSectors ≤ NumDirect) :
    ∃ fs' w', fs.remove name = .ok (true, fs') ∧ Consistent fs' w' ∧
      w.dir.live.Perm ((name.key, s) :: w'.dir.live) ∧
        fs.disk.Frame { z | z ∉ w.fileSectors } fs'.disk ∧
        w'.map.numClear = w.map.numClear + 1 +
          if (w.file s).numSectors < NumDirect then (w.file s).sectors.length else 0 := by
  obtain ⟨dir', hremove, hperm, hsize, hints⟩ := Directory.exists_remove h hc.dir.isInt hc.keys
  obtain ⟨m, hdealloc, hm, howned, hclear⟩ := exists_deallocate hdirect hc.map.isFreeMap
    (hc.owned.perm (used_perm_remove hperm))
  obtain ⟨d, hd, hmap, hdir, hframe⟩ := hc.exists_remove_of h hremove hsize hints hdealloc hm
  have hsub : Layout.fileSectors { w with dir := dir' } ⊆ w.fileSectors := by
    intro z hz
    obtain ⟨p, hp, hz⟩ := List.mem_flatMap.mp hz
    exact Layout.mem_fileSectors (hperm.mem_iff.mpr (List.mem_cons_of_mem _ hp))
      (List.mem_cons.mp hz)
  refine ⟨{ fs with disk := d }, { w with map := m.clear s.toNat, dir := dir' }, hd,
    ⟨hc.freeMapFile, hc.directoryFile, hmap, hdir, hsize ▸ hc.tableSize, ?_, ?_, howned.clear⟩,
    hperm, hframe, ?_⟩
  · have hold : Layout.Fetches { w with dir := dir' } fs.disk := fun p hp =>
      hc.file p (hperm.mem_iff.mpr (List.mem_cons_of_mem _ hp))
    exact hold.frame hframe fun z hz hz' => hz' (hsub hz)
  · have hnodup := (hperm.map Prod.fst).nodup_iff.mp hc.keys
    exact (List.nodup_cons.mp hnodup).2
  · obtain ⟨hs, hmark⟩ := howned.2 s (List.mem_cons_self ..)
    have hbits : s.toNat < m.numBits := by
      rw [hm.1]
      omega
    change (m.clear s.toNat).numClear = _
    rw [BitMap.numClear_clear hbits hmark, hclear, Nat.add_right_comm]

end Consistent

end Nachos.Filesys
