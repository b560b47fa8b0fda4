import Nachos.Filesys.Create
import Nachos.Filesys.Remove

/-! # Runs of requests

A disk is formatted, and calls follow that each return. As long as `Create` has
sectors for all that it writes, and the files that are removed have no blocks,
every sector in use belongs to one file and is marked in the free map on disk.
-/

namespace Nachos.Filesys

open Function Words Outcome Transition FileHeader

inductive Request where
  | create (name : CString) (size : ℤ)
  | remove (name : CString)
  | open_ (name : CString)

namespace FileSystem

/-- The file system after a call that returns. -/
def step (fs : FileSystem) : Request → Option FileSystem
  | .create name size => (fs.create name size).toOption.map Prod.snd
  | .remove name => (fs.remove name).toOption.map Prod.snd
  | .open_ name => (fs.open_ name).toOption.map fun _ => fs

/-- Whatever was on the disk and in memory before. -/
def IsFormatted (fs : FileSystem) : Prop :=
  ∃ mapMem dirMem tableMem d, format mapMem dirMem tableMem d = .ok fs

def system : System FileSystem Request := .ofStep IsFormatted step

end FileSystem

/-- A new file has its sectors and its place in the directory; a file that is removed has its
sectors in the direct entries of its header. -/
def Request.Safe (fs : FileSystem) : Request → Prop
  | .create name size => ∀ m dir, fs.fetchFreeMap = .ok m → fs.fetchDirectory = .ok dir →
      Refused m dir name size ∨ CreateFits m dir fs.directoryFile.hdr.numSectors.toNat size
  | .remove name => ∀ dir h, fs.fetchDirectory = .ok dir →
      FileHeader.fetchFrom (dir.find name) fs.disk = .ok h → h.numSectors ≤ NumDirect
  | .open_ _ => True

def safeSystem : System FileSystem Request := FileSystem.system.guard fun fs r => r.Safe fs

/-! ## Steps -/

namespace Consistent

variable {fs fs' : FileSystem} {w : Layout} {name : CString} {size : ℤ} {r : Request}

theorem safe_create_iff (hc : Consistent fs w) : (Request.create name size).Safe fs ↔
    Refused w.map w.dir name size ∨ CreateFits w.map w.dir w.dirLen size := by
  have hlen : fs.directoryFile.hdr.numSectors.toNat = w.dirLen := by
    rw [hc.dir.direct.numSectors, Int.toNat_natCast]
  constructor
  · intro h
    rw [← hlen]
    exact h _ _ hc.fetchFreeMap hc.fetchDirectory
  · rintro h m dir hm hdir
    cases hc.fetchFreeMap.symm.trans hm
    cases hc.fetchDirectory.symm.trans hdir
    rwa [hlen]

theorem safe_remove {s : ℤ} (hc : Consistent fs w) (h : (Request.remove name).Safe fs)
    (hs : w.dir.live.lookup name.key = some s) : (w.file s).numSectors ≤ NumDirect := by
  refine h _ _ hc.fetchDirectory ?_
  rw [find_eq_of_lookup hs]
  exact hc.fetchFile hs

theorem step (hc : Consistent fs w) (hs : r.Safe fs) (h : fs.step r = some fs') :
    ∃ w', Consistent fs' w' := by
  cases r with
  | create name size =>
    rcases hc.create_cases (hc.safe_create_iff.mp hs) with ⟨-, hcreate⟩ |
        ⟨-, fs₁, w₁, hcreate, hc₁, -⟩
    · rw [FileSystem.step, hcreate] at h
      cases h
      exact ⟨w, hc⟩
    · rw [FileSystem.step, hcreate] at h
      cases h
      exact ⟨w₁, hc₁⟩
  | remove name =>
    cases hl : w.dir.live.lookup name.key with
    | none =>
      rw [FileSystem.step, hc.remove_absent hl] at h
      cases h
      exact ⟨w, hc⟩
    | some s =>
      obtain ⟨fs₁, w₁, hremove, hc₁, -⟩ := hc.exists_remove hl (hc.safe_remove hs hl)
      rw [FileSystem.step, hremove] at h
      cases h
      exact ⟨w₁, hc₁⟩
  | open_ name =>
    obtain ⟨-, -, rfl⟩ := Option.map_eq_some_iff.mp h
    exact ⟨w, hc⟩

end Consistent

theorem FileSystem.IsFormatted.consistent {fs : FileSystem} (h : fs.IsFormatted) :
    ∃ w, Consistent fs w ∧ w.dir.live = [] ∧ w.map.numClear = NumSectors - 4 := by
  obtain ⟨mapMem, dirMem, tableMem, d, hformat⟩ := h
  obtain ⟨fs', w, hformat', hc, hdir, -, hmap⟩ := FileSystem.exists_format mapMem dirMem tableMem d
  cases hformat'.symm.trans hformat
  refine ⟨w, hc, by rw [hdir, FileSystem.live_formatDirectory], ?_⟩
  rw [hmap, BitMap.numClear_after, FileSystem.numClear_formatMap]
  rfl

/-- Runs of safe requests lead to consistent file systems. -/
theorem consistent_of_reachable {fs : FileSystem} (h : Reachable safeSystem fs) :
    ∃ w, Consistent fs w := by
  refine Reachable.invariant (P := fun fs => ∃ w, Consistent fs w) ?_ ?_ h
  · intro fs hi
    obtain ⟨w, hc, -⟩ := FileSystem.IsFormatted.consistent hi
    exact ⟨w, hc⟩
  · rintro fs r fs' ⟨w, hc⟩ ⟨hs, hstep⟩
    exact hc.step hs hstep

/-! ## The first file -/

theorem exists_first (name : CString) (size : ℤ) (h₀ : 0 ≤ size) (h₁ : size ≤ MaxFileSize)
    (hroom : 1 + totalSectorsOf size ≤ 1020) :
    ∃ fs w, ∃ m : BitMap, ∃ s,
      Reachable safeSystem fs ∧ Consistent fs w ∧ w.dir.live = [(name.key, s)] ∧
      w.file s = FileHeader.zero.allocated size m.nth ∧ m.numBits = NumSectors ∧
      totalSectorsOf size ≤ m.numClear ∧ w.dir.tableSize = NumDirEntries ∧ w.dirLen = 1 ∧
        w.map.numClear = 1020 - (1 + totalSectorsOf size) := by
  obtain ⟨fs₀, w₀, hformat, hc₀, hdir, hlen, hmap⟩ :=
    FileSystem.exists_format (fun _ => 0) (fun _ => 0)
    (fun _ => 0) fun _ _ => 0
  have hclear : w₀.map.numClear = 1020 := by
    rw [hmap, BitMap.numClear_after, FileSystem.numClear_formatMap]
  have hlive : w₀.dir.live = [] := by rw [hdir, FileSystem.live_formatDirectory]
  have hnext : w₀.dir.nextSize = NumDirEntries := by
    rw [hdir]
    decide
  have hgrowth : w₀.dir.growth w₀.dirLen = 0 := by
    rw [Directory.growth, hnext, hlen]
    decide
  have hfit : CreateFits w₀.map w₀.dir w₀.dirLen size := by
    refine ⟨by rw [hgrowth, hclear]; exact hroom, ?_, ?_⟩
    · rw [hgrowth, hnext, hlen]
      decide
    · rw [hgrowth, hlen]
      decide
  obtain ⟨fs, w, hcreate, hc, hperm, hsize, hfile, hmap', hlen', -⟩ := hc₀.exists_create
    (show w₀.dir.live.lookup name.key = none by rw [hlive]; rfl) h₀ h₁ hfit
  have hinit : Reachable safeSystem fs₀ := .init ⟨_, _, _, _, hformat⟩
  have hstep : fs₀.step (.create name size) = some fs := by
    rw [FileSystem.step, hcreate]
    rfl
  have hsafe : (Request.create name size).Safe fs₀ := hc₀.safe_create_iff.mpr (.inr hfit)
  refine ⟨fs, w, w₀.map.after 1, w₀.map.nth 0, hinit.step ⟨hsafe, hstep⟩, hc, ?_, ?_, ?_, ?_, ?_,
    ?_, ?_⟩
  · rw [hlive] at hperm
    exact List.perm_singleton.mp hperm
  · rw [hfile, update_self]
  · rw [BitMap.numBits_after, hc₀.map.numBits]
  · rw [BitMap.numClear_after]
    omega
  · rw [hsize, hnext]
  · rw [hlen', hgrowth, hlen]
  · rw [hmap', hgrowth, BitMap.numClear_after, hclear]
    rfl

/-! ## Sectors on disk -/

def Directory.sectors (dir : Directory) (file : ℤ → FileHeader) : List ℤ :=
  (dir.table.filter DirectoryEntry.inUse).flatMap fun e => e.sector :: (file e.sector).sectors

/-- What is on the disk: the sectors in use are different, in range and marked. -/
def Sound (d : Disk) : Prop :=
  ∃ mapHdr dirHdr m dir file, FileHeader.fetchFrom FreeMapSector d = .ok mapHdr ∧
    FileHeader.fetchFrom DirectorySector d = .ok dirHdr ∧
    (BitMap.ofSize NumSectors).fetchFrom ⟨mapHdr, FreeMapSector⟩ d = .ok m ∧
    Directory.fetchFrom NumDirEntries ⟨dirHdr, DirectorySector⟩ d = .ok dir ∧
    (∀ e ∈ dir.table, e.inUse = true → FileHeader.fetchFrom e.sector d = .ok (file e.sector)) ∧
    m.Owned (FreeMapSector :: DirectorySector ::
      (mapHdr.sectors ++ dirHdr.sectors ++ dir.sectors file))

theorem Consistent.sound {fs : FileSystem} {w : Layout} (hc : Consistent fs w) : Sound fs.disk := by
  refine ⟨_, _, _, _, w.file, hc.map.header, hc.dir.header, hc.map.map, hc.dir.table, ?_, ?_⟩
  · intro e he hu
    exact hc.file (e.key, e.sector) (List.mem_map.mpr ⟨e, List.mem_filter.mpr ⟨he, hu⟩, rfl⟩)
  · have hfiles : w.fileSectors = w.dir.sectors w.file := by
      rw [Layout.fileSectors, Directory.live, Directory.liveEntries, List.flatMap_map]
      rfl
    rw [hc.map.sectors, hc.dirSectors, ← hfiles]
    exact hc.owned

/-- Every sector belongs to one file and is marked, after any number of safe requests. -/
theorem sound_of_reachable {fs : FileSystem} (h : Reachable safeSystem fs) : Sound fs.disk := by
  obtain ⟨w, hc⟩ := consistent_of_reachable h
  exact hc.sound

/-- A file that can be opened. -/
theorem sound_of_reachable_first : ∃ fs : FileSystem, Reachable safeSystem fs ∧ Sound fs.disk ∧
    ∃ f, fs.open_ ⟨[97], by decide⟩ = .ok (some f) := by
  obtain ⟨fs, w, m, s, hr, hc, hlive, -⟩ :=
    exists_first ⟨[97], by decide⟩ 256 (by decide) (by decide)
    (by decide)
  refine ⟨fs, hr, sound_of_reachable hr, _, hc.open_present (s := s) ?_⟩
  rw [hlive, Assoc.lookup_cons_self]

/-! ## A file with a block -/

/-- The block of a file of five sectors is released; its data sectors are not, but sector 0 is. -/
theorem deallocate_five {m : BitMap} {seq : ℕ → ℤ} (hm : m.numBits = NumSectors) :
    (FileHeader.zero.allocated 640 seq).deallocate m = (m.clear 0).clearBit (seq 4) := by
  have hnum : (FileHeader.zero.allocated 640 seq).numSectors = 5 := rfl
  have hone : (FileHeader.zero.allocated 640 seq).indirects = 1 := by
    rw [indirects, hnum]
    decide
  have hblock : (FileHeader.zero.allocated 640 seq).indirectPointers ⟨0, by decide⟩ =
      some (foundBlock seq 5 1) := rfl
  have hsector : (FileHeader.zero.allocated 640 seq).indirectSector ⟨0, by decide⟩ = seq 4 := rfl
  have hfreed : (foundBlock seq 5 1).deallocate m = .ok (m.clear 0) := by
    have hzero : getAt (foundBlock seq 5 1).dataSectors 1 = .ok 0 := rfl
    rw [IndirectPointerBlock.deallocate, show (foundBlock seq 5 1).numSectors.toNat = 1 from rfl,
      IndirectPointerBlock.clearTurns, IndirectPointerBlock.clearTurns, ok_bind,
      show (foundBlock seq 5 1).numSectors = 1 from rfl, hzero, ok_bind, BitMap.clearBit,
      if_pos (by rw [hm]; decide)]
    rfl
  rw [deallocate, clearDirect_of_ge (by rw [hnum]; decide), ok_bind, if_pos (by rw [hnum]; decide),
    hone, clearBlocks, clearBlocks, ok_bind, getAt_natCast (by decide), hblock, ok_bind]
  dsimp only
  rw [hfreed, ok_bind, getAt_natCast (by decide), hsector, ok_bind]

/-- Sector 0 is free after a file of five sectors is removed. -/
theorem exists_not_sound : ∃ fs, Reachable FileSystem.system fs ∧ ¬ Sound fs.disk := by
  obtain ⟨name⟩ : Nonempty CString := ⟨⟨[97], by decide⟩⟩
  obtain ⟨fs, w, m, s, hr, hc, hlive, hfile, hbits, hroom, -⟩ := exists_first name 640 (by decide)
    (by decide) (by decide)
  have hlookup : w.dir.live.lookup name.key = some s := by
    rw [hlive, Assoc.lookup_cons_self]
  obtain ⟨a, ha, -⟩ := exists_nth_sector (k := 4) hbits (Nat.lt_of_lt_of_le (by decide) hroom)
  have hdealloc : (w.file s).deallocate w.map = .ok ((w.map.clear 0).clear a) := by
    rw [hfile, deallocate_five hc.map.numBits, ha, BitMap.clearBit, if_pos ?_]
    · rfl
    · have := a.isLt
      rw [BitMap.numBits_clear, hc.map.numBits]
      omega
  obtain ⟨dir, hremove, -, hsize, hints⟩ := Directory.exists_remove hlookup hc.dir.isInt hc.keys
  obtain ⟨d, hd, hmap, -⟩ := hc.exists_remove_of hlookup hremove hsize hints hdealloc
    ((hc.map.isFreeMap.clear (by decide)).clear a.isLt)
  have hstep : fs.step (.remove name) = some { fs with disk := d } := by
    rw [FileSystem.step, hd]
    rfl
  refine ⟨{ fs with disk := d }, hr.of_guard.step hstep, ?_⟩
  · rintro ⟨mapHdr, dirHdr, m', dir', file, hheader, -, hfetch, -, -, howned⟩
    cases hmap.header.symm.trans hheader
    cases hmap.map.symm.trans hfetch
    have hmarked := (howned.2 FreeMapSector (List.mem_cons_self ..)).2
    simp [BitMap.test_clear, FreeMapSector] at hmarked

end Nachos.Filesys
