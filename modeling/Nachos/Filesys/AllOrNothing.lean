import Nachos.Filesys.Requests
import Nachos.Filesys.WriteFaults

/-! # Creating all or nothing

`Create` makes the file and leaves the others, or it leaves the disk. It checks
the sectors for the header and the data; those for the blocks and for the file of
the directory are not checked. With too few of them it goes wrong on some of the
disks with the same files, since what is behind the end of the directory in its
header was never set.
-/

namespace Nachos.Filesys

open Function Words Bytes Outcome Transition FileHeader

/-- The new file is found, with its length and with sectors that were clear, and the files from
before are the same. -/
structure Created (fs fs' : FileSystem) (name : CString) (size : ℤ) : Prop where
  new : ∃ m f, fs.fetchFreeMap = .ok m ∧ fs'.open_ name = .ok (some f) ∧ f.hdr.numBytes = size ∧
    ∀ z ∈ f.hdrSector :: f.hdr.sectors, (0 ≤ z ∧ z < NumSectors) ∧ m.test z.toNat = false
  others : ∀ other f, fs.open_ other = .ok (some f) → fs'.open_ other = .ok (some f) ∧
    ∀ y : Fin NumSectors, ((y : ℕ) : ℤ) ∈ f.hdrSector :: f.hdr.sectors → fs'.disk y = fs.disk y

/-- `Create` returns: with `TRUE` and the file, or with `FALSE` and the same disk. -/
def AllOrNothing (fs : FileSystem) (name : CString) (size : ℤ) : Prop :=
  ∃ success fs', fs.create name size = .ok (success, fs') ∧
    (success = true → Created fs fs' name size) ∧
    (success = false → fs'.disk = fs.disk)

namespace Consistent

variable {fs fs' : FileSystem} {w : Layout} {name : CString} {size : ℤ}

theorem open_eq_some (hc : Consistent fs w) {f : OpenFile} (h : fs.open_ name = .ok (some f)) :
    w.dir.live.lookup name.key = some f.hdrSector ∧ f.hdr = w.file f.hdrSector := by
  cases hl : w.dir.live.lookup name.key with
  | none =>
    rw [hc.open_absent hl] at h
    cases h
  | some s =>
    rw [hc.open_present hl] at h
    cases h
    exact ⟨rfl, rfl⟩

/-! ## Enough sectors -/

theorem exists_created (hc : Consistent fs w) (hno : w.dir.live.lookup name.key = none)
    (h₀ : 0 ≤ size) (h₁ : size ≤ MaxFileSize) (hfit : CreateFits w.map w.dir w.dirLen size) :
    ∃ fs', fs.create name size = .ok (true, fs') ∧ Created fs fs' name size := by
  obtain ⟨fs', w', hcreate, hc', hperm, -, hfile, -, -, hframe⟩ := hc.exists_create hno h₀ h₁ hfit
  have hsectors := hfit.sectors
  have hlookup : ∀ key, w'.dir.live.lookup key =
      ((name.key, w.map.nth 0) :: w.dir.live).lookup key :=
    fun key => Assoc.lookup_perm hperm hc'.keys
  refine ⟨fs', hcreate, ⟨⟨w.map, ⟨w'.file (w.map.nth 0), w.map.nth 0⟩, hc.fetchFreeMap, ?_, ?_, ?_⟩,
    ?_⟩⟩
  · refine hc'.open_present ?_
    rw [hlookup, Assoc.lookup_cons_self]
  · rw [hfile, update_self]
    rfl
  · intro z hz
    rw [hfile, update_self, sectors_allocated h₁, ← map_nth_succ] at hz
    obtain ⟨i, hi, rfl⟩ := List.mem_map.mp hz
    obtain ⟨y, hy, htest⟩ := exists_nth_sector (k := i) hc.map.numBits
      (by rw [List.mem_range] at hi; omega)
    have := y.isLt
    rw [hy, Int.toNat_natCast]
    exact ⟨by omega, htest⟩
  · intro other f hf
    obtain ⟨hl, hhdr⟩ := hc.open_eq_some hf
    have hmem := Assoc.mem_of_lookup hl
    have hne : f.hdrSector ≠ w.map.nth 0 := by
      intro he
      refine hc.owned.nth_notMem (by omega : 0 < w.map.numClear) (Layout.fileSectors_subset ?_)
      rw [← he]
      exact Layout.mem_fileSectors hmem (.inl rfl)
    have hkey : other.key ≠ name.key := by
      intro he
      rw [he, hno] at hl
      cases hl
    constructor
    · rw [hc'.open_present (s := f.hdrSector) (by rw [hlookup, Assoc.lookup_cons_of_ne hkey, hl]),
        hfile, update_of_ne hne, ← hhdr]
    · intro y hy
      refine hframe y (not_not.mpr ?_)
      rw [hhdr] at hy
      exact Layout.mem_fileSectors hmem (List.mem_cons.mp hy)

theorem allOrNothing (hc : Consistent fs w)
    (h : Refused w.map w.dir name size ∨ CreateFits w.map w.dir w.dirLen size) :
    AllOrNothing fs name size := by
  by_cases hr : Refused w.map w.dir name size
  · exact ⟨false, fs, hc.create_refused hr, by simp, fun _ => rfl⟩
  · obtain ⟨hno, h₀, h₁, -⟩ := hc.not_refused hr
    obtain ⟨fs', hcreate, hcreated⟩ := hc.exists_created hno h₀ h₁ (h.resolve_left hr)
    exact ⟨true, fs', hcreate, fun _ => hcreated, by simp⟩

/-! ## Too few sectors -/

theorem created_of_allOrNothing (hc : Consistent fs w) (hr : ¬ Refused w.map w.dir name size)
    {dir' : Directory} (hadd : w.dir.add name (w.map.nth 0) = .ok (true, dir'))
    (h : AllOrNothing fs name size) :
    ∃ fs', fs.flush (w.map.after (1 + totalSectorsOf size))
      (FileHeader.zero.allocated size (w.map.after 1).nth) (w.map.nth 0) dir' = .ok fs' ∧
      Created fs fs' name size := by
  obtain ⟨hno, h₀, h₁, hdata⟩ := hc.not_refused hr
  obtain ⟨success, fs', hcreate, hcreated, -⟩ := h
  rw [hc.create_eq_flush hno h₀ h₁ hdata hadd, bind_eq_ok] at hcreate
  obtain ⟨fs₁, hflush, hfs⟩ := hcreate
  cases hfs
  exact ⟨fs', hflush, hcreated rfl⟩

theorem open_of_flush (hc : Consistent fs w) (hr : ¬ Refused w.map w.dir name size)
    {dir' : Directory} (hperm : dir'.live.Perm ((name.key, w.map.nth 0) :: w.dir.live))
    (hsize : dir'.tableSize = w.dir.nextSize) (hints : ∀ e ∈ dir'.table, IsInt e.sector)
    (hfits : Directory.fileSize w.dir.nextSize ≤ w.dirLen * SectorSize)
    (hflush : fs.flush (w.map.after (1 + totalSectorsOf size))
      (FileHeader.zero.allocated size (w.map.after 1).nth) (w.map.nth 0) dir' = .ok fs') :
    fs'.open_ name = .ok (some
      ⟨FileHeader.zero.allocated size (w.map.after 1).nth, w.map.nth 0⟩) := by
  obtain ⟨hno, h₀, h₁, hdata⟩ := hc.not_refused hr
  obtain ⟨d, hc₁, hfetch, hnotMem, hwrite, -⟩ := hc.flush_eq_ok h₀ h₁ (by omega) hflush
  obtain ⟨hdr, hhdr⟩ : ∃ hdr, hdr = FileHeader.zero.allocated size (w.map.after 1).nth := ⟨_, rfl⟩
  rw [← hhdr] at hfetch hnotMem ⊢
  have hsys := (Layout.nodup_used hc.owned.1).1
  simp only [Layout.systemSectors, List.nodup_cons, List.mem_cons, not_or] at hsys
  have hpos : 0 < dir'.tableSize := by
    rw [hsize]
    exact Nat.lt_of_lt_of_le hc.dir.pos Directory.tableSize_le_nextSize
  obtain ⟨d', hd', hdir', hframe⟩ := DirOnDisk.exists_write hc₁.dir.toDirHeader
    (by rw [hc₁.dirSectors]; exact hsys.2.1.2) hpos (by rw [hsize]; exact hfits) hints
  rw [hc₁.dirSectors] at hframe
  rw [hc₁.directoryFile_eq] at hwrite
  obtain ⟨hfile, hdisk⟩ := Prod.mk.inj (Except.ok.inj (hd'.symm.trans hwrite))
  have hdirectory : fs'.fetchDirectory = .ok dir' := by
    rw [FileSystem.fetchDirectory, ← hfile, ← hdisk]
    exact hdir'.table
  have hlookup : dir'.live.lookup name.key = some (w.map.nth 0) := by
    rw [Assoc.lookup_perm hperm (hc.nodup_keys hno hperm), Assoc.lookup_cons_self]
  have hopen : FileHeader.fetchFrom (w.map.nth 0) fs'.disk = .ok hdr := by
    rw [← hdisk]
    refine FileHeader.fetchFrom_frame hfetch hframe fun z hz hz' => hnotMem z hz ?_
    exact Layout.systemSectors_subset
      (by simp [Layout.systemSectors, show z ∈ w.dirSectors from hz'])
  obtain ⟨y, hy, -⟩ := exists_nth_sector (k := 0) hc.map.numBits (by omega)
  rw [FileSystem.open_, hdirectory, ok_bind, Directory.find_eq, hlookup, Option.getD_some]
  dsimp only
  rw [if_pos (by rw [hy]; exact Int.natCast_nonneg _), OpenFile.new, hopen]
  rfl

theorem room_of_allOrNothing (hc : Consistent fs w) (hr : ¬ Refused w.map w.dir name size)
    (hfits : Directory.fileSize w.dir.nextSize ≤ w.dirLen * SectorSize)
    (h : AllOrNothing fs name size) :
    1 + totalSectorsOf size ≤ w.map.numClear := by
  obtain ⟨hno, h₀, h₁, hdata⟩ := hc.not_refused hr
  obtain ⟨dir', hadd, hperm, hsize, hints⟩ := hc.exists_add hno
  obtain ⟨fs', hflush, hcreated⟩ := hc.created_of_allOrNothing hr hadd h
  obtain ⟨m, f, -, hopen, -, hsectors⟩ := hcreated.new
  cases (hc.open_of_flush hr hperm hsize hints hfits hflush).symm.trans hopen
  by_contra hlt
  -- `Find` has returned -1 in the end
  have hlast : (w.map.after 1).nth (totalSectorsOf size - 1) = -1 := by
    rw [BitMap.nth_eq_neg_one_iff, BitMap.numClear_after]
    omega
  have hmem : -1 ∈ (FileHeader.zero.allocated size (w.map.after 1).nth).sectors := by
    rw [sectors_allocated h₁, ← hlast]
    exact List.mem_map.mpr ⟨_, List.mem_range.mpr (by omega), rfl⟩
  have := (hsectors (-1) (List.mem_cons_of_mem _ hmem)).1
  omega

theorem fits_of_allOrNothing (hc : Consistent fs w) (hspare : fs.directoryFile.hdr.NoSpare w.dirLen)
    (hr : ¬ Refused w.map w.dir name size) (h : AllOrNothing fs name size) :
    CreateFits w.map w.dir w.dirLen size := by
  by_cases hfits : Directory.fileSize w.dir.nextSize ≤ w.dirLen * SectorSize
  · have hgrowth : w.dir.growth w.dirLen = 0 := if_pos hfits
    refine ⟨?_, ?_, ?_⟩
    · rw [hgrowth]
      exact hc.room_of_allOrNothing hr hfits h
    · rwa [hgrowth]
    · rw [hgrowth]
      exact hc.dir.direct.le
  · have hgrowth : w.dir.growth w.dirLen = 1 := if_neg hfits
    obtain ⟨hno, h₀, h₁, hdata⟩ := hc.not_refused hr
    obtain ⟨dir', hadd, -, hsize, -⟩ := hc.exists_add hno
    obtain ⟨fs', hflush, -⟩ := hc.created_of_allOrNothing hr hadd h
    obtain ⟨d, hc₁, -, -, hwrite, -⟩ := hc.flush_eq_ok h₀ h₁ (by omega) hflush
    obtain ⟨hmap, hsec₀, hsec⟩ := hc₁.map_notMem
    rw [hc₁.directoryFile_eq] at hwrite
    obtain ⟨hfree, htable, hdirect⟩ :=
      hc₁.dir.toDirHeader.writeBack_grows hc₁.map hmap hsec₀ hsec hspare
      (by rw [hsize]; exact Nat.not_le.mp hfits) hwrite
    rw [BitMap.numClear_after] at hfree
    refine ⟨by omega, ?_, ?_⟩
    · rw [hgrowth, ← hsize]
      exact htable
    · rw [hgrowth]
      exact hdirect

theorem exists_noSpare (hc : Consistent fs w) :
    ∃ fs', Consistent fs' w ∧ fs'.directoryFile.hdr.NoSpare w.dirLen := by
  obtain ⟨hdr, hhdr⟩ : ∃ hdr : FileHeader, hdr = { fs.directoryFile.hdr with
      dataSectors := fun i => if (i : ℕ) < w.dirLen then fs.directoryFile.hdr.dataSectors i else -1
      indirectSector := fun _ => -1 } := ⟨_, rfl⟩
  have hold := hc.dir.direct
  have hdirect : hdr.IsDirect w.dirLen w.dirSec := by
    obtain ⟨hbytes, hnum, hdata, -⟩ := isStored_iff.mp hold.stored
    have hneg : IsInt (-1) := by decide
    subst hhdr
    refine ⟨hold.numSectors, hold.le, hold.length, fun i hi => ?_, hold.distinct,
      isStored_iff.mpr ⟨hbytes, hnum, fun i => ?_, fun _ => hneg⟩, hold.unset⟩
    · rw [← hold.sector i hi]
      exact if_pos hi
    · dsimp only
      split
      · exact hdata i
      · exact hneg
  obtain ⟨hsys, hfiles⟩ := Layout.nodup_used hc.owned.1
  simp only [Layout.systemSectors, List.nodup_cons, List.mem_cons, not_or] at hsys hfiles
  obtain ⟨⟨h₀₁, -, -⟩, ⟨h₁map, h₁dir⟩, -, -⟩ := hsys
  obtain ⟨d, -, hfetch, hframe⟩ := hdirect.exists_writeBack ⟨1, by decide⟩ fs.disk
  have hframe' : fs.disk.Frame {DirectorySector} d := hframe
  have himg : ∀ v < w.dirLen * SectorSize, image w.dirSec d v = image w.dirSec fs.disk v :=
    fun v hv =>
    image_frame hv hframe' fun i hi he => h₁dir (by
      rw [← show _ = DirectorySector from he]
      exact List.mem_map.mpr ⟨i, List.mem_range.mpr hi, rfl⟩)
  refine ⟨⟨d, fs.freeMapFile, ⟨hdr, DirectorySector⟩⟩,
    ⟨hc.freeMapFile, rfl, ?_, ?_, hc.tableSize, ?_, hc.keys, hc.owned⟩, ?_⟩
  · exact hc.map.frame hframe' h₀₁ (Ne.symm h₁map)
  · refine hc.dir.of_header ⟨hdirect, ?_, hfetch⟩ himg
    rw [hhdr]
    exact hc.dir.start
  · exact hc.file.frame hframe' fun z hz => (hfiles z hz).2.1
  · subst hhdr
    exact ⟨fun i hi => if_neg (by omega), fun _ => rfl⟩

end Consistent

/-- For the disks with these files `Create` is all or nothing exactly when it is refused or
everything fits. -/
theorem allOrNothing_iff {w : Layout} (hw : ∃ fs, Consistent fs w) (name : CString) (size : ℤ) :
    (∀ fs, Consistent fs w → AllOrNothing fs name size) ↔
      Refused w.map w.dir name size ∨ CreateFits w.map w.dir w.dirLen size := by
  constructor
  · intro h
    obtain ⟨fs, hc⟩ := hw
    obtain ⟨fs', hc', hspare⟩ := hc.exists_noSpare
    by_cases hr : Refused w.map w.dir name size
    · exact .inl hr
    · exact .inr (hc'.fits_of_allOrNothing hspare hr (h fs' hc'))
  · exact fun h fs hc => hc.allOrNothing h

theorem exists_second (size₁ size₂ : ℤ) (h₀ : 0 ≤ size₁) (h₁ : size₁ ≤ MaxFileSize)
    (hroom : 1 + totalSectorsOf size₁ ≤ 1020) (h₀' : 0 ≤ size₂) (h₁' : size₂ ≤ MaxFileSize)
    (hdata : dataSectorsOf size₂ < 1020 - (1 + totalSectorsOf size₁)) :
    ∃ fs w name, Reachable safeSystem fs ∧ Consistent fs w ∧ ¬ Refused w.map w.dir name size₂ ∧
      Directory.fileSize w.dir.nextSize ≤ w.dirLen * SectorSize ∧
      w.map.numClear = 1020 - (1 + totalSectorsOf size₁) := by
  obtain ⟨name, name', hne⟩ : ∃ name name' : CString, name'.key ≠ name.key :=
    ⟨⟨[97], by decide⟩, ⟨[98], by decide⟩, by decide⟩
  obtain ⟨fs, w, m, s, hr, hc, hlive, -, -, -, hsize, hlen, hclear⟩ :=
    exists_first name size₁ h₀ h₁ hroom
  have hno : w.dir.find name' = -1 := by
    rw [hc.find_eq_neg_one_iff, hlive, Assoc.lookup_cons_of_ne hne]
    rfl
  have hnext : w.dir.nextSize = NumDirEntries := by
    rw [Directory.nextSize, if_neg, hsize]
    rw [Directory.isFull_iff, hlive, hsize, List.length_singleton]
    decide
  refine ⟨fs, w, name', hr, hc, ?_, ?_, hclear⟩
  · simp only [Refused, hno, hclear]
    omega
  · rw [hnext, hlen]
    decide

/-- A file of two sectors. -/
theorem allOrNothing_iff_second : ∃ fs w name, Consistent fs w ∧ ¬ Refused w.map w.dir name 256 ∧
    ∀ fs', Consistent fs' w → AllOrNothing fs' name 256 := by
  obtain ⟨fs, w, name, -, hc, hr, hfits, hclear⟩ := exists_second 256 256 (by decide) (by decide)
    (by decide) (by decide) (by decide) (by decide)
  have hgrowth : w.dir.growth w.dirLen = 0 := if_pos hfits
  refine ⟨fs, w, name, hc, hr, (allOrNothing_iff ⟨fs, hc⟩ name 256).mpr (.inr ⟨?_, ?_, ?_⟩)⟩
  · rw [hgrowth, hclear]
    decide
  · rwa [hgrowth]
  · rw [hgrowth]
    exact hc.dir.direct.le

/-- The largest file leaves 183 sectors. A file of 182 data sectors has no sectors for its
blocks. -/
theorem exists_not_allOrNothing : ∃ fs w name, Reachable FileSystem.system fs ∧ Consistent fs w ∧
    ¬ AllOrNothing fs name 23296 := by
  obtain ⟨fs, w, name, hr, hc, href, hfits, hclear⟩ := exists_second 103680 23296 (by decide)
    (by decide) (by decide) (by decide) (by decide) (by decide)
  refine ⟨fs, w, name, hr.of_guard, hc, fun h => ?_⟩
  have := hc.room_of_allOrNothing href hfits h
  rw [hclear] at this
  revert this
  decide

end Nachos.Filesys
