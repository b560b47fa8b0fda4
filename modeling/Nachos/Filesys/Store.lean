import Mathlib.Data.List.GetD
import Nachos.Filesys.Requests
import Nachos.Filesys.WriteFrame

/-! # The file system as a map

A program creates and removes files by name, and opens a file to read or to
write a range of it. From the outside the disk is a map from the names to byte
strings: each call answers as the map does, no call changes another file, and
the map is still there when the file system is started again from the disk.
-/

namespace Nachos.Filesys

open Function Words Bytes Outcome Transition FileHeader

/-! ## Calls -/

inductive Call where
  | create (name : CString) (size : ℤ)
  | remove (name : CString)
  /-- Open the file, write the bytes at a position, and close it. -/
  | write (name : CString) (position : ℕ) (bytes : List UInt8)
  /-- Open the file, read from a position, and close it. -/
  | read (name : CString) (position numBytes : ℕ)
  /-- Start the file system from the disk. -/
  | mount

inductive Answer where
  | done (ok : Bool)
  | wrote (numBytes : Option ℕ)
  | bytes (read : Option (List UInt8))
  deriving DecidableEq

namespace FileSystem

/-- `FileSystem::FileSystem(FALSE)`. -/
def mount (fs : FileSystem) : Except Fault FileSystem := do
  let freeMapFile ← OpenFile.new FreeMapSector fs.disk
  let directoryFile ← OpenFile.new DirectorySector fs.disk
  return ⟨fs.disk, freeMapFile, directoryFile⟩

/-- `Open` and `WriteAt`; the file is closed again. -/
def writeFile (name : CString) (position : ℕ) (bytes : List UInt8) (fs : FileSystem) :
    Except Fault (Option ℕ × FileSystem) := do
  match ← fs.open_ name with
  | none => return (none, fs)
  | some f =>
    let (n, _, d) ← f.writeAtCount (fun i => bytes.getD i 0) bytes.length position fs.disk
    return (some n, { fs with disk := d })

/-- `Open` and `ReadAt`. -/
def readFile (name : CString) (position numBytes : ℕ) (fs : FileSystem) :
    Except Fault (Option (List UInt8)) := do
  match ← fs.open_ name with
  | none => return none
  | some f =>
    let (n, into) ← f.readAt (fun _ => 0) numBytes position fs.disk
    return some ((List.range n).map into)

def call (fs : FileSystem) : Call → Except Fault (Answer × FileSystem)
  | .create name size => do
    let (ok, fs) ← fs.create name size
    return (.done ok, fs)
  | .remove name => do
    let (ok, fs) ← fs.remove name
    return (.done ok, fs)
  | .write name position bytes => do
    let (n, fs) ← fs.writeFile name position bytes
    return (.wrote n, fs)
  | .read name position numBytes => do
    let bytes ← fs.readFile name position numBytes
    return (.bytes bytes, fs)
  | .mount => do
    let fs ← fs.mount
    return (.done true, fs)

end FileSystem

/-- The calls for which the routines are right. A new file has sectors for all that is written,
and one block at most that is not full; a file that is removed has no blocks; a write fits, and a
read does not cross the end of the file. -/
def Call.Safe (fs : FileSystem) : Call → Prop
  | .create name size => (Request.create name size).Safe fs ∧
      dataSectorsOf size < NumDirect + MaxIndirectPointers
  | .remove name => (Request.remove name).Safe fs
  | .write name position bytes => ∀ f m, fs.open_ name = .ok (some f) → fs.fetchFreeMap = .ok m →
      0 < bytes.length ∧ Fits f f.hdr.numBytes.toNat position bytes.length fs.disk ∧
      totalSectorsOf (position + bytes.length : ℕ) ≤ totalSectorsOf f.hdr.numBytes + m.numClear
  | .read name position numBytes => ∀ f, fs.open_ name = .ok (some f) →
      numBytes = 0 ∨ f.hdr.numBytes ≤ position ∨ position + numBytes ≤ f.hdr.numBytes
  | .mount => True

/-- The contents of the files by name, and the number of free sectors. -/
structure Files where
  bytes : List UInt8 → Option (List UInt8)
  free : ℕ

def splice (old : List UInt8) (position : ℕ) (bytes : List UInt8) : List UInt8 :=
  old.take position ++ List.replicate (position - old.length) 0 ++ bytes ++
    old.drop (position + bytes.length)

/-- What the calls do with the map. `Create` is refused for a name that is there, for a size out of
range, and when the header and the data do not fit; the directory may take a sector for the new
name. The sectors of a file of four sectors are lost when it is removed. -/
inductive Files.Step (M : Files) : Call × Answer → Files → Prop
  | created {name : CString} {size : ℤ} {bytes : List UInt8} {grown : ℕ} :
    M.bytes name.key = none → (bytes.length : ℤ) = size → grown ≤ 1 →
    1 + totalSectorsOf size + grown ≤ M.free →
    Step M (.create name size, .done true)
      ⟨update M.bytes name.key (some bytes), M.free - (1 + totalSectorsOf size + grown)⟩
  | refused {name : CString} {size : ℤ} :
    M.bytes name.key ≠ none ∨ size < 0 ∨ MaxFileSize < size ∨ M.free ≤ dataSectorsOf size →
    Step M (.create name size, .done false) M
  | removed {name : CString} {bytes : List UInt8} : M.bytes name.key = some bytes →
    Step M (.remove name, .done true) ⟨update M.bytes name.key none, M.free + 1 +
      if dataSectorsOf bytes.length < NumDirect then dataSectorsOf bytes.length else 0⟩
  | notRemoved {name : CString} : M.bytes name.key = none → Step M (.remove name, .done false) M
  | wrote {name : CString} {position : ℕ} {bytes old : List UInt8} : M.bytes name.key = some old →
    Step M (.write name position bytes, .wrote (some bytes.length))
      ⟨update M.bytes name.key (some (splice old position bytes)), M.free -
        (totalSectorsOf (max old.length (position + bytes.length) : ℕ) -
          totalSectorsOf old.length)⟩
  | notWritten {name : CString} {position : ℕ} {bytes : List UInt8} : M.bytes name.key = none →
    Step M (.write name position bytes, .wrote none) M
  | read {name : CString} {position numBytes : ℕ} {bytes : List UInt8} :
    M.bytes name.key = some bytes →
    Step M (.read name position numBytes, .bytes (some ((bytes.drop position).take numBytes))) M
  | notRead {name : CString} {position numBytes : ℕ} : M.bytes name.key = none →
    Step M (.read name position numBytes, .bytes none) M
  | mount : Step M (.mount, .done true) M

/-- No files; four sectors have the free map, the directory and their headers. -/
def Files.empty : Files := ⟨fun _ => none, NumSectors - 4⟩

def Files.system : System Files (Call × Answer) where
  Init M := M = .empty
  Step := Files.Step

/-! ## What is on the disk -/

variable {fs fs' : FileSystem} {w w' : Layout} {name : CString} {d d' : Disk} {s : ℤ}
  {bytes : List UInt8} {key : List UInt8} {h : FileHeader} {M : Files} {f : OpenFile}

/-- A header as `Allocate` fills it, whose file holds these bytes. -/
structure Contains (d : Disk) (h : FileHeader) (s : ℤ) (bytes : List UInt8) : Prop where
  header : ∃ sec : ℕ → Fin NumSectors, h = zero.allocated bytes.length fun j => (sec j : ℕ)
  short : dataSectorsOf bytes.length < NumDirect + MaxIndirectPointers
  holds : OpenFile.Holds ⟨h, s⟩ bytes.length (fun i => bytes.getD i 0) d

structure Represents (fs : FileSystem) (w : Layout) (M : Files) : Prop where
  consistent : Consistent fs w
  absent : ∀ key, w.dir.live.lookup key = none → M.bytes key = none
  present : ∀ key s, w.dir.live.lookup key = some s →
    ∃ bytes, M.bytes key = some bytes ∧ Contains fs.disk (w.file s) s bytes
  free : w.map.numClear = M.free

namespace FileHeader

theorem allocated_congr {size : ℤ} {seq seq' : ℕ → ℤ}
    (h : ∀ j < totalSectorsOf size, seq j = seq' j) :
    zero.allocated size seq = zero.allocated size seq' := by
  have hdata : ∀ j : Fin NumDirect, (j : ℕ) < numEntries (dataSectorsOf size) →
      (j : ℕ) < totalSectorsOf size := by
    intro j hj
    have htotal : dataSectorsOf size ≤ totalSectorsOf size := dataSectorsOf_le_total
    have hlt := j.isLt
    unfold numEntries divRoundUp PointersPerIndirect NumDirect at hj
    unfold NumDirect at hlt
    split at hj <;> omega
  have htaken : ∀ j : Fin NumInDirect, NumDirect + j < numEntries (dataSectorsOf size) →
      takenBefore (dataSectorsOf size) (NumDirect + j) +
        (dataBefore (dataSectorsOf size) (NumDirect + j + 1) -
          dataBefore (dataSectorsOf size) (NumDirect + j)) < totalSectorsOf size := by
    intro j hj
    unfold numEntries divRoundUp PointersPerIndirect NumDirect at hj
    unfold totalSectorsOf takenBefore dataBefore divRoundUp PointersPerIndirect NumDirect
      MaxIndirectPointers
    split at hj <;> split <;> omega
  unfold allocated filled
  congr 1
  · funext j
    split
    case isTrue hj => exact h _ (hdata j hj)
    case isFalse => rfl
  · funext j
    split
    case isTrue hj => exact h _ (by have := htaken j hj; omega)
    case isFalse => rfl
  · funext j
    split
    case isTrue hj =>
      unfold foundBlock
      congr 2
      funext i
      split
      case isTrue hi => exact h _ (by have := htaken j hj; omega)
      case isFalse => rfl
    case isFalse => rfl

end FileHeader

namespace Contains

theorem length_le (hc : Contains d h s bytes) : bytes.length ≤ MaxFileSize := by
  have hlt := hc.short
  have hle := le_mul_dataSectorsOf (L := bytes.length)
  unfold MaxFileSize NumDirect NumInDirect MaxIndirectPointers SectorSize at *
  omega

theorem numBytes (hc : Contains d h s bytes) : h.numBytes = bytes.length := by
  obtain ⟨sec, rfl⟩ := hc.header
  rfl

theorem numSectors (hc : Contains d h s bytes) : h.numSectors = dataSectorsOf bytes.length := by
  obtain ⟨sec, rfl⟩ := hc.header
  rfl

theorem length_sectors (hc : Contains d h s bytes) :
    h.sectors.length = totalSectorsOf bytes.length := by
  obtain ⟨sec, hsec⟩ := hc.header
  rw [hsec, sectors_allocated (by exact_mod_cast hc.length_le), List.length_map, List.length_range]

theorem holds_iff {c : ℕ → UInt8} {sec : ℕ → Fin NumSectors} (hc : Contains d h s bytes)
    (hsec : h = zero.allocated bytes.length fun j => (sec j : ℕ)) :
    OpenFile.Holds ⟨h, s⟩ bytes.length c d' ↔
      ∀ i < bytes.length, image (fun i => sec (dataIndex i)) d' i = c i := by
  have hlists : h.Lists (dataSectorsOf bytes.length) fun i => sec (dataIndex i) := by
    rw [hsec]
    exact lists_allocated hc.length_le
  exact OpenFile.holds_iff (f := ⟨h, s⟩) hlists le_mul_dataSectorsOf

theorem frame {S : Set ℤ} (hc : Contains d h s bytes) (hd : d.Frame S d')
    (hS : ∀ z ∈ h.sectors, z ∉ S) : Contains d' h s bytes := by
  obtain ⟨sec, hsec⟩ := hc.header
  have hmem : ∀ i < dataSectorsOf bytes.length, ((sec (dataIndex i) : ℕ) : ℤ) ∉ S := by
    intro i hi
    refine hS _ ?_
    rw [hsec, sectors_allocated (by exact_mod_cast hc.length_le)]
    exact List.mem_map.mpr ⟨_, List.mem_range.mpr (dataIndex_lt hi), rfl⟩
  have hlen := le_mul_dataSectorsOf (L := bytes.length)
  refine ⟨hc.header, hc.short, (hc.holds_iff hsec).mpr fun i hi => ?_⟩
  rw [image_frame (by omega) hd hmem]
  exact (hc.holds_iff hsec).mp hc.holds i hi

end Contains

/-! ## One file among the others -/

/-- The sectors in use apart from those of the free map and of one file. -/
def Layout.others (w : Layout) (p : List UInt8 × ℤ) : List ℤ :=
  DirectorySector ::
    (w.dirSectors ++ (w.dir.live.erase p).flatMap fun q => q.2 :: (w.file q.2).sectors)

namespace Layout

variable {p q : List UInt8 × ℤ}

theorem used_perm_others (hp : p ∈ w.dir.live) : w.used.Perm
    (FreeMapSector :: ((w.mapSec : ℕ) : ℤ) :: p.2 :: ((w.file p.2).sectors ++ w.others p)) := by
  have hfiles := (List.perm_cons_erase hp).flatMap_right fun q => q.2 :: (w.file q.2).sectors
  rw [List.flatMap_cons] at hfiles
  refine (hfiles.append_left w.systemSectors).trans ?_
  rw [List.perm_iff_count]
  intro z
  simp only [systemSectors, others, List.count_append, List.count_cons]
  omega

theorem mem_others (hq : q ∈ w.dir.live) (hne : q ≠ p) {z : ℤ}
    (hz : z = q.2 ∨ z ∈ (w.file q.2).sectors) : z ∈ w.others p := by
  refine List.mem_cons_of_mem _ (List.mem_append_right _ (List.mem_flatMap.mpr ⟨q, ?_, ?_⟩))
  · exact (List.mem_erase_of_ne hne).mpr hq
  · exact List.mem_cons.mpr hz

theorem dirSectors_subset_others : w.dirSectors ⊆ w.others p :=
  fun _ hz => List.mem_cons_of_mem _ (List.mem_append_left _ hz)

end Layout

namespace Represents

theorem exists_fileOnDisk (hr : Represents fs w M) (hl : w.dir.live.lookup key = some s) :
    ∃ (old : List UInt8) (y : Fin NumSectors), M.bytes key = some old ∧ s = (y : ℕ) ∧
      Contains fs.disk (w.file s) s old ∧
      FileOnDisk fs.freeMapFile.hdr w.mapSec y ⟨w.file s, s⟩ old.length w.map (w.others (key, s))
        fs.disk := by
  have hc := hr.consistent
  have hmem := Assoc.mem_of_lookup hl
  obtain ⟨old, hold, hcont⟩ := hr.present key s hl
  have howned := hc.owned.perm (Layout.used_perm_others hmem)
  obtain ⟨h₀, hlt⟩ := (howned.2 s (by simp)).1
  obtain ⟨y, hy⟩ : ∃ y : Fin NumSectors, s = (y : ℕ) :=
    ⟨⟨s.toNat, by omega⟩, (Int.toNat_of_nonneg h₀).symm⟩
  exact ⟨old, y, hold, hy, hcont,
    { hdrSector := hy
      header := hcont.header
      le := hcont.length_le
      fetch := hy ▸ hc.file _ hmem
      map := hc.map
      owned := hy ▸ howned }⟩

end Represents

theorem FileOnDisk.keepsOthers {mapHdr : FileHeader} {mapSec y : Fin NumSectors} {L n position : ℕ}
    {m : BitMap} {others : List ℤ} (hf : FileOnDisk mapHdr mapSec y f L m others d) (hn : 0 < n)
    (hshort : dataSectorsOf L < NumDirect + MaxIndirectPointers) (hfits : Fits f L position n d)
    (hroom : totalSectorsOf (position + n : ℕ) ≤ totalSectorsOf L + m.numClear) :
    KeepsOthers mapSec y f others d position n := by
  rcases hfits with ⟨hin, -⟩ | ⟨hL, hlt, hpos, he, -⟩ | ⟨rfl, rfl, hmax⟩
  · have hend := hin.trans le_mul_dataSectorsOf
    refine hf.keepsOthers_inside hn hend ?_
    unfold NumDirect PointersPerIndirect MaxIndirectPointers SectorSize at *
    omega
  · have hends := lt_mul_of_dataSectorsOf_succ hL he
    rw [totalSectorsOf_of_le (by omega), he, totalSectorsOf_of_le hlt.le] at hroom
    have hlast : (position + n - 1) / SectorSize = dataSectorsOf L ∧
        dataSectorsOf L * SectorSize < position + n := by
      have hlen := OpenFile.length_of_divRoundUp (by omega : (0 : ℤ) < (position + n : ℕ)) he
      rw [Nat.add_sub_cancel] at hlen
      generalize dataSectorsOf L = k at hlen ⊢
      unfold SectorSize at hlen ⊢
      omega
    exact hf.keepsOthers_beyond hlast.2 hpos (by rw [hlast.1]; omega) (.inl ⟨hlt, hlast.1⟩)
  · have hzero : dataSectorsOf (0 : ℕ) = 0 := rfl
    have hlast : (0 + n - 1) / SectorSize = 0 := by
      rw [Nat.zero_add]
      exact Nat.div_eq_of_lt (by omega)
    rw [Nat.zero_add, totalSectorsOf_first hn hmax,
      show totalSectorsOf (0 : ℕ) = 0 from rfl] at hroom
    exact hf.keepsOthers_beyond (by rw [hzero]; omega) (by decide) (by rw [hlast, hzero]; omega)
      (.inl ⟨by decide, by rw [hlast, hzero]⟩)

theorem Fits.short {L n position : ℕ} (hfits : Fits f L position n d)
    (hshort : dataSectorsOf L < NumDirect + MaxIndirectPointers) :
    dataSectorsOf (max L (position + n) : ℕ) < NumDirect + MaxIndirectPointers := by
  rcases hfits with ⟨hin, -⟩ | ⟨hL, hlt, -, he, -⟩ | ⟨rfl, rfl, hmax⟩
  · rwa [Nat.max_eq_left hin]
  · rw [Nat.max_eq_right (lt_mul_of_dataSectorsOf_succ hL he).le, he]
    unfold MaxIndirectPointers
    omega
  · unfold dataSectorsOf divRoundUp NumDirect MaxIndirectPointers SectorSize at *
    split <;> omega

section Rewritten

variable {new : List UInt8} {y : Fin NumSectors} {f' : OpenFile} {m' : BitMap}

def Layout.withFile (w : Layout) (s : ℤ) (m : BitMap) (h : FileHeader) : Layout :=
  { w with map := m, file := update w.file s h }

/-- The sectors of a file, its header and the words of the free map are none of the others. -/
theorem FileOnDisk.notMem_written {mapHdr : FileHeader} {mapSec : Fin NumSectors} {L : ℕ}
    {others : List ℤ} (hf : FileOnDisk mapHdr mapSec y f' L m' others d') {z : ℤ}
    (hz : z ∈ others) :
    z ∉ { z : ℤ | z = (y : ℕ) ∨ z = (mapSec : ℕ) ∨ z ∈ f'.hdr.sectors } := by
  have hnodup := hf.owned.1
  simp only [List.nodup_cons, List.mem_cons, List.mem_append, not_or] at hnodup
  obtain ⟨-, ⟨-, -, hmap⟩, ⟨-, hown⟩, hrest⟩ := hnodup
  rintro (rfl | rfl | hz')
  · exact hown hz
  · exact hmap hz
  · exact (List.nodup_append.mp hrest).2.2 z hz' z hz rfl

namespace Consistent

theorem sector_ne (hc : Consistent fs w) {key' : List UInt8} {s' : ℤ}
    (hl : w.dir.live.lookup key = some s) (hl' : w.dir.live.lookup key' = some s')
    (hne : key' ≠ key) : s' ≠ s := by
  have howned := hc.owned.perm (Layout.used_perm_others (Assoc.mem_of_lookup hl))
  have hother : s' ∈ w.others (key, s) :=
    Layout.mem_others (Assoc.mem_of_lookup hl') (by simp [hne]) (.inl rfl)
  rintro rfl
  have hnodup := howned.1
  simp only [List.nodup_cons, List.mem_append, not_or] at hnodup
  exact hnodup.2.2.1.2 hother

theorem sector_ne_of_mem (hc : Consistent fs w) (hl : w.dir.live.lookup key = some s)
    {p : List UInt8 × ℤ} (hp : p ∈ w.dir.live) (hne : p ≠ (key, s)) : p.2 ≠ s := by
  have hp' := (Assoc.lookup_eq_some_iff hc.keys).mpr hp
  refine hc.sector_ne hl hp' fun he => hne ?_
  rw [he, hl] at hp'
  exact Prod.ext he (Option.some.inj hp').symm

theorem others_withFile (hc : Consistent fs w) (hl : w.dir.live.lookup key = some s) :
    (w.withFile s m' h).others (key, s) = w.others (key, s) := by
  unfold Layout.others
  congr 2
  refine List.flatMap_congr fun p hp => ?_
  have hkeys := List.Nodup.of_map _ hc.keys
  obtain ⟨hne, hp⟩ := hkeys.mem_erase_iff.mp hp
  simp only [Layout.withFile]
  rw [update_of_ne (hc.sector_ne_of_mem hl hp hne)]

/-- What is on the disk when the sectors of one file, its header and the words of the free map are
written. -/
theorem rewritten {L : ℕ} (hc : Consistent fs w) (hl : w.dir.live.lookup key = some s)
    (hs : s = (y : ℕ))
    (hf : FileOnDisk fs.freeMapFile.hdr w.mapSec y f' L m' (w.others (key, s)) d')
    (hframe : fs.disk.Frame
      { z | z = (y : ℕ) ∨ z = (w.mapSec : ℕ) ∨ z ∈ f'.hdr.sectors } d') :
    Consistent { fs with disk := d' } (w.withFile s m' f'.hdr) := by
  have hmem := Assoc.mem_of_lookup hl
  refine ⟨hc.freeMapFile, hc.directoryFile, hf.map, ?_, hc.tableSize, ?_, hc.keys, ?_⟩
  · refine hc.dir.frame hframe (hf.notMem_written (by simp [Layout.others])) fun z hz => ?_
    rw [hc.dirSectors] at hz
    exact hf.notMem_written (Layout.dirSectors_subset_others hz)
  · intro p hp
    simp only [Layout.withFile]
    by_cases hne : p = (key, s)
    · subst hne
      rw [update_self, hs]
      exact hf.fetch
    · rw [update_of_ne (hc.sector_ne_of_mem hl hp hne)]
      refine fetchFrom_frame (hc.file p hp) hframe fun z hz => hf.notMem_written ?_
      exact Layout.mem_others (w := w) hp hne (headerSectors_subset hz)
  · have hused := Layout.used_perm_others (w := w.withFile s m' f'.hdr) hmem
    rw [hc.others_withFile hl] at hused
    simp only [Layout.withFile, update_self] at hused
    rw [hs] at hused
    exact hf.owned.perm (hs ▸ hused.symm)

end Consistent

theorem Represents.rewritten (hr : Represents fs w M) (new : List UInt8)
    (hl : w.dir.live.lookup key = some s) (hs : s = (y : ℕ))
    (hf : FileOnDisk fs.freeMapFile.hdr w.mapSec y f' new.length m' (w.others (key, s)) d')
    (hshort : dataSectorsOf new.length < NumDirect + MaxIndirectPointers)
    (hholds : f'.Holds new.length (fun i => new.getD i 0) d')
    (hframe : fs.disk.Frame
      { z | z = (y : ℕ) ∨ z = (w.mapSec : ℕ) ∨ z ∈ f'.hdr.sectors } d') :
    Represents { fs with disk := d' } (w.withFile s m' f'.hdr)
      ⟨update M.bytes key (some new), m'.numClear⟩ := by
  have hc := hr.consistent
  have hheader : f' = ⟨f'.hdr, s⟩ := by
    rw [hs, ← hf.hdrSector]
  refine ⟨hc.rewritten hl hs hf hframe, ?_, ?_, rfl⟩
  · intro key' hno
    have hne : key' ≠ key := by
      rintro rfl
      exact absurd (hl.symm.trans hno) (by simp)
    simp only [update_of_ne hne]
    exact hr.absent key' hno
  · intro key' s' hl'
    by_cases hne : key' = key
    · subst hne
      obtain rfl : s = s' := Option.some.inj (hl.symm.trans hl')
      refine ⟨new, update_self .., ?_⟩
      simp only [Layout.withFile, update_self]
      refine ⟨hf.header, hshort, ?_⟩
      rwa [← hheader]
    · obtain ⟨old, hold, hcont⟩ := hr.present key' s' hl'
      refine ⟨old, by simp only [update_of_ne hne, hold], ?_⟩
      simp only [Layout.withFile]
      rw [update_of_ne (hc.sector_ne hl hl' hne)]
      refine hcont.frame hframe fun z hz => hf.notMem_written ?_
      exact Layout.mem_others (w := w) (Assoc.mem_of_lookup hl') (by simp [hne]) (.inr hz)

end Rewritten

/-! ## Calls on one file -/

section Splice

variable {old : List UInt8} {position : ℕ}

@[simp] theorem length_splice :
    (splice old position bytes).length = max old.length (position + bytes.length) := by
  simp only [splice, List.length_append, List.length_take, List.length_replicate, List.length_drop]
  omega

theorem getD_splice (i : ℕ) : (splice old position bytes).getD i 0 =
    overwritten (fun i => old.getD i 0) old.length position bytes.length
      (fun i => bytes.getD i 0) i := by
  have hlen : (old.take position ++ List.replicate (position - old.length) (0 : UInt8)).length =
      position := by
    rw [List.length_append, List.length_take, List.length_replicate]
    omega
  unfold splice overwritten
  rcases Nat.lt_or_ge i position with hi | hi
  · rw [List.append_assoc, List.getD_append _ _ _ _ (by omega), blit_of_lt hi]
    split
    case isTrue hold =>
      rw [List.getD_append _ _ _ _ (by rw [List.length_take]; omega)]
      simp [List.getD, hi]
    case isFalse hold =>
      rw [List.getD_append_right _ _ _ _ (by rw [List.length_take]; omega)]
      simp [List.getD, List.getElem?_replicate]
      split <;> rfl
  · obtain ⟨j, rfl⟩ := Nat.exists_eq_add_of_le hi
    rw [List.append_assoc, List.getD_append_right _ _ _ _ (by omega), hlen, Nat.add_sub_cancel_left]
    rcases Nat.lt_or_ge j bytes.length with hj | hj
    · rw [List.getD_append _ _ _ _ hj, blit_add hj]
    · rw [List.getD_append_right _ _ _ _ hj, blit_of_le (by omega)]
      have hidx : position + bytes.length + (j - bytes.length) = position + j := by omega
      simp only [List.getD, List.getElem?_drop, hidx]
      split
      case isTrue => rfl
      case isFalse hout => rw [List.getElem?_eq_none (by omega), Option.getD_none]

end Splice

namespace Represents

theorem exists_write {position : ℕ} (hr : Represents fs w M)
    (hl : w.dir.live.lookup name.key = some s)
    (hsafe : (Call.write name position bytes).Safe fs) :
    ∃ old fs' w', M.bytes name.key = some old ∧
      fs.writeFile name position bytes = .ok (some bytes.length, fs') ∧
      Represents fs' w' ⟨update M.bytes name.key (some (splice old position bytes)), M.free -
        (totalSectorsOf (max old.length (position + bytes.length) : ℕ) -
          totalSectorsOf old.length)⟩ := by
  have hc := hr.consistent
  obtain ⟨old, y, hold, hy, hcont, hf⟩ := hr.exists_fileOnDisk hl
  have hopen := hc.open_present hl
  obtain ⟨hn, hfits, hroom⟩ := hsafe _ _ hopen hc.fetchFreeMap
  simp only [hcont.numBytes, Int.toNat_natCast] at hfits hroom
  obtain ⟨f', d', hw, hf', hholds⟩ := hf.exists_stores hcont.holds hn hroom hfits
    fun i => bytes.getD i 0
  obtain ⟨f₁, d₁, hw₁, hframe, -⟩ :=
    hf.keepsOthers hn hcont.short hfits hroom fun i => bytes.getD i 0
  obtain ⟨rfl, rfl⟩ : f' = f₁ ∧ d' = d₁ := by
    have := hw.symm.trans hw₁
    simpa using this
  have hshort := hfits.short hcont.short
  have hr' := hr.rewritten (splice old position bytes) hl hy (by rwa [length_splice])
    (by rwa [length_splice])
    (by rw [length_splice]; exact hholds.congr fun i _ => (getD_splice i).symm) hframe
  rw [BitMap.numClear_after, hr.free] at hr'
  refine ⟨old, _, _, hold, ?_, hr'⟩
  unfold FileSystem.writeFile
  rw [hopen, ok_bind]
  dsimp only
  rw [hw, ok_bind, pure_eq_ok]

theorem readFile_eq {position numBytes : ℕ} (hr : Represents fs w M)
    (hl : w.dir.live.lookup name.key = some s)
    (hsafe : (Call.read name position numBytes).Safe fs) :
    ∃ old, M.bytes name.key = some old ∧
      fs.readFile name position numBytes = .ok (some ((old.drop position).take numBytes)) := by
  have hc := hr.consistent
  obtain ⟨old, hold, hcont⟩ := hr.present name.key s hl
  have hopen := hc.open_present hl
  have hrange := hsafe _ hopen
  simp only [hcont.numBytes] at hrange
  refine ⟨old, hold, ?_⟩
  unfold FileSystem.readFile
  rw [hopen, ok_bind]
  dsimp only
  by_cases hempty : numBytes = 0 ∨ old.length ≤ position
  · have hread : OpenFile.readAt ⟨w.file s, s⟩ (fun _ => 0) numBytes position fs.disk =
        .ok (0, fun _ => 0) := by
      refine if_pos ?_
      simpa [hcont.numBytes] using hempty
    have hnone : (old.drop position).take numBytes = [] := by
      rcases hempty with rfl | hle
      · simp
      · simp [List.drop_of_length_le hle]
    rw [hread, ok_bind, hnone]
    rfl
  · obtain ⟨sec, hsec⟩ := hcont.header
    have hmaps : (w.file s).Maps (dataSectorsOf old.length) fun i => sec (dataIndex i) :=
      FileOnDisk.maps (f := ⟨w.file s, s⟩) hsec hcont.short
    have hlen := le_mul_dataSectorsOf (L := old.length)
    have hbytes := (hcont.holds_iff hsec).mp hcont.holds
    have hread : OpenFile.readAt ⟨w.file s, s⟩ (fun _ => 0) numBytes position fs.disk = _ :=
      OpenFile.readAt_eq hmaps (by omega) (by rw [hcont.numBytes]; omega) (by omega)
    have hlist : (List.range numBytes).map (blit (fun _ => 0) 0 numBytes fun i =>
        image (fun i => sec (dataIndex i)) fs.disk (position + i)) =
        (old.drop position).take numBytes := by
      refine List.ext_getElem (by simp; omega) fun i h₁ h₂ => ?_
      have hi : i < numBytes := by simpa using h₁
      rw [List.getElem_map, List.getElem_range, blit_start hi, hbytes _ (by omega)]
      simp [List.getD, show position + i < old.length by omega]
    rw [hread, ok_bind]
    dsimp only
    rw [hlist]
    rfl

theorem mount_eq (hr : Represents fs w M) : fs.mount = .ok fs := by
  have hc := hr.consistent
  obtain ⟨d, ⟨mapHdr, mapSector⟩, ⟨dirHdr, dirSector⟩⟩ := fs
  obtain rfl : mapSector = FreeMapSector := hc.freeMapFile
  obtain rfl : dirSector = DirectorySector := hc.directoryFile
  have hdir : FileHeader.fetchFrom DirectorySector d = .ok dirHdr := hc.dir.header
  unfold FileSystem.mount
  rw [hc.map.open_, ok_bind, OpenFile.new, hdir]
  rfl

end Represents

/-! ## Calls on the directory -/

theorem exists_contains {size : ℤ} {m : BitMap} (hm : m.numBits = NumSectors) (h₀ : 0 ≤ size)
    (hshort : dataSectorsOf size < NumDirect + MaxIndirectPointers)
    (hroom : totalSectorsOf size ≤ m.numClear) (d : Disk) (s : ℤ) :
    ∃ bytes : List UInt8, (bytes.length : ℤ) = size ∧
      Contains d (zero.allocated size m.nth) s bytes := by
  obtain ⟨L, rfl⟩ := Int.eq_ofNat_of_zero_le h₀
  have hsector : ∀ j, ∃ y : Fin NumSectors, j < totalSectorsOf L → m.nth j = (y : ℕ) := by
    intro j
    by_cases hj : j < totalSectorsOf L
    · obtain ⟨y, hy, -⟩ := exists_nth_sector (k := j) hm (by omega)
      exact ⟨y, fun _ => hy⟩
    · exact ⟨⟨0, by decide⟩, fun h => absurd h hj⟩
  choose sec hsec using hsector
  have hheader : zero.allocated L m.nth = zero.allocated L fun j => (sec j : ℕ) :=
    allocated_congr hsec
  have hlength : ((List.range L).map (image (fun i => sec (dataIndex i)) d)).length = L := by simp
  refine ⟨(List.range L).map (image (fun i => sec (dataIndex i)) d), by rw [hlength], ?_⟩
  have hmax : L ≤ MaxFileSize := by
    have := le_mul_dataSectorsOf (L := L)
    unfold MaxFileSize NumDirect NumInDirect MaxIndirectPointers SectorSize at *
    omega
  have hlists : (zero.allocated L m.nth).Lists (dataSectorsOf L) fun i => sec (dataIndex i) := by
    rw [hheader]
    exact lists_allocated hmax
  refine ⟨⟨sec, by rw [hlength, hheader]⟩, by rwa [hlength], ?_⟩
  rw [hlength]
  refine (OpenFile.holds_iff (f := ⟨_, s⟩) hlists le_mul_dataSectorsOf).mpr fun i hi => ?_
  simp [List.getD, hi]

namespace Represents

theorem exists_create {size : ℤ} (hr : Represents fs w M) (hno : w.dir.live.lookup name.key = none)
    (h₀ : 0 ≤ size) (h₁ : size ≤ MaxFileSize) (hfit : CreateFits w.map w.dir w.dirLen size)
    (hshort : dataSectorsOf size < NumDirect + MaxIndirectPointers) :
    ∃ fs' w' bytes, fs.create name size = .ok (true, fs') ∧ (bytes.length : ℤ) = size ∧
      Represents fs' w' ⟨update M.bytes name.key (some bytes),
        M.free - (1 + totalSectorsOf size + w.dir.growth w.dirLen)⟩ := by
  have hc := hr.consistent
  obtain ⟨fs', w', hcreate, hc', hperm, -, hfile, hmap, -, hframe⟩ :=
    hc.exists_create hno h₀ h₁ hfit
  have hsectors := hfit.sectors
  have hlookup : ∀ key, w'.dir.live.lookup key =
      ((name.key, w.map.nth 0) :: w.dir.live).lookup key :=
    fun key => Assoc.lookup_perm hperm hc'.keys
  obtain ⟨bytes, hlen, hcont⟩ := exists_contains (m := w.map.after 1)
    (by rw [BitMap.numBits_after, hc.map.numBits]) h₀ hshort
    (by rw [BitMap.numClear_after]; omega) fs'.disk (w.map.nth 0)
  refine ⟨fs', w', bytes, hcreate, hlen, hc', ?_, ?_, ?_⟩
  · intro key hkey
    have hne : key ≠ name.key := by
      rintro rfl
      rw [hlookup, Assoc.lookup_cons_self] at hkey
      cases hkey
    rw [hlookup, Assoc.lookup_cons_of_ne hne] at hkey
    simp only [update_of_ne hne]
    exact hr.absent key hkey
  · intro key s hkey
    by_cases hne : key = name.key
    · subst hne
      rw [hlookup, Assoc.lookup_cons_self] at hkey
      obtain rfl := Option.some.inj hkey
      refine ⟨bytes, update_self .., ?_⟩
      rwa [hfile, update_self]
    · rw [hlookup, Assoc.lookup_cons_of_ne hne] at hkey
      obtain ⟨old, hold, hcont⟩ := hr.present key s hkey
      have hmem := Assoc.mem_of_lookup hkey
      have hnew : s ≠ w.map.nth 0 := by
        rintro rfl
        exact hc.owned.nth_notMem (by omega : 0 < w.map.numClear)
          (Layout.fileSectors_subset (Layout.mem_fileSectors hmem (.inl rfl)))
      refine ⟨old, by simp only [update_of_ne hne, hold], ?_⟩
      rw [hfile, update_of_ne hnew]
      exact hcont.frame hframe fun z hz => not_not.mpr (Layout.mem_fileSectors hmem (.inr hz))
  · rw [hmap, BitMap.numClear_after, hr.free]

theorem exists_remove (hr : Represents fs w M) (hl : w.dir.live.lookup name.key = some s)
    (hold : M.bytes name.key = some bytes) (hdirect : (w.file s).numSectors ≤ NumDirect) :
    ∃ fs' w', fs.remove name = .ok (true, fs') ∧
      Represents fs' w' ⟨update M.bytes name.key none, M.free + 1 +
        if dataSectorsOf bytes.length < NumDirect then dataSectorsOf bytes.length else 0⟩ := by
  have hc := hr.consistent
  obtain ⟨bytes', hbytes', hcont⟩ := hr.present _ _ hl
  obtain rfl : bytes = bytes' := Option.some.inj (hold.symm.trans hbytes')
  obtain ⟨fs', w', hremove, hc', hperm, hframe, hclear⟩ := hc.exists_remove hl hdirect
  have hlookup : ∀ key, w.dir.live.lookup key = ((name.key, s) :: w'.dir.live).lookup key :=
    fun key => Assoc.lookup_perm hperm hc.keys
  have hgone : w'.dir.live.lookup name.key = none := by
    rw [Assoc.lookup_eq_none_iff]
    exact (List.nodup_cons.mp ((hperm.map Prod.fst).nodup_iff.mp hc.keys)).1
  refine ⟨fs', w', hremove, hc', ?_, ?_, ?_⟩
  · intro key hkey
    by_cases hne : key = name.key
    · subst hne
      exact update_self ..
    · simp only [update_of_ne hne]
      exact hr.absent key (by rw [hlookup, Assoc.lookup_cons_of_ne hne, hkey])
  · intro key s' hkey
    have hne : key ≠ name.key := by
      rintro rfl
      rw [hgone] at hkey
      cases hkey
    have hold : w.dir.live.lookup key = some s' := by
      rw [hlookup, Assoc.lookup_cons_of_ne hne, hkey]
    have hmem := Assoc.mem_of_lookup hold
    have hkept : ∀ z, z = s' ∨ z ∈ (w.file s').sectors → z ∉ { z | z ∉ w.fileSectors } :=
      fun z hz => not_not.mpr (Layout.mem_fileSectors hmem hz)
    -- both layouts name the header that is on the disk
    have hsame : w'.file s' = w.file s' := by
      have h₁ : FileHeader.fetchFrom s' fs'.disk = .ok (w'.file s') :=
        hc'.file _ (Assoc.mem_of_lookup hkey)
      have h₂ : FileHeader.fetchFrom s' fs'.disk = .ok (w.file s') :=
        fetchFrom_frame (hc.file _ hmem) hframe fun z hz => hkept z (headerSectors_subset hz)
      exact Except.ok.inj (h₁.symm.trans h₂)
    obtain ⟨bytes, hbytes, hcont⟩ := hr.present key s' hold
    refine ⟨bytes, by simp only [update_of_ne hne, hbytes], ?_⟩
    rw [hsame]
    exact hcont.frame hframe fun z hz => hkept z (.inr hz)
  · rw [hcont.numSectors] at hclear hdirect
    rw [hclear, hr.free, hcont.length_sectors, totalSectorsOf_of_le (by exact_mod_cast hdirect)]
    simp only [Int.ofNat_lt]

theorem refused {size : ℤ} (hr : Represents fs w M) (h : Refused w.map w.dir name size) :
    M.bytes name.key ≠ none ∨ size < 0 ∨ MaxFileSize < size ∨ M.free ≤ dataSectorsOf size := by
  rcases h with hfind | hsize
  · left
    cases hl : w.dir.live.lookup name.key with
    | none => exact absurd (hr.consistent.find_eq_neg_one_iff.mpr hl) hfind
    | some s =>
      obtain ⟨bytes, hbytes, -⟩ := hr.present _ _ hl
      rw [hbytes]
      exact Option.some_ne_none bytes
  · exact .inr (by rwa [← hr.free])

theorem exists_call {c : Call} (hr : Represents fs w M) (hsafe : c.Safe fs) :
    ∃ a fs' w' M', fs.call c = .ok (a, fs') ∧ Files.Step M (c, a) M' ∧ Represents fs' w' M' := by
  have hc := hr.consistent
  cases c with
  | create name size =>
    obtain ⟨hsafe, hshort⟩ := hsafe
    by_cases href : Refused w.map w.dir name size
    · refine ⟨.done false, fs, w, M, ?_, .refused (hr.refused href), hr⟩
      rw [FileSystem.call, hc.create_refused href]
      rfl
    · obtain ⟨hno, h₀, h₁, -⟩ := hc.not_refused href
      have hfit := (hc.safe_create_iff.mp hsafe).resolve_left href
      obtain ⟨fs', w', bytes, hcreate, hlen, hr'⟩ := hr.exists_create hno h₀ h₁ hfit hshort
      have hroom := hfit.sectors
      rw [hr.free] at hroom
      refine ⟨.done true, fs', w', _, ?_,
        .created (hr.absent _ hno) hlen w.dir.growth_le_one hroom, hr'⟩
      rw [FileSystem.call, hcreate]
      rfl
  | remove name =>
    cases hl : w.dir.live.lookup name.key with
    | none =>
      refine ⟨.done false, fs, w, M, ?_, .notRemoved (hr.absent _ hl), hr⟩
      rw [FileSystem.call, hc.remove_absent hl]
      rfl
    | some s =>
      obtain ⟨old, hold, -⟩ := hr.present _ _ hl
      obtain ⟨fs', w', hremove, hr'⟩ := hr.exists_remove hl hold (hc.safe_remove hsafe hl)
      refine ⟨.done true, fs', w', _, ?_, .removed hold, hr'⟩
      rw [FileSystem.call, hremove]
      rfl
  | write name position bytes =>
    cases hl : w.dir.live.lookup name.key with
    | none =>
      refine ⟨.wrote none, fs, w, M, ?_, .notWritten (hr.absent _ hl), hr⟩
      rw [FileSystem.call, FileSystem.writeFile, hc.open_absent hl]
      rfl
    | some s =>
      obtain ⟨old, fs', w', hold, hwrite, hr'⟩ := hr.exists_write hl hsafe
      refine ⟨_, fs', w', _, ?_, .wrote hold, hr'⟩
      rw [FileSystem.call, hwrite]
      rfl
  | read name position numBytes =>
    cases hl : w.dir.live.lookup name.key with
    | none =>
      refine ⟨.bytes none, fs, w, M, ?_, .notRead (hr.absent _ hl), hr⟩
      rw [FileSystem.call, FileSystem.readFile, hc.open_absent hl]
      rfl
    | some s =>
      obtain ⟨old, hold, hread⟩ := hr.readFile_eq hl hsafe
      refine ⟨_, fs, w, M, ?_, .read hold, hr⟩
      rw [FileSystem.call, hread]
      rfl
  | mount =>
    refine ⟨.done true, fs, w, M, ?_, .mount, hr⟩
    rw [FileSystem.call, hr.mount_eq]
    rfl

end Represents

/-! ## Runs of calls -/

end Nachos.Filesys
