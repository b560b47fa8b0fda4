import Nachos.Filesys.FreeMapFile

/-! # Writing past the end of a file

A file that grows by one sector takes the first clear bit of the free map on
disk, which is written back before the data. With no sector left `ExtendFile`
returns without a change, and `WriteAt` goes on with the entry that the header
has there.
-/

namespace Nachos.Filesys

open Function Words Bytes Outcome

variable {d d' : Disk} {f : OpenFile} {h mapHdr : FileHeader} {m m' : BitMap} {S : Set ℤ}
  {mapSec : Fin NumSectors} {sec : ℕ → Fin NumSectors} {from' : ℕ → UInt8}
  {k n numBytes position : ℕ}

structure MapOnDisk (mapHdr : FileHeader) (mapSec : Fin NumSectors) (m : BitMap) (d : Disk) :
    Prop where
  direct : mapHdr.IsDirect 1 fun _ => mapSec
  header : FileHeader.fetchFrom FreeMapSector d = .ok mapHdr
  map : (BitMap.ofSize NumSectors).fetchFrom ⟨mapHdr, FreeMapSector⟩ d = .ok m

namespace MapOnDisk

theorem open_ (hm : MapOnDisk mapHdr mapSec m d) :
    OpenFile.new FreeMapSector d = .ok ⟨mapHdr, FreeMapSector⟩ := by
  rw [OpenFile.new, hm.header, ok_bind, pure_eq_ok]

theorem fetch (hm : MapOnDisk mapHdr mapSec m d) :
    (BitMap.ofSize NumSectors).fetchFrom ⟨mapHdr, FreeMapSector⟩ d' =
      .ok (BitMap.ofImage (image (fun _ => mapSec) d')) :=
  BitMap.fetchFrom_eq hm.direct.maps hm.direct.numBytes_pos

theorem ofImage_eq (hm : MapOnDisk mapHdr mapSec m d) :
    BitMap.ofImage (image (fun _ => mapSec) d) = m :=
  Except.ok.inj (hm.fetch.symm.trans hm.map)

theorem isFreeMap (hm : MapOnDisk mapHdr mapSec m d) : m.IsFreeMap :=
  hm.ofImage_eq ▸ BitMap.isFreeMap_ofImage

theorem numBits (hm : MapOnDisk mapHdr mapSec m d) : m.numBits = NumSectors := hm.isFreeMap.1

theorem unique (hm : MapOnDisk mapHdr mapSec m d) (hm' : MapOnDisk mapHdr mapSec m' d) : m = m' :=
  Except.ok.inj (hm.map.symm.trans hm'.map)

theorem sectors (hm : MapOnDisk mapHdr mapSec m d) : mapHdr.sectors = [((mapSec : ℕ) : ℤ)] := by
  rw [hm.direct.sectors]
  rfl

theorem frame (hm : MapOnDisk mapHdr mapSec m d) (hd : d.Frame S d') (h₀ : FreeMapSector ∉ S)
    (h₁ : ((mapSec : ℕ) : ℤ) ∉ S) : MapOnDisk mapHdr mapSec m d' := by
  have himg : ∀ v < SectorSize, image (fun _ => mapSec) d' v = image (fun _ => mapSec) d v :=
    fun v hv => image_frame (n := 1) (by omega) hd fun _ _ => h₁
  refine ⟨hm.direct, FileHeader.fetchFrom_frame hm.header hd ?_, ?_⟩
  · simpa [hm.direct.headerSectors] using h₀
  · rw [hm.fetch, ← hm.ofImage_eq]
    refine congrArg Except.ok (BitMap.ofImage_eq BitMap.isFreeMap_ofImage fun v hv => ?_)
    rw [BitMap.bytes_ofImage hv, himg v hv]

theorem exists_write (hm : MapOnDisk mapHdr mapSec m d) (h₀ : ((mapSec : ℕ) : ℤ) ≠ FreeMapSector)
    (hm' : m'.IsFreeMap) (depth : ℕ) :
    ∃ d', OpenFile.writeAt (depth + 1) m'.bytes (m'.numWords * 4) 0 ⟨mapHdr, FreeMapSector⟩ d =
        .ok (⟨mapHdr, FreeMapSector⟩, d') ∧
      MapOnDisk mapHdr mapSec m' d' ∧ d.Frame {((mapSec : ℕ) : ℤ)} d' := by
  obtain ⟨d', hd', hframe, hmap⟩ := BitMap.exists_writeMap (f := ⟨mapHdr, FreeMapSector⟩) (d := d)
    hm.direct hm' depth
  have hone : places 1 (fun _ => mapSec) ⊆ {((mapSec : ℕ) : ℤ)} := by
    rintro z ⟨i, -, rfl⟩
    rfl
  refine ⟨d', hd', ⟨hm.direct, ?_, hmap⟩, hframe.mono hone⟩
  refine FileHeader.fetchFrom_frame hm.header (hframe.mono hone) ?_
  simpa [hm.direct.headerSectors] using h₀.symm

end MapOnDisk

theorem exists_mapOnDisk (hm : m.IsFreeMap) (h₀ : ((mapSec : ℕ) : ℤ) ≠ FreeMapSector) :
    ∃ mapHdr d, MapOnDisk mapHdr mapSec m d := by
  obtain ⟨hdr, hdirect⟩ : ∃ hdr : FileHeader, hdr.IsDirect 1 fun _ => mapSec :=
    ⟨(FileHeader.ofSector fun _ => 0).allocated 128 fun _ => (mapSec : ℕ),
      FileHeader.isDirect_allocated FileHeader.isStored_ofSector (fun _ => rfl) rfl (by decide)
        (by decide) (fun _ _ => rfl) fun i hi j hj _ => by omega⟩
  obtain ⟨d, -, hfetch, -⟩ := hdirect.exists_writeBack ⟨0, by decide⟩ fun _ _ => 0
  have hm₀ : MapOnDisk hdr mapSec (BitMap.ofImage (image (fun _ => mapSec) d)) d :=
    ⟨hdirect, hfetch, BitMap.fetchFrom_eq hdirect.maps hdirect.numBytes_pos⟩
  obtain ⟨d', -, hm', -⟩ := hm₀.exists_write h₀ hm 1
  exact ⟨hdr, d', hm'⟩

/-! ## More sectors -/

namespace FileHeader

def earlier (n : ℕ) : ℕ := (n - 1) / MaxIndirectPointers * MaxIndirectPointers

/-- The header with `n` sectors more, found in this order: the last of them is in the entry behind
the direct sectors, or the last block of them in an entry of the blocks. -/
def extendedBy (h : FileHeader) (k n : ℕ) (seq : ℕ → ℤ) : FileHeader :=
  if k < NumDirect then
    { h with
      dataSectors := fun i => if (i : ℕ) = k then seq (n - 1) else h.dataSectors i
      numSectors := k + n }
  else
    { h with
      indirectPointers := fun j =>
        if NumDirect + (j : ℕ) = k then some (foundBlock seq (earlier n) (n - earlier n))
        else h.indirectPointers j
      numSectors := k + n }

theorem extendDirect_eq {i j : ℕ} (hi : i < NumDirect) :
    extendDirect i (n + 1) h (m.after j) =
      .ok ({ h with
        dataSectors := update h.dataSectors ⟨i, hi⟩ (m.nth (j + n))
        numSectors := h.numSectors + (n + 1) }, m.after (j + n + 1)) := by
  induction n with
  | zero => simp [extendDirect, BitMap.findBit_eq, setAt_natCast hi]
  | succ n ih =>
    rw [extendDirect, ih, ok_bind]
    simp only [BitMap.findBit_eq, setAt_natCast hi, ok_bind, pure_eq_ok, update_idem]
    congr 3
    omega

theorem extendBlocks_eq {i j turns : ℕ} (hi : i - NumDirect < NumInDirect) (hpos : 0 < n)
    (hn : n ≤ turns) :
    extendBlocks i turns n h (m.after j) =
      .ok ({ h with
        indirectPointers := update h.indirectPointers ⟨i - NumDirect, hi⟩
          (some (foundBlock m.nth (j + earlier n) (n - earlier n)))
        numSectors := h.numSectors + n }, m.after (j + n)) := by
  induction turns generalizing n h j with
  | zero => omega
  | succ turns ih =>
    have hmin : min n MaxIndirectPointers ≤ MaxIndirectPointers := Nat.min_le_right ..
    rw [extendBlocks, if_pos hpos]
    dsimp only
    rw [putSectors_empty hmin, ok_bind]
    simp only [setAt_natCast hi, ok_bind]
    rcases Nat.lt_or_ge MaxIndirectPointers n with hlt | hle
    · -- a full block, which the next turn replaces
      have hmax : min n MaxIndirectPointers = MaxIndirectPointers := Nat.min_eq_right hlt.le
      have hearlier : MaxIndirectPointers + earlier (n - MaxIndirectPointers) = earlier n := by
        unfold earlier MaxIndirectPointers at *
        omega
      rw [hmax, ih (by omega) (by unfold MaxIndirectPointers; omega)]
      have hcount : n - MaxIndirectPointers - earlier (n - MaxIndirectPointers) =
          n - earlier n := by omega
      have hsum : MaxIndirectPointers + (n - MaxIndirectPointers) = n := by omega
      have hnum : h.numSectors + (MaxIndirectPointers : ℤ) + (n - MaxIndirectPointers : ℕ) =
          h.numSectors + n := by omega
      simp only [update_idem, Nat.add_assoc, hearlier, hcount, hsum, hnum]
    · have hzero : earlier n = 0 := by
        unfold earlier MaxIndirectPointers at *
        omega
      rw [Nat.min_eq_left hle, Nat.sub_self, hzero]
      cases turns <;> simp [extendBlocks]

theorem extendSectors_eq (hk : h.numSectors = k) (hlt : k < NumDirect + NumInDirect)
    (hpos : 0 < n) :
    h.extendSectors n m = .ok (h.extendedBy k n m.nth, m.after n) := by
  have hzero : m = m.after 0 := rfl
  rw [extendSectors, if_neg (by omega), hk, Int.toNat_natCast, extendedBy]
  split
  case isTrue hd =>
    have hd' : k < NumDirect := by omega
    obtain ⟨n, rfl⟩ := Nat.exists_eq_add_of_le' hpos
    rw [hzero, extendDirect_eq hd', if_pos hd', ← hzero, Nat.zero_add, Nat.add_sub_cancel, hk]
    congr 3
    funext i
    simp [update_apply, Fin.ext_iff]
  case isFalse hd =>
    have hi : k - NumDirect < NumInDirect := by omega
    rw [hzero, extendBlocks_eq hi hpos (Nat.le_refl n), if_neg (by omega), ← hzero, Nat.zero_add,
      Nat.zero_add, hk]
    congr 3
    funext j
    have : j = ⟨k - NumDirect, hi⟩ ↔ NumDirect + (j : ℕ) = k := by
      rw [Fin.ext_iff]
      dsimp only
      omega
    simp [update_apply, this]

theorem extendSectors_error (hk : h.numSectors = k) (hlt : NumDirect + NumInDirect ≤ k)
    (hpos : 0 < n) :
    h.extendSectors n m = .error .undefined := by
  have hzero : m = m.after 0 := rfl
  obtain ⟨n, rfl⟩ := Nat.exists_eq_add_of_le' hpos
  rw [extendSectors, if_neg (by omega), hk, Int.toNat_natCast, if_neg (by omega), extendBlocks,
    if_pos hpos]
  dsimp only
  rw [hzero, putSectors_empty (Nat.min_le_right ..), ok_bind]
  simp only [setAt]
  rw [dif_neg (by omega), error_bind]

theorem extendFile_of_le (hn : n ≤ h.numSectors)
    (writeAt : (ℕ → UInt8) → ℕ → ℕ → OpenFile → Disk → Except Fault (OpenFile × Disk)) :
    h.extendFile writeAt n d = .ok (false, h, d) := by
  rw [extendFile]
  dsimp only
  rw [if_pos (by omega), pure_eq_ok]

theorem extendFile_full (hm : MapOnDisk mapHdr mapSec m d)
    (hfree : (m.numClear : ℤ) < n - h.numSectors)
    (writeAt : (ℕ → UInt8) → ℕ → ℕ → OpenFile → Disk → Except Fault (OpenFile × Disk)) :
    h.extendFile writeAt n d = .ok (false, h, d) := by
  rw [extendFile]
  dsimp only
  rw [if_neg (by omega), hm.open_, ok_bind, hm.map, ok_bind, if_pos (by omega), pure_eq_ok]

theorem extendFile_error (hm : MapOnDisk mapHdr mapSec m d) (hk : h.numSectors = k) (hkn : k < n)
    (hlt : NumDirect + NumInDirect ≤ k) (hfree : n - k ≤ m.numClear)
    (writeAt : (ℕ → UInt8) → ℕ → ℕ → OpenFile → Disk → Except Fault (OpenFile × Disk)) :
    h.extendFile writeAt n d = .error .undefined := by
  rw [extendFile]
  dsimp only
  rw [if_neg (by omega), hm.open_, ok_bind, hm.map, ok_bind, if_neg (by omega),
    extendSectors_error hk hlt (by omega), error_bind]

theorem exists_extendFile (hm : MapOnDisk mapHdr mapSec m d)
    (h₀ : ((mapSec : ℕ) : ℤ) ≠ FreeMapSector) (hk : h.numSectors = k) (hkn : k < n)
    (hlt : k < NumDirect + NumInDirect) (hfree : n - k ≤ m.numClear) (depth : ℕ) :
    ∃ d', h.extendFile (OpenFile.writeAt (depth + 1)) n d =
        .ok (true, h.extendedBy k (n - k) m.nth, d') ∧
      MapOnDisk mapHdr mapSec (m.after (n - k)) d' ∧ d.Frame {((mapSec : ℕ) : ℤ)} d' := by
  obtain ⟨d', hd', hmap, hframe⟩ := hm.exists_write h₀ (hm.isFreeMap.after (k := n - k)) depth
  refine ⟨d', ?_, hmap, hframe⟩
  have hcount : ((n : ℤ) - h.numSectors).toNat = n - k := by omega
  rw [extendFile]
  dsimp only
  rw [if_neg (by omega), hm.open_, ok_bind, hm.map, ok_bind, if_neg (by omega), hcount,
    extendSectors_eq hk hlt (by omega), ok_bind]
  dsimp only
  rw [hd', ok_bind, pure_eq_ok]

def extended (h : FileHeader) (k : ℕ) (z : ℤ) : FileHeader :=
  { h with dataSectors := fun i => if (i : ℕ) = k then z else h.dataSectors i, numSectors := k + 1 }

theorem extendedBy_one {seq : ℕ → ℤ} (hlt : k < NumDirect) :
    h.extendedBy k 1 seq = h.extended k (seq 0) := by
  rw [extendedBy, if_pos hlt]
  rfl

end FileHeader

/-! ## One sector more -/

theorem FileHeader.IsDirect.extended (hd : h.IsDirect k sec) (new : Fin NumSectors) (len : ℤ)
    (hlt : k < NumDirect) (hnew : ∀ i < k, sec i ≠ new)
    (hlen : ((k * SectorSize : ℕ) : ℤ) < len ∧ len ≤ ((k + 1) * SectorSize : ℕ)) :
    { h.extended k (new : ℕ) with numBytes := len }.IsDirect (k + 1) (update sec k new) where
  numSectors := by simp [FileHeader.extended]
  le := hlt
  length := hlen
  sector i hi := by
    by_cases hik : (i : ℕ) = k
    · simp [FileHeader.extended, hik]
    · simp [FileHeader.extended, hik, hd.sector i (by omega)]
  distinct := by
    intro i hi j hj hij
    by_cases hik : i = k <;> by_cases hjk : j = k
    · omega
    · rw [hik, update_self, update_of_ne hjk] at hij
      exact absurd hij.symm (hnew j (by omega))
    · rw [hjk, update_self, update_of_ne hik] at hij
      exact absurd hij (hnew i (by omega))
    · rw [update_of_ne hik, update_of_ne hjk] at hij
      exact hd.distinct i (by omega) j (by omega) hij
  stored := by
    obtain ⟨-, -, hdata, hblocks⟩ := FileHeader.isStored_iff.mp hd.stored
    unfold NumDirect at hlt
    unfold SectorSize at hlen
    have hlen' : IsInt len := ⟨by omega, by omega⟩
    have hnum : IsInt (k + 1) := ⟨by omega, by omega⟩
    refine FileHeader.isStored_iff.mpr ⟨hlen', hnum, fun i => ?_, hblocks⟩
    · simp only [FileHeader.extended]
      split
      · exact isInt_sector new
      · exact hdata i
  unset := hd.unset

theorem FileHeader.IsDirect.places_update (hd : h.IsDirect k sec) (new : Fin NumSectors) :
    places (k + 1) (update sec k new) ⊆ { z | z = (new : ℕ) ∨ z ∈ h.sectors } := by
  rintro z ⟨i, hi, rfl⟩
  rcases eq_or_ne i k with rfl | hne
  · exact .inl (by rw [update_self])
  · rw [update_of_ne hne]
    exact .inr (hd.mem_sectors.mpr ⟨i, by omega, rfl⟩)

/-! ## A write from the first sector past the end -/

namespace OpenFile

theorem writeAt_beyond (hpad : paddedLength f.hdr.numBytes = (k * SectorSize : ℕ))
    (hend : k * SectorSize < position + numBytes) (depth : ℕ) :
    f.writeAt (depth + 1) from' numBytes position d = (do
      let start := if position < k * SectorSize then position else k * SectorSize
      let firstSector := start / SectorSize
      let lastSector := (position + numBytes - 1) / SectorSize
      let numSectors := 1 + lastSector - firstSector
      let (_, hdr, d) ← f.hdr.extendFile (writeAt depth) numSectors d
      let f := { f with hdr }
      let (_, buf) ← f.readEdges (fun _ => 0) numBytes position firstSector lastSector d
      let buf := blit buf (position - firstSector * SectorSize) numBytes from'
      let d ← writeSectors f.hdr buf firstSector numSectors d
      let f := { f with hdr := { f.hdr with numBytes := numBytes + start } }
      return (f, ← f.hdr.writeBack f.hdrSector d)) := by
  rw [writeAt]
  dsimp only
  rw [hpad, if_neg (by omega), if_neg (by omega), Int.toNat_natCast]
  simp only [Int.ofNat_lt]

theorem writeAt_past (hpad : paddedLength f.hdr.numBytes = (k * SectorSize : ℕ)) (hk : 0 < k)
    (hpos : position < SectorSize) (hend : k * SectorSize < position + numBytes) (depth : ℕ) :
    f.writeAt (depth + 1) from' numBytes position d = (do
      let lastSector := (position + numBytes - 1) / SectorSize
      let (_, hdr, d) ← f.hdr.extendFile (writeAt depth) (lastSector + 1 : ℕ) d
      let f := { f with hdr }
      let (_, buf) ← f.readEdges (fun _ => 0) numBytes position 0 lastSector d
      let d ← writeSectors f.hdr (blit buf position numBytes from') 0 (lastSector + 1) d
      let f := { f with hdr := { f.hdr with numBytes := numBytes + position } }
      return (f, ← f.hdr.writeBack f.hdrSector d)) := by
  have hle : SectorSize ≤ k * SectorSize := Nat.le_mul_of_pos_left _ hk
  rw [writeAt_beyond hpad hend]
  dsimp only
  rw [if_pos (by omega), Nat.div_eq_of_lt hpos]
  simp only [Nat.zero_mul, Nat.sub_zero, Nat.add_comm 1]

/-- A buffer that is written from the first sector on, when its first bytes are those of the
file. -/
theorem image_writeSectors {buf : ℕ → UInt8} {v : ℕ}
    (himg : image sec d' v =
      blit (image sec d) 0 (n * SectorSize) (blit buf position numBytes from') v)
    (hbefore : ∀ v < position, buf v = image sec d v) (hmax : position + numBytes ≤ n * SectorSize)
    (hv : v < position + numBytes) :
    image sec d' v = blit (image sec d) position numBytes from' v := by
  rw [himg]
  exact blit_buffer (Nat.zero_le _) (by omega) fun _ _ hv' => hbefore v (by omega)

/-- The sectors and the header of a file are written, with a new length in the last sector. -/
theorem exists_writeDirect {hdr : FileHeader} {s : Fin NumSectors} {len : ℤ} (from' : ℕ → UInt8)
    (hdirect : { hdr with numBytes := len }.IsDirect (k + 1) sec) (hbytes : 0 < hdr.numBytes)
    (hpos : position < SectorSize) (hend : k * SectorSize < position + numBytes)
    (hmax : position + numBytes ≤ (k + 1) * SectorSize) (hk : 0 < k) (d : Disk) :
    ∃ read buf d₁ d₂,
      readEdges ⟨hdr, (s : ℕ)⟩ (fun _ => 0) numBytes position 0 k d = .ok (read, buf) ∧
      writeSectors hdr (blit buf position numBytes from') 0 (k + 1) d = .ok d₁ ∧
      { hdr with numBytes := len }.writeBack (s : ℕ) d₁ = .ok d₂ ∧
      FileHeader.fetchFrom (s : ℕ) d₂ = .ok { hdr with numBytes := len } ∧
      d.Frame (places (k + 1) sec) d₁ ∧ d₁.Frame {((s : ℕ) : ℤ)} d₂ ∧
      ∀ v < position + numBytes,
        image sec d₁ v = blit (image sec d) position numBytes from' v := by
  have hone : SectorSize ≤ k * SectorSize := Nat.le_mul_of_pos_left _ hk
  have hlast : (position + numBytes - 1) / SectorSize = k := by
    unfold SectorSize at *
    omega
  have hmaps : hdr.Maps (k + 1) sec := hdirect.maps
  have hfirst : ((position / SectorSize * SectorSize : ℕ) : ℤ) < hdr.numBytes := by
    rw [Nat.div_eq_of_lt hpos]
    omega
  obtain ⟨read, buf, hedges, hbefore, -⟩ := exists_readEdges (f := ⟨hdr, (s : ℕ)⟩) (d := d)
    hmaps (by omega : 0 < numBytes) hmax hfirst fun _ => 0
  rw [Nat.div_eq_of_lt hpos, hlast] at hedges
  simp only [Nat.div_eq_of_lt hpos, Nat.zero_mul, Nat.zero_add] at hbefore
  obtain ⟨d₁, hd₁, hframe₁, himg⟩ := exists_writeSectors (d := d) hmaps hdirect.distinct
    (by omega : 0 + (k + 1) ≤ k + 1) (blit buf position numBytes from')
  obtain ⟨d₂, hd₂, hfetch, hframe₂⟩ := hdirect.exists_writeBack s d₁
  rw [Nat.zero_mul] at himg
  exact ⟨read, buf, d₁, d₂, hedges, hd₁, hd₂, hfetch, hframe₁, hframe₂, fun v hv =>
    image_writeSectors (himg v (by omega)) hbefore hmax hv⟩

/-- A file that grows by one sector: the header and the free map on disk follow. -/
theorem exists_writeAt_past {s new : Fin NumSectors} (from' : ℕ → UInt8)
    (hm : MapOnDisk mapHdr mapSec m d)
    (hf : f.hdr.IsDirect k sec) (hs : f.hdrSector = (s : ℕ)) (hlt : k < NumDirect)
    (hfree : 0 < m.numClear) (hnew : m.nth 0 = (new : ℕ))
    (hnodup : (FreeMapSector :: ((mapSec : ℕ) : ℤ) :: ((s : ℕ) : ℤ) :: ((new : ℕ) : ℤ) ::
      f.hdr.sectors).Nodup)
    (hpos : position < SectorSize) (hend : k * SectorSize < position + numBytes)
    (hmax : position + numBytes ≤ (k + 1) * SectorSize) (depth : ℕ) :
    ∃ hdr d', f.writeAt (depth + 2) from' numBytes position d = .ok (⟨hdr, (s : ℕ)⟩, d') ∧
      hdr.IsDirect (k + 1) (update sec k new) ∧
      hdr = { f.hdr.extended k (new : ℕ) with numBytes := numBytes + position } ∧
      FileHeader.fetchFrom (s : ℕ) d' = .ok hdr ∧ MapOnDisk mapHdr mapSec (m.after 1) d' ∧
      d.Frame { z | z = (mapSec : ℕ) ∨ z = (s : ℕ) ∨ z = (new : ℕ) ∨ z ∈ f.hdr.sectors } d' ∧
      ∀ v < position + numBytes,
        image (update sec k new) d' v = blit (image sec d) position numBytes from' v := by
  have hk := hf.pos
  have hone : SectorSize ≤ k * SectorSize := Nat.le_mul_of_pos_left _ hk
  have hlast : (position + numBytes - 1) / SectorSize = k := by
    unfold SectorSize at *
    omega
  simp only [List.nodup_cons, List.mem_cons, not_or] at hnodup
  obtain ⟨⟨h₀map, h₀s, h₀new, h₀sec⟩, ⟨hmaps, hmapnew, hmapsec⟩, ⟨hsnew, hssec⟩, hnewsec, -⟩ :=
    hnodup
  have hmem : ∀ i < k, ((sec i : ℕ) : ℤ) ∈ f.hdr.sectors := fun i hi =>
    hf.mem_sectors.mpr ⟨i, hi, rfl⟩
  have hplaces := hf.places_update new
  have hdirect := hf.extended new (numBytes + position) hlt
    (fun i hi he => hnewsec (by rw [← he]; exact hmem i hi)) ⟨by omega, by omega⟩
  obtain ⟨d₁, hext, hmap₁, hframe₁⟩ := FileHeader.exists_extendFile (n := k + 1) hm (Ne.symm h₀map)
    hf.numSectors (Nat.lt_succ_self k) (by unfold NumDirect at *; omega) (by omega) depth
  rw [Nat.add_sub_cancel_left, FileHeader.extendedBy_one hlt, hnew] at hext
  rw [Nat.add_sub_cancel_left] at hmap₁
  have hbytes : 0 < (f.hdr.extended k (new : ℕ)).numBytes := hf.numBytes_pos
  obtain ⟨read, buf, d₂, d₃, hedges, hd₂, hd₃, hfetch, hframe₂, hframe₃, himg⟩ :=
    exists_writeDirect (s := s) from' hdirect hbytes hpos hend hmax hk d₁
  refine ⟨_, d₃, ?_, hdirect, rfl, hfetch, ?_, ?_, fun v hv => ?_⟩
  · rw [writeAt_past (paddedLength_eq hf.length.1 hf.length.2) hk hpos hend]
    dsimp only
    rw [hlast, hext, ok_bind]
    dsimp only
    rw [hs, hedges, ok_bind]
    dsimp only
    rw [hd₂, ok_bind, hd₃, ok_bind, pure_eq_ok]
  · refine (hmap₁.frame hframe₂ ?_ ?_).frame hframe₃ h₀s hmaps
    · exact fun hz => (hplaces hz).elim h₀new h₀sec
    · exact fun hz => (hplaces hz).elim hmapnew hmapsec
  · refine (hframe₁.mono ?_).trans ((hframe₂.mono ?_).trans (hframe₃.mono ?_))
    · rintro z rfl
      exact .inl rfl
    · exact fun z hz => .inr (.inr (hplaces hz))
    · rintro z rfl
      exact .inr (.inl rfl)
  · have hout : ∀ i < k + 1, ((update sec k new i : ℕ) : ℤ) ∉ ({((s : ℕ) : ℤ)} : Set ℤ) := by
      intro i hi he
      exact (hplaces ⟨i, hi, (Set.mem_singleton_iff.mp he).symm⟩).elim hsnew hssec
    rw [image_frame (n := k + 1) (by omega) hframe₃ hout, himg v hv]
    rcases Nat.lt_or_ge v position with hlow | hlow
    · -- the first sector is read again before it is written
      have hv₀ : v / SectorSize = 0 := Nat.div_eq_of_lt (by omega)
      rw [blit_of_lt hlow, blit_of_lt hlow, image, hv₀, update_of_ne hk.ne, image, hv₀,
        hframe₁ (sec 0) fun he => hmapsec (by rw [← he]; exact hmem 0 hk)]
    · obtain ⟨i, rfl⟩ := Nat.exists_eq_add_of_le hlow
      rw [blit_add (by omega), blit_add (by omega)]

end OpenFile

end Nachos.Filesys
