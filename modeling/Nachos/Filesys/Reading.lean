import Nachos.Filesys.FileContents

/-! # What `ReadAt` returns

The line of `ReadAt` that cuts a request at the end of the file is a comment,
so a read that starts inside of the file returns the number of bytes that it is
asked for. `ByteToSector` looks every sector behind the direct ones up in the
block of the last sector. A read is right when it ends inside of the file and
this block is the right one.
-/

namespace Nachos.Filesys

open Function Bytes Outcome FileHeader

variable {d : Disk} {h : FileHeader} {f : OpenFile} {sec sec' : ℕ → Fin NumSectors}
  {buffer into : ℕ → UInt8} {bytes : List UInt8} {chunk i k n L numBytes position turns : ℕ} {z : ℤ}

instance : Nonempty (Fin NumSectors) := ⟨⟨0, by decide⟩⟩

theorem sec_eq_of_image {v : ℕ} (h : ∀ d, image sec' d v = image sec d v) :
    sec' (v / SectorSize) = sec (v / SectorSize) := by
  have hv := h fun s _ => if s = sec (v / SectorSize) then 1 else 0
  have hlt : v % SectorSize < SectorSize := Nat.mod_lt v sectorSize_pos
  by_contra hne
  simp [image, Sector.bytes_of_lt hlt, hne] at hv

namespace OpenFile

/-! ## One read -/

def sectorsRead (f : OpenFile) (numBytes position : ℕ) : List (Except Fault ℤ) :=
  if numBytes = 0 ∨ f.hdr.numBytes ≤ position then []
  else
    let firstSector := position / SectorSize
    let lastSector := (position + numBytes - 1) / SectorSize
    (List.range (1 + lastSector - firstSector)).map fun i =>
      f.hdr.byteToSector ((firstSector + i) * SectorSize)

theorem readSectors_congr {hdr : FileHeader} {first : ℕ} {d' : Disk}
    (h : ∀ i < k, ∀ y : Fin NumSectors,
      hdr.byteToSector ((first + i) * SectorSize) = .ok (y : ℕ) → d' y = d y) :
    readSectors hdr first d' k = readSectors hdr first d k := by
  induction k with
  | zero => rfl
  | succ k ih =>
    rw [readSectors, readSectors, ih fun i hi => h i (by omega)]
    refine bind_congr fun buf _ => bind_congr fun z hz => ?_
    rw [readSector_congr fun y hy => h k (by omega) y (by rw [hz, hy])]

theorem readAt_congr {d' : Disk}
    (h : ∀ y : Fin NumSectors, .ok (y : ℕ) ∈ f.sectorsRead numBytes position → d' y = d y) :
    f.readAt into numBytes position d' = f.readAt into numBytes position d := by
  unfold readAt
  split
  case isTrue => rfl
  case isFalse hne =>
    rw [sectorsRead, if_neg hne] at h
    refine congrArg (· >>= _) (readSectors_congr fun i hi y hy => h y ?_)
    exact List.mem_map.mpr ⟨i, List.mem_range.mpr hi, hy⟩

/-- `ReadAt` for a file of `L` bytes in some sectors returns the bytes that are there, and asks for
sectors of the file only. -/
structure ReadsRight (f : OpenFile) (L : ℕ) (sec : ℕ → Fin NumSectors) (position : ℕ)
    (numBytes : ℤ) : Prop where
  bytes : ∀ d into, ∃ k : ℕ, (k : ℤ) = max 0 (min numBytes (L - position)) ∧
    f.readAt into numBytes.toNat position d =
      .ok (k, blit into 0 k fun i => image sec d (position + i))
  sectors : ∀ z ∈ f.sectorsRead numBytes.toNat position, ∃ i < dataSectorsOf L, z = .ok (sec i : ℕ)

/-- A read that returns has found its sectors, and returns the number of bytes it is asked for. -/
theorem exists_found (hpos : 0 < numBytes) (hlen : position < f.hdr.numBytes)
    (hr : f.readAt into numBytes position d = .ok (k, buffer)) :
    k = numBytes ∧ ∃ sec' : ℕ → Fin NumSectors, ∀ i, position / SectorSize ≤ i →
      i * SectorSize < position + numBytes →
      f.hdr.byteToSector (i * SectorSize) = .ok (sec' i : ℕ) := by
  rw [readAt, if_neg (by omega)] at hr
  dsimp only at hr
  obtain ⟨buf, hbuf, hr⟩ := bind_eq_ok.mp hr
  have hfound : ∀ i, position / SectorSize ≤ i → i * SectorSize < position + numBytes →
      ∃ y : Fin NumSectors, f.hdr.byteToSector (i * SectorSize) = .ok (y : ℕ) := by
    intro i hi hlt
    obtain ⟨j, rfl⟩ := Nat.exists_eq_add_of_le hi
    refine readSectors_eq_ok hbuf ?_
    unfold SectorSize at *
    omega
  choose! sec' hsec' using hfound
  exact ⟨(Prod.mk.inj (Except.ok.inj hr)).1.symm, sec', hsec'⟩

theorem sec_eq_of_read (hpos : 0 < numBytes)
    (h : ∀ d, ∀ i < numBytes, image sec' d (position + i) = image sec d (position + i))
    (hi : position / SectorSize ≤ i) (hlt : i * SectorSize < position + numBytes) :
    sec' i = sec i := by
  -- the first byte of the read that is in the sector
  obtain ⟨j, hj, hdiv⟩ : ∃ j < numBytes, (position + j) / SectorSize = i :=
    ⟨i * SectorSize - position, by unfold SectorSize at *; omega, by unfold SectorSize at *; omega⟩
  have := sec_eq_of_image fun d => h d j hj
  rwa [hdiv] at this

/-- The request is empty, starts behind the file, or ends inside of it in sectors that are found. -/
def ReadFits (f : OpenFile) (L : ℕ) (sec : ℕ → Fin NumSectors) (position : ℕ) (numBytes : ℤ) :
    Prop :=
  numBytes ≤ 0 ∨ L ≤ position ∨ position + numBytes ≤ L ∧
    ∀ i, position / SectorSize ≤ i → (i * SectorSize : ℕ) < position + numBytes → NumDirect ≤ i →
      f.hdr.LastBlockHas i (sec i : ℕ)

theorem lt_dataSectorsOf (h : i * SectorSize < L) : i < dataSectorsOf L := by
  have hlt : ((i * SectorSize : ℕ) : ℤ) < (L : ℤ) := by exact_mod_cast h
  have := div_lt_dataSectorsOf hlt
  rwa [Nat.mul_div_cancel _ sectorSize_pos] at this

theorem readsRight_of_empty {numBytes : ℤ} (hL : f.hdr.numBytes = L)
    (h : numBytes ≤ 0 ∨ L ≤ position) : ReadsRight f L sec position numBytes := by
  have hnone : numBytes.toNat = 0 ∨ f.hdr.numBytes ≤ position := by omega
  constructor
  · intro d into
    refine ⟨0, by omega, ?_⟩
    rw [readAt, if_pos hnone, blit_zero]
  · intro z hz
    rw [sectorsRead, if_pos hnone] at hz
    cases hz

theorem readsRight_of_found (hL : f.hdr.numBytes = L) (hpos : 0 < numBytes)
    (hend : position + numBytes ≤ L)
    (hm : ∀ i, position / SectorSize ≤ i → i * SectorSize < position + numBytes →
      f.hdr.byteToSector (i * SectorSize) = .ok (sec i : ℕ)) :
    ReadsRight f L sec position numBytes := by
  constructor
  · intro d into
    exact ⟨numBytes, by omega, readAt_of_found hm hpos (by omega)⟩
  · intro z hz
    rw [sectorsRead, Int.toNat_natCast, if_neg (by omega)] at hz
    obtain ⟨j, hj, rfl⟩ := List.mem_map.mp hz
    have hlt : (position / SectorSize + j) * SectorSize < position + numBytes := by
      have := List.mem_range.mp hj
      unfold SectorSize at *
      omega
    exact ⟨_, lt_dataSectorsOf (by omega), hm _ (Nat.le_add_right ..) hlt⟩

theorem found_of_readsRight (hL : f.hdr.numBytes = L) (hpos : 0 < numBytes) (hlen : position < L)
    (h : ReadsRight f L sec position numBytes) : position + numBytes ≤ L ∧
      ∀ i, position / SectorSize ≤ i → i * SectorSize < position + numBytes →
        f.hdr.byteToSector (i * SectorSize) = .ok (sec i : ℕ) := by
  have hlen' : (position : ℤ) < f.hdr.numBytes := by omega
  obtain ⟨k, hk, hr⟩ := h.bytes (fun _ _ => 0) fun _ => 0
  rw [Int.toNat_natCast] at hr
  obtain ⟨hkn, sec', hsec'⟩ := exists_found hpos hlen' hr
  have hbytes : ∀ d, ∀ i < numBytes, image sec' d (position + i) = image sec d (position + i) := by
    intro d i hi
    obtain ⟨k, -, hr'⟩ := h.bytes d fun _ => 0
    rw [Int.toNat_natCast, readAt_of_found hsec' hpos hlen'] at hr'
    obtain ⟨rfl, hblit⟩ := Prod.mk.inj (Except.ok.inj hr')
    have := congrFun hblit i
    rwa [blit_start hi, blit_start hi] at this
  refine ⟨by omega, fun i hi hlt => ?_⟩
  rw [hsec' i hi hlt, sec_eq_of_read hpos hbytes hi hlt]

theorem readsRight_iff {numBytes : ℤ} (hL : f.hdr.numBytes = L)
    (hlists : f.hdr.Lists (dataSectorsOf L) sec) :
    ReadsRight f L sec position numBytes ↔ ReadFits f L sec position numBytes := by
  rcases le_or_gt numBytes 0 with hle | hpos
  · exact ⟨fun _ => .inl hle, fun _ => readsRight_of_empty hL (.inl hle)⟩
  rcases Nat.lt_or_ge position L with hlen | hge
  · obtain ⟨n, rfl⟩ := Int.eq_ofNat_of_zero_le hpos.le
    have hfinds : position + n ≤ L → ∀ i, i * SectorSize < position + n →
        (f.hdr.byteToSector (i * SectorSize) = .ok (sec i : ℕ) ↔
          (NumDirect ≤ i → f.hdr.LastBlockHas i (sec i : ℕ))) := fun hend i hi =>
      hlists.byteToSector_iff (lt_dataSectorsOf (by omega))
    constructor
    · intro h
      obtain ⟨hend, hfound⟩ := found_of_readsRight hL (by omega) hlen h
      exact .inr (.inr ⟨by omega, fun i hi hlt =>
        (hfinds hend i (by omega)).mp (hfound i hi (by omega))⟩)
    · rintro (hle | hge | ⟨hend, hfits⟩)
      · omega
      · omega
      · exact readsRight_of_found hL (by omega) (by omega) fun i hi hlt =>
          (hfinds (by omega) i hlt).mpr (hfits i hi (by omega))
  · exact ⟨fun _ => .inr (.inl hge), fun _ => readsRight_of_empty hL (.inr hge)⟩

/-! ## Reading a whole file -/

/-- The loop of `Print`: the bytes that it prints. Each turn reads at least one byte of the file, so
as many turns as there are bytes, and one more, are enough. -/
def readChunks (f : OpenFile) (transferSize : ℕ) (d : Disk) : (turns : ℕ) → (buffer : ℕ → UInt8) →
    (seekPosition : ℕ) → Except Fault (List UInt8)
  | 0, _, _ => .error .undefined
  | turns + 1, buffer, seekPosition => do
    let (amountRead, buffer, seekPosition) ← f.read buffer transferSize seekPosition d
    if 0 < amountRead then
      return (List.range amountRead).map buffer ++
        (← readChunks f transferSize d turns buffer seekPosition)
    else return []

def print (f : OpenFile) (transferSize : ℕ) (buffer : ℕ → UInt8) (d : Disk) :
    Except Fault (List UInt8) :=
  f.readChunks transferSize d (f.hdr.numBytes.toNat + 1) buffer 0

/-- Reads of this size give exactly the bytes of the file, and then none. -/
def PrintsRight (f : OpenFile) (L : ℕ) (sec : ℕ → Fin NumSectors) (transferSize : ℕ) : Prop :=
  ∀ d buffer, f.print transferSize buffer d = .ok ((List.range L).map (image sec d))

theorem readChunks_of_none (h : chunk = 0 ∨ f.hdr.numBytes ≤ position) :
    f.readChunks chunk d (turns + 1) buffer position = .ok [] := by
  rw [readChunks, read, readAt, if_pos h]
  rfl

theorem readChunks_succ {into : ℕ → UInt8} (hpos : 0 < chunk)
    (hr : f.readAt buffer chunk position d = .ok (chunk, into)) :
    f.readChunks chunk d (turns + 1) buffer position = do
      return (List.range chunk).map into ++
        (← f.readChunks chunk d turns into (position + chunk)) := by
  rw [readChunks, read, hr]
  exact if_pos hpos

theorem exists_turn (hpos : 0 < chunk) (hlen : position < f.hdr.numBytes)
    (h : f.readChunks chunk d (turns + 1) buffer position = .ok bytes) :
    ∃ into rest, f.readAt buffer chunk position d = .ok (chunk, into) ∧
      f.readChunks chunk d turns into (position + chunk) = .ok rest ∧
      bytes = (List.range chunk).map into ++ rest := by
  have hr : ∃ k into, f.readAt buffer chunk position d = .ok (k, into) := by
    rw [readChunks, read] at h
    obtain ⟨_, hread, -⟩ := bind_eq_ok.mp h
    obtain ⟨⟨k, into⟩, hr, -⟩ := bind_eq_ok.mp hread
    exact ⟨k, into, hr⟩
  obtain ⟨k, into, hr⟩ := hr
  obtain ⟨rfl, -⟩ := exists_found hpos hlen hr
  rw [readChunks_succ hpos hr] at h
  obtain ⟨rest, hrest, h⟩ := bind_eq_ok.mp h
  exact ⟨into, rest, hr, hrest, (Except.ok.inj h).symm⟩

theorem dvd_length_of_readChunks (h : f.readChunks chunk d turns buffer position = .ok bytes) :
    chunk ∣ bytes.length := by
  induction turns generalizing buffer position bytes with
  | zero => cases h
  | succ turns ih =>
    by_cases hnone : chunk = 0 ∨ f.hdr.numBytes ≤ position
    · rw [readChunks_of_none hnone] at h
      cases h
      exact Nat.dvd_zero chunk
    · obtain ⟨into, rest, -, hrest, rfl⟩ := exists_turn (by omega) (by omega) h
      rw [List.length_append, List.length_map, List.length_range]
      exact Nat.dvd_add (Nat.dvd_refl chunk) (ih hrest)

theorem exists_found_of_readChunks (hpos : 0 < chunk)
    (h : f.readChunks chunk d turns buffer position = .ok bytes) (hi : position ≤ i * SectorSize)
    (hlt : (i * SectorSize : ℕ) < f.hdr.numBytes) :
    ∃ y : Fin NumSectors, f.hdr.byteToSector (i * SectorSize) = .ok (y : ℕ) := by
  induction turns generalizing buffer position bytes with
  | zero => cases h
  | succ turns ih =>
    rcases lt_or_ge (position : ℤ) f.hdr.numBytes with hlen | hge
    · obtain ⟨into, rest, hr, hrest, -⟩ := exists_turn hpos hlen h
      rcases Nat.lt_or_ge (i * SectorSize) (position + chunk) with hin | hout
      · obtain ⟨-, sec', hsec'⟩ := exists_found hpos hlen hr
        exact ⟨sec' i, hsec' i (Nat.div_le_of_le_mul (by rwa [Nat.mul_comm])) hin⟩
      · exact ih hrest hout
    · omega

theorem readChunks_eq (hpos : 0 < chunk) (hL : f.hdr.numBytes = L)
    (hm : f.hdr.Maps (dataSectorsOf L) sec) (hle : position ≤ L) (hdvd : chunk ∣ L - position)
    (hturns : L - position < turns) :
    f.readChunks chunk d turns buffer position =
      .ok ((List.range (L - position)).map fun i => image sec d (position + i)) := by
  induction turns generalizing buffer position with
  | zero => omega
  | succ turns ih =>
    rcases Nat.lt_or_ge position L with hlt | hge
    · have hchunk : chunk ≤ L - position := Nat.le_of_dvd (by omega) hdvd
      have hr : f.readAt buffer chunk position d =
          .ok (chunk, blit buffer 0 chunk fun i => image sec d (position + i)) :=
        readAt_eq hm hpos (by omega) ((by omega : position + chunk ≤ L).trans le_mul_dataSectorsOf)
      obtain ⟨rest, hrest⟩ := Nat.exists_eq_add_of_le hchunk
      have hnext : L - (position + chunk) = rest := by omega
      have hdvd' : chunk ∣ rest := (Nat.dvd_add_right (Nat.dvd_refl chunk)).mp (hrest ▸ hdvd)
      rw [readChunks_succ hpos hr, ih (by omega) (by rwa [hnext]) (by omega), hnext, hrest, ok_bind,
        pure_eq_ok, List.range_add, List.map_append, List.map_map]
      refine congrArg Except.ok (congrArg₂ (· ++ ·) (List.map_congr_left fun i hi => ?_) ?_)
      · exact blit_start (List.mem_range.mp hi)
      · simp only [Function.comp_def, Nat.add_assoc]
    · rw [readChunks_of_none (.inr (by omega)), Nat.sub_eq_zero_of_le hge]
      rfl

theorem found_of_printsRight (hpos : 0 < chunk) (hL : f.hdr.numBytes = L)
    (h : PrintsRight f L sec chunk) :
    chunk ∣ L ∧ f.hdr.Maps (dataSectorsOf L) sec := by
  have hdvd : chunk ∣ L := by
    have := dvd_length_of_readChunks (h (fun _ _ => 0) fun _ => 0)
    rwa [List.length_map, List.length_range] at this
  have hfound : ∀ i < dataSectorsOf L, ∃ y : Fin NumSectors,
      f.hdr.byteToSector (i * SectorSize) = .ok (y : ℕ) := fun i hi =>
    exists_found_of_readChunks hpos (h (fun _ _ => 0) fun _ => 0) (Nat.zero_le _)
      (by rw [hL]; exact mul_lt_of_lt_dataSectorsOf hi)
  choose! sec' hsec' using hfound
  have hbytes : ∀ d, ∀ i < L, image sec' d i = image sec d i := by
    intro d i hi
    have hprint := h d fun _ => 0
    rw [print, readChunks_eq hpos hL hsec' (Nat.zero_le _) (by simpa using hdvd)
      (by rw [hL, Int.toNat_natCast]; omega)] at hprint
    have := List.map_inj_left.mp (Except.ok.inj hprint) i (List.mem_range.mpr hi)
    rwa [Nat.zero_add] at this
  refine ⟨hdvd, fun i hi => ?_⟩
  have hlt : i * SectorSize < L := by exact_mod_cast mul_lt_of_lt_dataSectorsOf hi
  have heq := sec_eq_of_image fun d => hbytes d (i * SectorSize) hlt
  rw [Nat.mul_div_cancel _ sectorSize_pos] at heq
  rw [hsec' i hi, heq]

/-- A loop of reads is right if the file is empty, or has no rest and its sectors are found. -/
theorem printsRight_iff (hL : f.hdr.numBytes = L) (hlists : f.hdr.Lists (dataSectorsOf L) sec) :
    PrintsRight f L sec chunk ↔ L = 0 ∨ chunk ∣ L ∧
      ∀ i < dataSectorsOf L, NumDirect ≤ i → f.hdr.LastBlockHas i (sec i : ℕ) := by
  constructor
  · intro h
    rcases Nat.eq_zero_or_pos L with rfl | hpos
    · exact .inl rfl
    rcases Nat.eq_zero_or_pos chunk with rfl | hchunk
    · -- nothing is read
      have hnone := (readChunks_of_none (.inl rfl)).symm.trans (h (fun _ _ => 0) fun _ => 0)
      have := congrArg List.length (Except.ok.inj hnone)
      rw [List.length_map, List.length_range, List.length_nil] at this
      omega
    · obtain ⟨hdvd, hm⟩ := found_of_printsRight hchunk hL h
      exact .inr ⟨hdvd, fun i hi => (hlists.byteToSector_iff hi).mp (hm i hi)⟩
  · intro h d buffer
    rcases Nat.eq_zero_or_pos L with rfl | hpos
    · rw [print, readChunks_of_none (.inr (by omega))]
      rfl
    · obtain rfl | ⟨hdvd, hfinds⟩ := h
      · omega
      have hm : f.hdr.Maps (dataSectorsOf L) sec := fun i hi =>
        (hlists.byteToSector_iff hi).mpr (hfinds i hi)
      rw [print, readChunks_eq (Nat.pos_of_dvd_of_pos hdvd hpos) hL hm (Nat.zero_le _)
        (by simpa using hdvd) (by rw [hL, Int.toNat_natCast]; omega)]
      simp only [Nat.sub_zero, Nat.zero_add]

/-- `ReadAt` and loops of reads, for every file whose header lists its sectors. -/
theorem reads_iff {f : OpenFile} {L : ℕ} {sec : ℕ → Fin NumSectors} (hL : f.hdr.numBytes = L)
    (hlists : f.hdr.Lists (dataSectorsOf L) sec) :
    (∀ (position : ℕ) (numBytes : ℤ),
      ReadsRight f L sec position numBytes ↔ ReadFits f L sec position numBytes) ∧
    ∀ chunk, PrintsRight f L sec chunk ↔ L = 0 ∨ chunk ∣ L ∧
      ∀ i < dataSectorsOf L, NumDirect ≤ i → f.hdr.LastBlockHas i (sec i : ℕ) :=
  ⟨fun _ _ => readsRight_iff hL hlists, fun _ => printsRight_iff hL hlists⟩

def twoSectorsSec (i : ℕ) : Fin NumSectors := ⟨5 + i % 2, by unfold NumSectors; omega⟩

theorem lists_twoSectors : twoSectors.hdr.Lists (dataSectorsOf 200) twoSectorsSec := by
  intro i hi
  match i, hi with
  | 0, _ => rfl
  | 1, _ => rfl

/-- A read across the border of the sectors, and the file in chunks of ten bytes. -/
theorem reads_iff_twoSectors : ReadsRight twoSectors 200 twoSectorsSec 120 16 ∧
    PrintsRight twoSectors 200 twoSectorsSec 10 := by
  obtain ⟨hread, hprint⟩ := reads_iff (f := twoSectors) (L := 200) rfl lists_twoSectors
  refine ⟨(hread 120 16).mpr (.inr (.inr ⟨by decide, fun i _ hi hd => ?_⟩)),
    (hprint 10).mpr (.inr ⟨by decide, fun i hi hd => ?_⟩)⟩
  · unfold SectorSize NumDirect at *
    omega
  · have htwo : dataSectorsOf (200 : ℕ) = 2 := rfl
    unfold NumDirect at *
    omega

/-- A read past the end returns bytes that the file does not have, and so does a loop. -/
theorem exists_not_readsRight : twoSectors.hdr.Lists (dataSectorsOf 200) twoSectorsSec ∧
    ¬ ReadsRight twoSectors 200 twoSectorsSec 150 100 ∧
    ¬ PrintsRight twoSectors 200 twoSectorsSec 30 := by
  refine ⟨lists_twoSectors, fun h => ?_, fun h => ?_⟩
  · have hend : 150 + 100 ≤ 200 := (found_of_readsRight rfl (by decide) (by decide) h).1
    omega
  · obtain ⟨hdvd, -⟩ := found_of_printsRight (by decide) rfl h
    omega

end OpenFile

/-! ## Files that `Create` makes -/

section Allocated

variable {seq : ℕ → Fin NumSectors}

/-- For such a file a read is right if it stays in the direct sectors or there is one block at
most, which is not full. -/
theorem readFits_allocated_iff {numBytes : ℤ}
    (hf : f.hdr = FileHeader.zero.allocated L fun j => (seq j : ℕ))
    (hdist : Distinct (totalSectorsOf L) seq) (hzero : ∀ j, (seq j : ℕ) ≠ 0) :
    f.ReadFits L (fun i => seq (dataIndex i)) position numBytes ↔
      numBytes ≤ 0 ∨ L ≤ position ∨ position + numBytes ≤ L ∧
        (position + numBytes ≤ (NumDirect * SectorSize : ℕ) ∨
          dataSectorsOf L < NumDirect + MaxIndirectPointers) := by
  have hiff : ∀ i, i * SectorSize < L → NumDirect ≤ i →
      (f.hdr.LastBlockHas i (seq (dataIndex i) : ℕ) ↔
        dataSectorsOf L < NumDirect + MaxIndirectPointers) := by
    intro i hi hd
    rw [hf]
    exact lastBlockHas_allocated_iff hdist (fun j _ => hzero j) (OpenFile.lt_dataSectorsOf hi) hd
  constructor
  · rintro (hle | hge | ⟨hend, hfinds⟩)
    · exact .inl hle
    · exact .inr (.inl hge)
    · rcases le_or_gt numBytes 0 with hle | hpos
      · exact .inl hle
      rcases le_or_gt (position + numBytes) (NumDirect * SectorSize : ℕ) with hdirect | hbehind
      · exact .inr (.inr ⟨hend, .inl hdirect⟩)
      · -- the last sector of the read
        obtain ⟨i, hi⟩ : ∃ i, i = (position + numBytes.toNat - 1) / SectorSize := ⟨_, rfl⟩
        have hlast : position / SectorSize ≤ i ∧ (i * SectorSize : ℕ) < position + numBytes ∧
            NumDirect ≤ i := by
          unfold SectorSize NumDirect at *
          omega
        exact .inr (.inr ⟨hend, .inr ((hiff i (by omega) hlast.2.2).mp
          (hfinds i hlast.1 hlast.2.1 hlast.2.2))⟩)
  · rintro (hle | hge | ⟨hend, hok⟩)
    · exact .inl hle
    · exact .inr (.inl hge)
    · refine .inr (.inr ⟨hend, fun i _ hlt hd => ?_⟩)
      rcases hok with hdirect | hn
      · unfold SectorSize NumDirect at *
        omega
      · exact (hiff i (by omega) hd).mpr hn

end Allocated

end Nachos.Filesys
