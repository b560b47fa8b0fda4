import Nachos.Filesys.Allocated
import Nachos.Filesys.Extension

/-! # Headers that have grown

`ExtendFile` puts all new direct sectors into one entry, and a new block gets no
sector of its own. So it does what it is for when it adds one direct sector,
and in no other case: a header that was filled by `Allocate` and extended since
only records marked sectors, and the positions that it should have gained are
not found.
-/

namespace Nachos.Filesys

open Function Words Outcome

variable {d d' : Disk} {h h' mapHdr : FileHeader} {m m' : BitMap} {mapSec s : Fin NumSectors}
  {k n t : ℕ} {z : ℤ}

namespace FileHeader

/-! ## What is on the disk after `WriteBack` -/

theorem writeBlocks_other (hw : h.writeBlocks n d = .ok d')
    (hs : ∀ j, h.indirectSector j ≠ 0 → h.indirectSector j ≠ (s : ℕ)) : d' s = d s := by
  induction n generalizing d' with
  | zero =>
    cases hw
    rfl
  | succ n ih =>
    simp only [writeBlocks, bind_eq_ok] at hw
    obtain ⟨u, hu, sector, hsector, hw⟩ := hw
    obtain ⟨j, -, rfl⟩ := getAt_eq_ok.mp hsector
    split at hw
    case isTrue hj =>
      simp only [bind_eq_ok] at hw
      obtain ⟨b, -, hw⟩ := hw
      cases b with
      | none => cases hw
      | some b =>
        obtain ⟨y, hy, rfl⟩ := Disk.writeSector_eq_ok.mp hw
        have hne : s ≠ y := by
          rintro rfl
          exact hs j hj hy.symm
        rw [Disk.set_of_ne hne, ih hu]
    case isFalse =>
      cases hw
      exact ih hu

theorem writeBack_self (hw : h.writeBack (s : ℕ) d = .ok d')
    (hs : ∀ j, h.indirectSector j ≠ (s : ℕ)) :
    d' s = h.toSector := by
  rw [writeBack, Disk.writeSector_natCast, ok_bind] at hw
  split at hw
  · rw [writeBlocks_other hw fun j _ => hs j, Disk.set_self]
  · cases hw
    exact Disk.set_self

theorem fetchBlocks_unset (hf : h.fetchBlocks d n = .ok h') {j : Fin NumInDirect}
    (hj : h.indirectSector j = 0) : h'.indirectPointers j = h.indirectPointers j := by
  induction n generalizing h' with
  | zero =>
    cases hf
    rfl
  | succ n ih =>
    simp only [fetchBlocks, bind_eq_ok] at hf
    obtain ⟨u, hu, sector, hsector, hf⟩ := hf
    obtain ⟨i, hi, rfl⟩ := getAt_eq_ok.mp hsector
    split at hf
    case isTrue hne =>
      simp only [bind_eq_ok] at hf
      obtain ⟨b, -, ps, hps, hf⟩ := hf
      obtain ⟨i', hi', rfl⟩ := setAt_eq_ok.mp hps
      obtain rfl : i' = i := Fin.ext (by omega)
      cases hf
      have hne' : j ≠ i' := by
        rintro rfl
        rw [fetchBlocks_eq_ok hu] at hne
        exact hne hj
      exact (update_of_ne hne' ..).trans (ih hu)
    case isFalse =>
      cases hf
      exact ih hu

theorem fetchFrom_self (hs : h.IsStored) (hd : d s = h.toSector)
    (hf : fetchFrom (s : ℕ) d = .ok h') :
    h' = { h with indirectPointers := h'.indirectPointers } ∧
      ∀ j, h.indirectSector j = 0 → h'.indirectPointers j = none := by
  rw [fetchFrom, Disk.readSector_natCast, ok_bind, hd, ofSector_toSector hs] at hf
  dsimp only at hf
  split at hf
  · refine ⟨?_, fun j hj => fetchBlocks_unset hf hj⟩
    rw [fetchBlocks_eq_ok hf]
  · cases hf
    exact ⟨rfl, fun _ _ => rfl⟩

/-! ## Headers from `Allocate` and `ExtendFile` -/

def Records (h : FileHeader) (z : ℤ) : Prop :=
  (∃ i, h.dataSectors i = z) ∨ (∃ j, h.indirectSector j = z) ∨
    ∃ j b l, h.indirectPointers j = some b ∧ b.dataSectors l = z

/-- The header that `Allocate` has filled for a file with its header in sector `s`, and `ExtendFile`
has extended since. In between the disk may change, while the sectors of the header stay marked in
the free map. -/
inductive Obtained (mapHdr : FileHeader) (mapSec s : Fin NumSectors) :
    FileHeader → BitMap → Disk → Prop
  | allocate {m m' : BitMap} {size : ℤ} {h : FileHeader} {d : Disk} :
    m.test 0 = true → m.test s = true → ((s : ℕ) : ℤ) ≠ FreeMapSector →
    zero.allocate m size = .ok (true, h, m') →
    MapOnDisk mapHdr mapSec m' d → Obtained mapHdr mapSec s h m' d
  | extendFile {m m' : BitMap} {h h' : FileHeader} {d d' : Disk} {t : ℕ} {success : Bool} :
    Obtained mapHdr mapSec s h m d →
    h.extendFile (OpenFile.writeAt OpenFile.WriteDepth) t d = .ok (success, h', d') →
    MapOnDisk mapHdr mapSec m' d' → Obtained mapHdr mapSec s h' m' d'
  | disk {m m' : BitMap} {h : FileHeader} {d d' : Disk} :
    Obtained mapHdr mapSec s h m d → MapOnDisk mapHdr mapSec m' d' → m'.test 0 = true →
    (∀ z, h.Records z → 0 ≤ z → m'.test z.toNat = true) → Obtained mapHdr mapSec s h m' d'

def Marked (m : BitMap) (z : ℤ) : Prop := IsInt z ∧ (0 ≤ z → z < NumSectors ∧ m.test z.toNat = true)

theorem Marked.after (hz : Marked m z) : Marked (m.after n) z := by
  refine ⟨hz.1, fun h₀ => ⟨(hz.2 h₀).1, ?_⟩⟩
  rw [BitMap.test_after, (hz.2 h₀).2, Bool.true_or]

theorem marked_zero (hm : m.test 0 = true) : Marked m 0 :=
  ⟨⟨by decide, by decide⟩, fun _ => ⟨by decide, hm⟩⟩

theorem marked_nth (hm : m.numBits = NumSectors) (hk : k < n) : Marked (m.after n) (m.nth k) := by
  refine ⟨isInt_nth hm, fun h₀ => ?_⟩
  rcases Nat.lt_or_ge k m.numClear with hlt | hge
  · obtain ⟨a, ha, hka, -⟩ := BitMap.exists_nth hlt
    rw [hka, Int.toNat_natCast, BitMap.test_after]
    have hmem : a ∈ m.clearBits.take n := by
      rw [BitMap.numClear_eq_length] at hlt
      rw [BitMap.nth_of_lt hlt, Int.natCast_inj] at hka
      rw [← hka]
      exact List.mem_take_iff_getElem.mpr ⟨k, by omega, rfl⟩
    exact ⟨by omega, by simp [hmem]⟩
  · rw [BitMap.nth_eq_neg_one_iff.mpr hge] at h₀
    exact absurd h₀ (by decide)

structure Kept (s : Fin NumSectors) (h : FileHeader) (m : BitMap) : Prop where
  zero : m.test 0 = true
  marked : ∀ z, h.Records z → Marked m z
  nonneg : 0 ≤ h.numSectors
  /-- Behind the last sector no block has a sector. -/
  noSector : ∀ j : Fin NumInDirect, h.numSectors ≤ NumDirect + (j : ℕ) → h.indirectSector j = 0
  unset : h.numSectors ≤ NumDirect → ∀ j, h.indirectPointers j = none
  numBytes : IsInt h.numBytes
  header : ∀ j, h.indirectSector j ≠ (s : ℕ)

theorem numEntries_le_self : numEntries n ≤ n := by
  unfold numEntries divRoundUp PointersPerIndirect NumDirect
  split <;> omega

theorem records_allocated {size : ℤ} {seq : ℕ → ℤ} (hz : (zero.allocated size seq).Records z) :
    z = 0 ∨ ∃ k < totalSectorsOf size, z = seq k := by
  have hle := numEntries_le_self (n := dataSectorsOf size)
  have hdata : dataSectorsOf size ≤ totalSectorsOf size := dataSectorsOf_le_total
  rcases hz with ⟨i, rfl⟩ | ⟨j, rfl⟩ | ⟨j, b, l, hb, rfl⟩
  · simp only [allocated, filled]
    split
    · exact .inr ⟨i, by omega, rfl⟩
    · exact .inl rfl
  · simp only [allocated, filled]
    split
    case isTrue hj => exact .inr ⟨_, takenBefore_lt hj, rfl⟩
    case isFalse => exact .inl rfl
  · simp only [allocated, filled] at hb
    split at hb
    case isFalse => cases hb
    case isTrue hj =>
      cases hb
      simp only [foundBlock]
      split
      case isFalse => exact .inl rfl
      case isTrue hl =>
        refine .inr ⟨_, ?_, rfl⟩
        have hnext := takenBefore_mono (n := dataSectorsOf size)
          (show NumDirect + j + 1 ≤ numEntries (dataSectorsOf size) from hj)
        rw [takenBefore_numEntries, ← totalSectorsOf] at hnext
        have hmono : dataBefore (dataSectorsOf size) (NumDirect + j) ≤
            dataBefore (dataSectorsOf size) (NumDirect + j + 1) := by
          unfold dataBefore NumDirect MaxIndirectPointers
          omega
        rw [takenBefore] at hnext ⊢
        omega

theorem kept_allocated {size : ℤ} (hm : m.numBits = NumSectors) (h₀ : 0 ≤ size)
    (h₁ : size ≤ MaxFileSize) (hzero : m.test 0 = true) (hs : m.test s = true)
    (hs₀ : ((s : ℕ) : ℤ) ≠ FreeMapSector) :
    Kept s (FileHeader.zero.allocated size m.nth) (m.after (totalSectorsOf size)) where
  zero := by rw [BitMap.test_after, hzero, Bool.true_or]
  marked z hz := by
    rcases records_allocated hz with rfl | ⟨k, hk, rfl⟩
    · exact (marked_zero hzero).after
    · exact marked_nth hm hk
  nonneg := Int.natCast_nonneg _
  noSector j hj := by
    have hle := numEntries_le_self (n := dataSectorsOf size)
    simp only [allocated, filled] at hj ⊢
    rw [if_neg (by omega)]
    rfl
  unset hle j := by
    have hle' := numEntries_le_self (n := dataSectorsOf size)
    simp only [allocated, filled] at hle ⊢
    rw [if_neg (by omega)]
    rfl
  numBytes := by
    change IsInt size
    unfold MaxFileSize NumDirect NumInDirect MaxIndirectPointers SectorSize at h₁
    exact ⟨by omega, by omega⟩
  header j := by
    rcases records_allocated (.inr (.inl ⟨j, rfl⟩)) with hz | ⟨k, hk, hz⟩
    · rw [hz]
      exact hs₀.symm
    · rw [hz]
      intro he
      rcases Nat.lt_or_ge k m.numClear with hlt | hge
      · obtain ⟨a, -, hka, htest⟩ := BitMap.exists_nth hlt
        obtain rfl : a = s := by omega
        rw [hs] at htest
        cases htest
      · rw [BitMap.nth_eq_neg_one_iff.mpr hge] at he
        omega

/-- The header after `ExtendFile` has the old entries and the new sectors. -/
theorem records_extendedBy {seq : ℕ → ℤ} (hpos : 0 < n) (hz : (h.extendedBy k n seq).Records z) :
    h.Records z ∨ z = 0 ∨ ∃ i < n, z = seq i := by
  have hearlier : earlier n < n := by
    unfold earlier MaxIndirectPointers
    omega
  unfold extendedBy at hz
  split at hz
  · rcases hz with ⟨i, rfl⟩ | hz
    · dsimp only
      split
      · exact .inr (.inr ⟨n - 1, by omega, rfl⟩)
      · exact .inl (.inl ⟨i, rfl⟩)
    · exact .inl (.inr hz)
  · rcases hz with hz | hz | ⟨j, b, l, hb, rfl⟩
    · exact .inl (.inl hz)
    · exact .inl (.inr (.inl hz))
    · dsimp only at hb
      split at hb
      · cases hb
        simp only [foundBlock]
        split
        · exact .inr (.inr ⟨_, by omega, rfl⟩)
        · exact .inr (.inl rfl)
      · exact .inl (.inr (.inr ⟨j, b, l, hb, rfl⟩))

theorem numSectors_extendedBy {seq : ℕ → ℤ} : (h.extendedBy k n seq).numSectors = k + n := by
  unfold extendedBy
  split <;> rfl

theorem indirectSector_extendedBy {seq : ℕ → ℤ} :
    (h.extendedBy k n seq).indirectSector = h.indirectSector := by
  unfold extendedBy
  split <;> rfl

theorem numBytes_extendedBy {seq : ℕ → ℤ} : (h.extendedBy k n seq).numBytes = h.numBytes := by
  unfold extendedBy
  split <;> rfl

theorem Kept.extendedBy (hk : Kept s h m) (hm : m.numBits = NumSectors) (hnum : h.numSectors = k)
    (hpos : 0 < n) : Kept s (h.extendedBy k n m.nth) (m.after n) where
  zero := by rw [BitMap.test_after, hk.zero, Bool.true_or]
  marked z hz := by
    rcases records_extendedBy hpos hz with hz | rfl | ⟨i, hi, rfl⟩
    · exact (hk.marked z hz).after
    · exact (marked_zero hk.zero).after
    · exact marked_nth hm hi
  nonneg := by
    rw [numSectors_extendedBy]
    omega
  noSector j hj := by
    rw [numSectors_extendedBy] at hj
    rw [indirectSector_extendedBy]
    exact hk.noSector j (by omega)
  unset hle := by
    rw [numSectors_extendedBy] at hle
    rw [FileHeader.extendedBy, if_pos (by omega)]
    exact hk.unset (by omega)
  numBytes := by
    rw [numBytes_extendedBy]
    exact hk.numBytes
  header j := by
    rw [indirectSector_extendedBy]
    exact hk.header j

/-- `ExtendFile` returns without a change, or with more sectors that were found in the free map. -/
theorem extendFile_cases (hm : MapOnDisk mapHdr mapSec m d)
    (h₀ : ((mapSec : ℕ) : ℤ) ≠ FreeMapSector) (hk : h.numSectors = k) (depth : ℕ) {success : Bool}
    (hh : h.extendFile (OpenFile.writeAt (depth + 1)) t d = .ok (success, h', d')) :
    (h' = h ∧ d' = d) ∨
      k < t ∧ k < NumDirect + NumInDirect ∧ t - k ≤ m.numClear ∧ h' = h.extendedBy k (t - k) m.nth ∧
        MapOnDisk mapHdr mapSec (m.after (t - k)) d' ∧ d.Frame {((mapSec : ℕ) : ℤ)} d' := by
  rcases Nat.lt_or_ge k t with hkt | hkt
  · rcases Nat.lt_or_ge m.numClear (t - k) with hfull | hfree
    · rw [extendFile_full hm (by omega)] at hh
      cases hh
      exact .inl ⟨rfl, rfl⟩
    · rcases Nat.lt_or_ge k (NumDirect + NumInDirect) with hlt | hge
      · obtain ⟨d₁, hd₁, hm₁, hframe⟩ := exists_extendFile hm h₀ hk hkt hlt hfree depth
        rw [hd₁] at hh
        cases hh
        exact .inr ⟨hkt, hlt, hfree, rfl, hm₁, hframe⟩
      · rw [extendFile_error hm hk hkt hge hfree] at hh
        cases hh
  · rw [extendFile_of_le (by omega)] at hh
    cases hh
    exact .inl ⟨rfl, rfl⟩

theorem Obtained.mapOnDisk (ho : Obtained mapHdr mapSec s h m d) : MapOnDisk mapHdr mapSec m d := by
  cases ho with
  | allocate _ _ _ _ hm => exact hm
  | extendFile _ _ hm => exact hm
  | disk _ hm _ _ => exact hm

theorem Obtained.kept (h₀ : ((mapSec : ℕ) : ℤ) ≠ FreeMapSector)
    (ho : Obtained mapHdr mapSec s h m d) :
    Kept s h m := by
  induction ho with
  | @allocate m m' size h d hzero hs hs₀ hh hm =>
    by_cases hsize : size < 0 ∨ MaxFileSize < size ∨ m.numClear < dataSectorsOf size
    · obtain ⟨h', hh'⟩ := allocate_eq_false (h := FileHeader.zero) hsize
      rw [hh'] at hh
      cases hh
    · simp only [not_or, Int.not_lt, Nat.not_lt] at hsize
      rw [allocate_eq_true hsize.1 hsize.2.1 hsize.2.2] at hh
      cases hh
      have hbits := hm.numBits
      rw [BitMap.numBits_after] at hbits
      exact kept_allocated hbits hsize.1 hsize.2.1 hzero hs hs₀
  | @extendFile m m' h h' d d' t success ho hh hm ih =>
    obtain ⟨k, hk⟩ := Int.eq_ofNat_of_zero_le ih.nonneg
    rcases extendFile_cases ho.mapOnDisk h₀ hk 1 hh with ⟨rfl, rfl⟩ | ⟨hkt, -, -, rfl, hm₁, -⟩
    · rwa [hm.unique ho.mapOnDisk]
    · rw [hm.unique hm₁]
      exact ih.extendedBy ho.mapOnDisk.numBits hk (by omega)
  | @disk m m' h d d' ho hm hzero hmarked ih =>
    exact { ih with
      zero := hzero
      marked := fun z hz => ⟨(ih.marked z hz).1,
        fun h₀ => ⟨((ih.marked z hz).2 h₀).1, hmarked z hz h₀⟩⟩ }

/-! ## Looking sectors up -/

theorem byteToSector_mul {i : ℕ} (hi : i < NumDirect) :
    h.byteToSector (i * SectorSize) = .ok (h.dataSectors ⟨i, hi⟩) := by
  rw [byteToSector, Nat.mul_div_cancel _ sectorSize_pos]
  dsimp only
  rw [if_pos hi, getAt_natCast hi]

theorem byteToSector_eq_ok {i : ℕ} (hi : NumDirect ≤ i)
    (hz : h.byteToSector (i * SectorSize) = .ok z) :
    ∃ (j : Fin NumInDirect) (b : IndirectPointerBlock) (l : Fin MaxIndirectPointers),
      ((j : ℕ) : ℤ) = (h.numSectors - NumDirect) / PointersPerIndirect ∧ NumDirect + (l : ℕ) = i ∧
        h.indirectPointers j = some b ∧ b.dataSectors l = z := by
  rw [byteToSector, Nat.mul_div_cancel _ sectorSize_pos] at hz
  dsimp only at hz
  rw [if_neg (by omega)] at hz
  split at hz
  · cases hz
  · rw [bind_eq_ok] at hz
    obtain ⟨b, hb, hz⟩ := hz
    obtain ⟨j, hj, hptr⟩ := getAt_eq_ok.mp hb
    cases b with
    | none => cases hz
    | some b =>
      obtain ⟨l, hl, hz⟩ := getAt_eq_ok.mp hz
      rw [Nat.mul_comm SectorSize, ← Nat.sub_mul, Nat.mul_div_cancel _ sectorSize_pos] at hl
      exact ⟨j, b, l, hj, by omega, hptr, hz⟩

theorem Kept.isStored (hk : Kept s h m) (hnum : IsInt h.numSectors) : h.IsStored :=
  isStored_iff.mpr ⟨hk.numBytes, hnum, fun i => (hk.marked _ (.inl ⟨i, rfl⟩)).1,
    fun j => (hk.marked _ (.inr (.inl ⟨j, rfl⟩))).1⟩

theorem Kept.test_of_records (hk : Kept s h m) {y : Fin NumSectors} (hy : h.Records (y : ℕ)) :
    m.test y = true := by
  obtain ⟨-, hmarked⟩ := (hk.marked _ hy).2 (Int.natCast_nonneg _)
  rwa [Int.toNat_natCast] at hmarked

/-! ## What `ExtendFile` does -/

/-- `ExtendFile` gives `t` sectors to a file that has `k`: the old ones stay where they are, the new
ones were clear, the free map on disk gains the sectors of the file, and the header can be written
and read. -/
def ExtendsTo (mapHdr : FileHeader) (mapSec s : Fin NumSectors) (h : FileHeader) (m : BitMap)
    (d : Disk) (k t : ℕ) : Prop :=
  ∃ h' m' d', h.extendFile (OpenFile.writeAt OpenFile.WriteDepth) t d = .ok (true, h', d') ∧
    MapOnDisk mapHdr mapSec m' d' ∧ h'.numSectors = t ∧
    (∀ i < k, h'.byteToSector (i * SectorSize) = h.byteToSector (i * SectorSize)) ∧
    (∃ sec : ℕ → Fin NumSectors, Distinct (t - k) sec ∧ ∀ i < t - k,
      h'.byteToSector ((k + i) * SectorSize) = .ok (sec i : ℕ) ∧ m.test (sec i) = false) ∧
    (∀ a, m'.test a = (m.test a || decide ((a : ℤ) ∈ h'.sectors))) ∧
    ∃ d'' h'', h'.writeBack (s : ℕ) d' = .ok d'' ∧ fetchFrom (s : ℕ) d'' = .ok h'' ∧
      ∀ i < t, h''.byteToSector (i * SectorSize) = h'.byteToSector (i * SectorSize)

/-- The second of two new sectors is looked up where an old entry is, or in a block that is not
set. -/
theorem not_clear_extendedBy_direct (hk : Kept s h m) (hnum : h.numSectors = k)
    (hlt : k < NumDirect) {seq : ℕ → ℤ} {y : Fin NumSectors}
    (hy : (h.extendedBy k n seq).byteToSector ((k + 1) * SectorSize) = .ok (y : ℕ)) :
    m.test y = true := by
  rw [extendedBy, if_pos hlt] at hy
  rcases Nat.lt_or_ge (k + 1) NumDirect with hd | hd
  · rw [byteToSector_mul hd] at hy
    have hentry : h.dataSectors ⟨k + 1, hd⟩ = (y : ℕ) := by simpa using Except.ok.inj hy
    exact hk.test_of_records (.inl ⟨_, hentry⟩)
  · obtain ⟨j, b, -, -, -, hptr, -⟩ := byteToSector_eq_ok hd hy
    rw [hk.unset (by omega) j] at hptr
    cases hptr

/-- A new sector behind the direct ones is in the new block, and this block is not read back. -/
theorem not_extendedBy_block (hk : Kept s h m) (hm : m.numBits = NumSectors)
    (hnum : h.numSectors = k) (hge : NumDirect ≤ k) (hkt : k < t)
    (ht : t ≤ NumDirect + NumInDirect * MaxIndirectPointers) {y : Fin NumSectors} {d'' : Disk}
    {h'' : FileHeader}
    (hy : (h.extendedBy k (t - k) m.nth).byteToSector (k * SectorSize) = .ok (y : ℕ))
    (hclear : m.test y = false)
    (hw : (h.extendedBy k (t - k) m.nth).writeBack (s : ℕ) d' = .ok d'')
    (hf : fetchFrom (s : ℕ) d'' = .ok h'') : h''.byteToSector (k * SectorSize) ≠ .ok (y : ℕ) := by
  intro hc
  have hk' := hk.extendedBy hm hnum (n := t - k) (by omega)
  have hnum' : (h.extendedBy k (t - k) m.nth).numSectors = t := by
    rw [numSectors_extendedBy]
    omega
  have hint : IsInt (h.extendedBy k (t - k) m.nth).numSectors := by
    rw [hnum']
    unfold NumDirect NumInDirect MaxIndirectPointers at ht
    exact ⟨by omega, by omega⟩
  obtain ⟨heq, hunset⟩ := fetchFrom_self (hk'.isStored hint) (writeBack_self hw hk'.header) hf
  obtain ⟨j, b, l, hj, -, hptr, hl⟩ := byteToSector_eq_ok hge hy
  obtain ⟨j', b', -, hj', -, hptr', -⟩ := byteToSector_eq_ok hge hc
  obtain rfl : j' = j := by
    rw [heq] at hj'
    dsimp only at hj'
    exact Fin.ext (by omega)
  by_cases hjk : NumDirect + (j' : ℕ) = k
  · rw [hunset j' (by rw [indirectSector_extendedBy]; exact hk.noSector j' (by omega))] at hptr'
    cases hptr'
  · rw [extendedBy, if_neg (by omega)] at hptr
    dsimp only at hptr
    rw [if_neg hjk] at hptr
    rw [hk.test_of_records (.inr (.inr ⟨j', b, l, hptr, hl⟩))] at hclear
    cases hclear

theorem mem_sectors_of_le (hnum : h.numSectors = n) (hn : n ≤ NumDirect) :
    z ∈ h.sectors ↔ ∃ i : Fin NumDirect, (i : ℕ) < n ∧ h.dataSectors i = z := by
  rw [sectors, entries, indirects_of_le (by omega), hnum, Int.toNat_natCast, Nat.min_eq_left hn,
    Nat.add_zero, List.mem_flatMap]
  constructor
  · rintro ⟨i, hi, hz⟩
    have hlt : i < NumDirect := Nat.lt_of_lt_of_le (List.mem_range.mp hi) hn
    rw [entrySectors, dif_pos hlt, List.mem_singleton] at hz
    exact ⟨⟨i, hlt⟩, List.mem_range.mp hi, hz.symm⟩
  · rintro ⟨i, hi, rfl⟩
    refine ⟨i, List.mem_range.mpr hi, ?_⟩
    rw [entrySectors, dif_pos i.isLt, List.mem_singleton]

theorem extendsTo_succ (hk : Kept s h m) (hm : MapOnDisk mapHdr mapSec m d)
    (h₀ : ((mapSec : ℕ) : ℤ) ≠ FreeMapSector) (hnum : h.numSectors = k) (hlt : k < NumDirect)
    (hfree : 0 < m.numClear) : ExtendsTo mapHdr mapSec s h m d k (k + 1) := by
  obtain ⟨d', hd', hm', -⟩ := exists_extendFile hm h₀ hnum (Nat.lt_succ_self k)
    (Nat.lt_of_lt_of_le hlt (Nat.le_add_right ..)) (by omega) 1
  obtain ⟨a, ha, hna, htest⟩ := BitMap.exists_nth hfree
  rw [hm.numBits] at ha
  have hone : k + 1 - k = 1 := by omega
  rw [hone] at hd' hm'
  have hk' := hk.extendedBy hm.numBits hnum (n := 1) (by omega)
  have hnum' : (h.extendedBy k 1 m.nth).numSectors = (k + 1 : ℕ) := numSectors_extendedBy
  have hentry : ∀ (i : ℕ) (hi : i < NumDirect), (h.extendedBy k 1 m.nth).dataSectors ⟨i, hi⟩ =
      if i = k then m.nth 0 else h.dataSectors ⟨i, hi⟩ := by
    intro i hi
    rw [extendedBy, if_pos hlt]
  have hint : IsInt (h.extendedBy k 1 m.nth).numSectors := by
    rw [hnum']
    unfold NumDirect at hlt
    exact ⟨by omega, by omega⟩
  have hblocks : (h.extendedBy k 1 m.nth).HasBlocks :=
    hasBlocks_of_le (hk'.isStored hint) (by rw [hnum']; omega) (hk'.unset (by rw [hnum']; omega))
  have hzero : (h.extendedBy k 1 m.nth).indirects = 0 := indirects_of_le (by rw [hnum']; omega)
  obtain ⟨d'', hd'', hfetch, -⟩ := exists_writeBack (d := d') (s := s) hblocks
    fun i hi => absurd hi (by rw [hzero]; exact Nat.not_lt_zero _)
  refine ⟨_, _, d', hd', hm', hnum', fun i hi => ?_, ⟨fun _ => ⟨a, ha⟩, ?_, fun i hi => ?_⟩,
    fun b => ?_, d'', _, hd'', hfetch, fun _ _ => rfl⟩
  · rw [byteToSector_mul (by omega), byteToSector_mul (by omega), hentry, if_neg (by omega)]
  · intro i hi j hj _
    omega
  · obtain rfl : i = 0 := by omega
    rw [Nat.add_zero, byteToSector_mul hlt, hentry, if_pos rfl, hna]
    exact ⟨rfl, htest⟩
  · rw [BitMap.test_after]
    cases hb : m.test b with
    | true => rfl
    | false =>
      -- of the sectors of the file only the new one was clear
      have hiff : b ∈ m.clearBits.take 1 ↔ (b : ℤ) ∈ (h.extendedBy k 1 m.nth).sectors := by
        rw [← BitMap.mem_map_nth hfree, mem_sectors_of_le hnum' hlt]
        constructor
        · intro hmem
          refine ⟨⟨k, hlt⟩, Nat.lt_succ_self k, ?_⟩
          have hb' : (b : ℤ) = m.nth 0 := by simpa using hmem
          rw [hentry, if_pos rfl, hb']
        · rintro ⟨i, hi, hz⟩
          rw [hentry] at hz
          split at hz
          · simp [hz]
          · have hlow : b < NumSectors := by
              have := ((hk.marked _ (.inl ⟨i, hz⟩)).2 (Int.natCast_nonneg b)).1
              omega
            rw [hk.test_of_records (y := ⟨b, hlow⟩) (.inl ⟨i, hz⟩)] at hb
            cases hb
      simp [hiff]

theorem not_extendsTo_direct (ho : Obtained mapHdr mapSec s h m d)
    (h₀ : ((mapSec : ℕ) : ℤ) ≠ FreeMapSector) (hnum : h.numSectors = k) (hlt : k < NumDirect)
    (ht : k + 1 < t) : ¬ ExtendsTo mapHdr mapSec s h m d k t := by
  rintro ⟨h', m', d', hh, -, hnum', -, ⟨sec, -, hsec⟩, -⟩
  rcases extendFile_cases ho.mapOnDisk h₀ hnum 1 hh with ⟨rfl, rfl⟩ | ⟨-, -, -, rfl, -⟩
  · omega
  · obtain ⟨hz, hclear⟩ := hsec 1 (by omega)
    rw [not_clear_extendedBy_direct (ho.kept h₀) hnum hlt hz] at hclear
    cases hclear

theorem not_extendsTo_block (ho : Obtained mapHdr mapSec s h m d)
    (h₀ : ((mapSec : ℕ) : ℤ) ≠ FreeMapSector) (hnum : h.numSectors = k) (hge : NumDirect ≤ k)
    (hkt : k < t) (ht : t ≤ NumDirect + NumInDirect * MaxIndirectPointers) :
    ¬ ExtendsTo mapHdr mapSec s h m d k t := by
  rintro ⟨h', m', d', hh, -, hnum', -, ⟨sec, -, hsec⟩, -, d'', h'', hw, hf, hmapped⟩
  rcases extendFile_cases ho.mapOnDisk h₀ hnum 1 hh with ⟨rfl, rfl⟩ | ⟨-, -, -, rfl, -⟩
  · omega
  · obtain ⟨hz, hclear⟩ := hsec 0 (by omega)
    rw [Nat.add_zero] at hz
    exact not_extendedBy_block (ho.kept h₀) ho.mapOnDisk.numBits hnum hge hkt ht hz hclear hw hf
      ((hmapped k hkt).trans hz)

/-- `ExtendFile` adds one direct sector as it should, and fails at every other extension. -/
theorem extendsTo_iff (ho : Obtained mapHdr mapSec s h m d)
    (h₀ : ((mapSec : ℕ) : ℤ) ≠ FreeMapSector) (hnum : h.numSectors = k) (hkt : k < t)
    (ht : t ≤ NumDirect + NumInDirect * MaxIndirectPointers) (hfree : t - k ≤ m.numClear) :
    ExtendsTo mapHdr mapSec s h m d k t ↔ k < NumDirect ∧ t = k + 1 := by
  constructor
  · intro he
    rcases Nat.lt_or_ge k NumDirect with hlt | hge
    · refine ⟨hlt, ?_⟩
      by_contra hne
      exact not_extendsTo_direct ho h₀ hnum hlt (by omega) he
    · exact absurd he (not_extendsTo_block ho h₀ hnum hge hkt ht)
  · rintro ⟨hlt, rfl⟩
    exact extendsTo_succ (ho.kept h₀) ho.mapOnDisk h₀ hnum hlt (by omega)

def threeMarked : BitMap := (((BitMap.ofSize NumSectors).mark 0).mark 1).mark 2

theorem numClear_threeMarked : threeMarked.numClear = 1021 := by
  have h₁ := BitMap.numClear_mark (b := BitMap.ofSize NumSectors) (i := 0) (by decide) (by decide)
  have h₂ :=
    BitMap.numClear_mark (b := (BitMap.ofSize NumSectors).mark 0) (i := 1) (by decide) (by decide)
  have h₃ :=
    BitMap.numClear_mark (b := ((BitMap.ofSize NumSectors).mark 0).mark 1) (i := 2) (by decide)
    (by decide)
  have h₄ : NumSectors = 1024 := rfl
  rw [numClear_ofSize] at h₁
  unfold threeMarked
  omega

theorem isFreeMap_threeMarked : threeMarked.IsFreeMap :=
  ((BitMap.isFreeMap_ofSize.mark (by decide)).mark (by decide)).mark (by decide)

theorem exists_obtained :
    ∃ (mapHdr : FileHeader) (mapSec s : Fin NumSectors) (h : FileHeader) (m : BitMap)
    (d : Disk), Obtained mapHdr mapSec s h m d ∧ ((mapSec : ℕ) : ℤ) ≠ FreeMapSector ∧
      h.numSectors = 1 ∧
      2 ≤ m.numClear := by
  have hall : zero.allocate threeMarked 128 =
      .ok (true, zero.allocated 128 threeMarked.nth, threeMarked.after 1) :=
    allocate_eq_true (by decide) (by decide) (by rw [numClear_threeMarked]; decide)
  have h₀ : (((⟨1, by decide⟩ : Fin NumSectors) : ℕ) : ℤ) ≠ FreeMapSector := by decide
  obtain ⟨mapHdr, d, hmap⟩ := exists_mapOnDisk (isFreeMap_threeMarked.after (k := 1)) h₀
  refine ⟨mapHdr, _, ⟨2, by decide⟩, zero.allocated 128 threeMarked.nth, threeMarked.after 1, d,
    .allocate (by decide) ?_ ?_ hall hmap, h₀, rfl, ?_⟩
  · decide
  · decide
  · rw [BitMap.numClear_after, numClear_threeMarked]
    decide

theorem extendsTo_iff_one : ∃ (mapHdr : FileHeader) (mapSec s : Fin NumSectors) (h : FileHeader)
    (m : BitMap) (d : Disk),
      Obtained mapHdr mapSec s h m d ∧ ExtendsTo mapHdr mapSec s h m d 1 2 := by
  obtain ⟨mapHdr, mapSec, s, h, m, d, ho, h₀, hnum, hclear⟩ := exists_obtained
  exact ⟨mapHdr, mapSec, s, h, m, d, ho,
    (extendsTo_iff ho h₀ hnum (by decide) (by decide) (by omega)).mpr ⟨by decide, rfl⟩⟩

/-- A file of one sector does not get two more. -/
theorem exists_not_extendsTo : ∃ (mapHdr : FileHeader) (mapSec s : Fin NumSectors) (h : FileHeader)
    (m : BitMap) (d : Disk), Obtained mapHdr mapSec s h m d ∧ ((mapSec : ℕ) : ℤ) ≠ FreeMapSector ∧
      h.numSectors = (1 : ℕ) ∧ 3 - 1 ≤ m.numClear ∧ ¬ ExtendsTo mapHdr mapSec s h m d 1 3 := by
  obtain ⟨mapHdr, mapSec, s, h, m, d, ho, h₀, hnum, hclear⟩ := exists_obtained
  exact ⟨mapHdr, mapSec, s, h, m, d, ho, h₀, hnum, hclear,
    not_extendsTo_direct ho h₀ hnum (by decide) (by decide)⟩

end FileHeader

end Nachos.Filesys
