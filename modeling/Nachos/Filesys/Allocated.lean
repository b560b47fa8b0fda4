import Nachos.Filesys.Ownership

/-! # Headers that `Allocate` fills

`Allocate` tests for the data sectors and not for the blocks, `Deallocate`
clears other bits than those that were found, and `ByteToSector` takes the
block of the last sector for every sector: each of them is right for some sizes
and free maps, which are determined here. `WriteBack` and `FetchFrom` agree for
every size.
-/

namespace Nachos

open Function

/-! ## Clearing what was found -/

namespace BitMap

variable {m m' : BitMap} {l : List ℤ} {i k n : ℕ}

theorem ext_test (hn : m.numBits = m'.numBits) (h : ∀ i, m.test i = m'.test i) : m = m' := by
  obtain ⟨numBits, map⟩ := m
  obtain ⟨numBits', map'⟩ := m'
  obtain rfl : numBits = numBits' := hn
  refine congrArg (BitMap.mk numBits) (funext fun w => BitVec.eq_of_getLsbD_eq fun j hj => ?_)
  have hbit := h (BitsInWord * w + j)
  rw [test_eq, test_eq] at hbit
  simpa [BitsInWord, Nat.mul_add_div, Nat.div_eq_of_lt hj, Nat.mod_eq_of_lt hj] using hbit

theorem test_clearAll :
    (m.clearAll l).test i = (m.test i && !decide (i ∈ l.map Int.toNat)) := by
  induction l generalizing m with
  | nil => simp [clearAll]
  | cons z l ih =>
    change ((m.clear z.toNat).clearAll l).test i = _
    rw [ih, test_clear]
    by_cases hz : z.toNat = i
    · simp [hz]
    · simp [hz, Ne.symm hz]

theorem map_nth (hn : n ≤ m.numClear) :
    ((List.range n).map m.nth).map Int.toNat = m.clearBits.take n := by
  rw [numClear_eq_length] at hn
  refine List.ext_getElem (by simp [hn]) fun j h₁ h₂ => ?_
  have hj : j < n := by simpa using h₁
  simp [nth_of_lt (Nat.lt_of_lt_of_le hj hn)]

theorem mem_map_nth (hn : n ≤ m.numClear) :
    (i : ℤ) ∈ (List.range n).map m.nth ↔ i ∈ m.clearBits.take n := by
  rw [← map_nth hn, List.mem_map (f := Int.toNat)]
  constructor
  · intro h
    exact ⟨i, h, Int.toNat_natCast i⟩
  · rintro ⟨z, hz, rfl⟩
    obtain ⟨j, hj, rfl⟩ := List.mem_map.mp hz
    obtain ⟨a, -, ha, -⟩ := exists_nth (Nat.lt_of_lt_of_le (List.mem_range.mp hj) hn)
    rw [ha] at hz ⊢
    exact hz

theorem clearAll_after (hn : n ≤ m.numClear) :
    (m.after n).clearAll ((List.range n).map m.nth) = m := by
  refine ext_test (by rw [numBits_clearAll, numBits_after]) fun i => ?_
  rw [test_clearAll, map_nth hn, test_after]
  by_cases hi : i ∈ m.clearBits.take n
  · have := (mem_clearBits.mp (List.mem_of_mem_take hi)).2
    simp [hi, this]
  · simp [hi]

end BitMap

namespace Filesys.FileHeader

open Outcome BitMap

variable {d : Disk} {h h' : FileHeader} {m m' : BitMap} {s : Fin NumSectors} {size : ℤ} {i j n : ℕ}

theorem takenBefore_mono (h : i ≤ j) : takenBefore n i ≤ takenBefore n j := by
  unfold takenBefore dataBefore NumDirect MaxIndirectPointers
  omega

theorem takenBefore_lt (hi : i < numEntries (dataSectorsOf size)) :
    takenBefore (dataSectorsOf size) i < totalSectorsOf size := by
  have hlt := dataBefore_lt hi
  rw [totalSectorsOf, takenBefore]
  unfold numEntries at hi
  omega

/-! ## Allocation -/

/-- What `Allocate` is to do for a file of this size. -/
def AllocatesAll (m : BitMap) (size : ℤ) : Prop :=
  ∃ success h m', zero.allocate m size = .ok (success, h, m') ∧
    (success = false → m' = m) ∧
    (success = true →
      h.numSectors = dataSectorsOf size ∧ h.indirects ≤ NumInDirect ∧
      (∀ (j : Fin NumInDirect) b, h.indirectPointers j = some b →
        b.numSectors ≤ MaxIndirectPointers) ∧
      h.sectors.length = dataSectorsOf size + h.indirects ∧ h.sectors.Nodup ∧
      (∀ z ∈ h.sectors, (0 ≤ z ∧ z < NumSectors) ∧ m.test z.toNat = false) ∧
      m'.numBits = m.numBits ∧ ∀ i, m'.test i = (m.test i || decide ((i : ℤ) ∈ h.sectors)))

theorem indirects_allocated :
    (zero.allocated size m.nth).indirects =
      divRoundUp (dataSectorsOf size - NumDirect) PointersPerIndirect := by
  simp only [indirects, allocated, filled]
  congr 1
  omega

theorem indirects_allocated_le (h₁ : size ≤ MaxFileSize) :
    (zero.allocated size m.nth).indirects ≤ NumInDirect := by
  have hmax := dataSectorsOf_le h₁
  rw [indirects_allocated]
  unfold divRoundUp PointersPerIndirect
  unfold NumDirect NumInDirect MaxIndirectPointers at *
  split <;> omega

theorem numSectors_block_le {j : Fin NumInDirect} {b : IndirectPointerBlock}
    (hb : (zero.allocated size m.nth).indirectPointers j = some b) :
    b.numSectors ≤ MaxIndirectPointers := by
  simp only [allocated, filled] at hb
  split at hb
  · cases hb
    simp only [foundBlock, dataBefore]
    unfold NumDirect MaxIndirectPointers
    omega
  · cases hb

theorem not_allocatesAll (h₀ : 0 ≤ size) (h₁ : size ≤ MaxFileSize)
    (hdata : dataSectorsOf size ≤ m.numClear) (hlt : m.numClear < totalSectorsOf size) :
    ¬ AllocatesAll m size := by
  rintro ⟨success, h, m', hh, -, htrue⟩
  rw [allocate_eq_true h₀ h₁ hdata] at hh
  cases hh
  obtain ⟨-, -, -, -, -, hclear, -⟩ := htrue rfl
  have hmem : m.nth m.numClear ∈ (zero.allocated size m.nth).sectors := by
    rw [sectors_allocated h₁]
    exact List.mem_map.mpr ⟨_, List.mem_range.mpr hlt, rfl⟩
  have hneg := nth_eq_neg_one_iff.mpr (Nat.le_refl m.numClear)
  have := (hclear _ hmem).1.1
  omega

theorem dataSectorsOf_le_total : dataSectorsOf size ≤ totalSectorsOf size := Nat.le_add_right ..

theorem allocatesAll_of_room (hm : m.numBits = NumSectors) (h₀ : 0 ≤ size) (h₁ : size ≤ MaxFileSize)
    (htotal : totalSectorsOf size ≤ m.numClear) : AllocatesAll m size := by
  have hok := allocate_eq_true (h := zero) h₀ h₁ (dataSectorsOf_le_total.trans htotal)
  have hsectors : (zero.allocated size m.nth).sectors =
      (List.range (totalSectorsOf size)).map m.nth :=
    sectors_allocated h₁
  refine ⟨true, _, _, hok, fun h => absurd h (by decide), fun _ => ⟨rfl, indirects_allocated_le h₁,
    fun j b hb => numSectors_block_le hb, ?_, ?_, ?_, numBits_after, fun i => ?_⟩⟩
  · rw [hsectors, indirects_allocated, List.length_map, List.length_range, totalSectorsOf]
  · rw [hsectors]
    refine List.Nodup.map_on (fun a ha b hb hab => ?_) List.nodup_range
    rw [List.mem_range] at ha hb
    exact nth_inj (by omega) (by omega) hab
  · intro z hz
    rw [hsectors] at hz
    obtain ⟨k, hk, rfl⟩ := List.mem_map.mp hz
    obtain ⟨a, ha, hka, htest⟩ := exists_nth (Nat.lt_of_lt_of_le (List.mem_range.mp hk) htotal)
    rw [hka, Int.toNat_natCast]
    exact ⟨by omega, htest⟩
  · rw [test_after, hsectors]
    simp only [mem_map_nth htotal]

/-- `Allocate` is right when the data sectors do not fit and when the blocks fit as well. -/
theorem allocatesAll_iff (hm : m.numBits = NumSectors) (h₀ : 0 ≤ size) (h₁ : size ≤ MaxFileSize) :
    AllocatesAll m size ↔ m.numClear < dataSectorsOf size ∨ totalSectorsOf size ≤ m.numClear := by
  constructor
  · intro h
    by_contra hc
    rw [not_or, Nat.not_lt, Nat.not_le] at hc
    exact not_allocatesAll h₀ h₁ hc.1 hc.2 h
  · rintro (hlt | htotal)
    · obtain ⟨h', hh⟩ := allocate_eq_false (h := zero) (.inr (.inr hlt))
      exact ⟨false, h', m, hh, fun _ => rfl, fun h => absurd h (by decide)⟩
    · exact allocatesAll_of_room hm h₀ h₁ htotal

theorem numClear_ofSize : (BitMap.ofSize n).numClear = n := by
  simp [numClear, BitMap.ofSize, test]

/-- On an empty disk a file of five sectors gets its block as well. -/
theorem allocatesAll_iff_empty : (BitMap.ofSize NumSectors).numBits = NumSectors ∧
    AllocatesAll (BitMap.ofSize NumSectors) 640 := by
  refine ⟨rfl, (allocatesAll_iff rfl (by decide) (by decide)).mpr (.inr ?_)⟩
  rw [numClear_ofSize]
  decide

/-- With five clear sectors a file of five sectors is allocated without one for its block. -/
theorem exists_not_allocatesAll : ∃ m : BitMap, ∃ size : ℤ, m.numBits = NumSectors ∧ 0 ≤ size ∧
    size ≤ MaxFileSize ∧ ¬ AllocatesAll m size := by
  have hclear : ((BitMap.ofSize NumSectors).after 1019).numClear = 5 := by
    rw [numClear_after, numClear_ofSize]
    rfl
  refine ⟨(BitMap.ofSize NumSectors).after 1019, 640,
    by rw [numBits_after]; rfl, by decide, by decide,
    not_allocatesAll (by decide) (by decide) ?_ ?_⟩
  · rw [hclear]
    decide
  · rw [hclear]
    decide

/-! ## Deallocation -/

/-- `Deallocate` gives the map before `Allocate` back, for the header in memory and for the one that
is read back from any sector. -/
def Restores (m : BitMap) (size : ℤ) : Prop :=
  ∃ h m', zero.allocate m size = .ok (true, h, m') ∧ h.deallocate m' = .ok m ∧
    ∀ (s : Fin NumSectors) (d : Disk), ∃ d' h', h.writeBack (s : ℕ) d = .ok d' ∧
      fetchFrom (s : ℕ) d' = .ok h' ∧ h'.deallocate m' = .ok m

theorem totalSectorsOf_of_le (hn : dataSectorsOf size ≤ NumDirect) :
    totalSectorsOf size = dataSectorsOf size := by
  rw [totalSectorsOf, Nat.sub_eq_zero_of_le hn]
  rfl

theorem deallocate_allocated (hm : m.numBits = NumSectors) (h₁ : size ≤ MaxFileSize)
    (hn : dataSectorsOf size < NumDirect) (hroom : totalSectorsOf size ≤ m.numClear) :
    (zero.allocated size m.nth).deallocate (m.after (totalSectorsOf size)) = .ok m := by
  have hsectors : (zero.allocated size m.nth).sectors =
      (List.range (totalSectorsOf size)).map m.nth :=
    sectors_allocated h₁
  have hnum : (zero.allocated size m.nth).numSectors = dataSectorsOf size := rfl
  have hentries : (zero.allocated size m.nth).sectors =
      (List.range (zero.allocated size m.nth).numSectors.toNat).flatMap
        (zero.allocated size m.nth).entrySectors := by
    rw [sectors, entries, indirects_of_le (by omega), Nat.add_zero, Nat.min_eq_left (by omega)]
  have howned : (m.after (totalSectorsOf size)).Owned
      ((zero.allocated size m.nth).sectors ++ []) := by
    have :=
      Owned.take (m := m) (l := []) ⟨List.nodup_nil, fun z hz => absurd hz List.not_mem_nil⟩ hm
      hroom
    rwa [← hsectors] at this
  rw [hentries] at howned
  rw [deallocate, clearDirect_of_lt (by omega) (Nat.le_refl _) (by rw [numBits_after, hm]) howned,
    ok_bind, if_neg (by omega), pure_eq_ok, ← hentries, hsectors, clearAll_after hroom]

theorem test_clearTurns {b : IndirectPointerBlock} (h : b.clearTurns n m = .ok m') {a : ℕ}
    (ha : ∀ z, getAt b.dataSectors b.numSectors = .ok z → z ≠ a) : m'.test a = m.test a := by
  induction n generalizing m' with
  | zero =>
    cases h
    rfl
  | succ n ih =>
    simp only [IndirectPointerBlock.clearTurns, bind_eq_ok, clearBit_eq_ok] at h
    obtain ⟨m₁, h₁, z, hz, i, -, rfl, rfl⟩ := h
    rw [test_clear_of_ne, ih h₁]
    have := ha _ hz
    omega

theorem test_clearBlocks (hc : h.clearBlocks n m = .ok m') {a : ℕ}
    (ha : ∀ (j : Fin NumInDirect) b, h.indirectPointers j = some b →
      (∀ z, getAt b.dataSectors b.numSectors = .ok z → z ≠ a) ∧ h.indirectSector j ≠ a) :
    m'.test a = m.test a := by
  induction n generalizing m' with
  | zero =>
    cases hc
    rfl
  | succ n ih =>
    simp only [clearBlocks, bind_eq_ok] at hc
    obtain ⟨m₁, h₁, b, hb, hc⟩ := hc
    obtain ⟨j, hj, hptr⟩ := getAt_eq_ok.mp hb
    cases b with
    | none => cases hc
    | some b =>
      obtain ⟨hblock, hsec⟩ := ha j b hptr
      simp only [bind_eq_ok, clearBit_eq_ok, getAt_eq_ok] at hc
      obtain ⟨m₂, h₂, z, ⟨j', hj', rfl⟩, i, -, hi, rfl⟩ := hc
      obtain rfl : j' = j := Fin.ext (by omega)
      rw [test_clear_of_ne, test_clearTurns h₂ hblock, ih h₁]
      omega

theorem deallocate_allocated_ne (hn : NumDirect ≤ dataSectorsOf size)
    (hroom : totalSectorsOf size ≤ m.numClear) :
    (zero.allocated size m.nth).deallocate (m.after (totalSectorsOf size)) ≠ .ok m := by
  intro hc
  have htotal : NumDirect ≤ totalSectorsOf size := hn.trans dataSectorsOf_le_total
  -- a direct sector that is not sector 0
  obtain ⟨k, hk, hne⟩ : ∃ k < NumDirect, m.nth k ≠ 0 := by
    by_cases h₀ : m.nth 0 = 0
    · refine ⟨1, by decide, fun h => absurd (nth_inj ?_ ?_ (h₀.trans h.symm)) (by decide)⟩
      · exact Nat.lt_of_lt_of_le (by decide) (htotal.trans hroom)
      · exact Nat.lt_of_lt_of_le (by decide) (htotal.trans hroom)
    · exact ⟨0, by decide, h₀⟩
  obtain ⟨a, ha, hka, htest⟩ := exists_nth (m := m) (k := k) (by omega)
  have hmarked : (m.after (totalSectorsOf size)).test a = true := by
    have hmem : a ∈ m.clearBits.take (totalSectorsOf size) := by
      rw [← mem_map_nth hroom, ← hka]
      exact List.mem_map.mpr ⟨k, List.mem_range.mpr (by omega), rfl⟩
    rw [test_after]
    simp [hmem]
  rw [deallocate, clearDirect_of_ge (by simp only [allocated, filled]; omega), ok_bind] at hc
  split at hc
  · have hsame := test_clearBlocks hc (a := a) fun j b hb => ?_
    · rw [hsame, hmarked] at htest
      cases htest
    · simp only [allocated, filled] at hb
      split at hb
      case isFalse => cases hb
      case isTrue hj =>
        cases hb
        refine ⟨fun z hz => ?_, ?_⟩
        · -- the entry behind the last one is zero
          obtain ⟨l, hl, rfl⟩ := getAt_eq_ok.mp hz
          simp only [foundBlock, Int.natCast_inj] at hl ⊢
          rw [if_neg (by omega)]
          omega
        · simp only [allocated, filled, if_pos hj, ← hka]
          intro he
          have := nth_inj (Nat.lt_of_lt_of_le (takenBefore_lt hj) hroom) (by omega) he
          unfold takenBefore dataBefore NumDirect MaxIndirectPointers at *
          omega
  · have hsame : m.after (totalSectorsOf size) = m := Except.ok.inj hc
    rw [hsame, htest] at hmarked
    cases hmarked

/-- `Deallocate` gives the map back for files of fewer than four sectors only. -/
theorem restores_iff (hm : m.numBits = NumSectors) (h₀ : 0 ≤ size) (h₁ : size ≤ MaxFileSize)
    (hroom : totalSectorsOf size ≤ m.numClear) :
    Restores m size ↔ dataSectorsOf size < NumDirect := by
  have hok := allocate_eq_true (h := zero) h₀ h₁ (dataSectorsOf_le_total.trans hroom)
  constructor
  · rintro ⟨h, m', hh, hdealloc, -⟩
    rw [hok] at hh
    cases hh
    by_contra hn
    exact deallocate_allocated_ne (Nat.not_lt.mp hn) hroom hdealloc
  · intro hn
    have hdealloc := deallocate_allocated hm h₁ hn hroom
    refine ⟨_, _, hok, hdealloc, fun s d => ?_⟩
    have hzero : (zero.allocated size m.nth).indirects = 0 :=
      indirects_of_le (by simp only [allocated, filled]; omega)
    have hblocks : (zero.allocated size m.nth).HasBlocks :=
      hasBlocks_of_le (isStored_allocated h₀ h₁ hm) (by simp only [allocated, filled]; omega)
        fun j => indirectPointers_allocated (by omega)
    obtain ⟨d', hd', hfetch, -⟩ := exists_writeBack (d := d) (s := s) hblocks fun j hj => by omega
    exact ⟨d', _, hd', hfetch, hdealloc⟩

/-- A file of three sectors on an empty disk. -/
theorem restores_iff_small : totalSectorsOf 384 ≤ (BitMap.ofSize NumSectors).numClear ∧
    Restores (BitMap.ofSize NumSectors) 384 := by
  have hroom : totalSectorsOf 384 ≤ (BitMap.ofSize NumSectors).numClear := by
    rw [numClear_ofSize]
    decide
  exact ⟨hroom, (restores_iff rfl (by decide) (by decide) hroom).mpr (by decide)⟩

/-- The sectors of a file of four sectors are not cleared. -/
theorem exists_not_restores : ∃ m : BitMap, ∃ size : ℤ, m.numBits = NumSectors ∧ 0 ≤ size ∧
    size ≤ MaxFileSize ∧ totalSectorsOf size ≤ m.numClear ∧ ¬ Restores m size := by
  have hroom : totalSectorsOf 512 ≤ (BitMap.ofSize NumSectors).numClear := by
    rw [numClear_ofSize]
    decide
  refine ⟨BitMap.ofSize NumSectors, 512, rfl, by decide, by decide, hroom, ?_⟩
  rintro ⟨h, m', hh, hdealloc, -⟩
  rw [allocate_eq_true (by decide) (by decide) (dataSectorsOf_le_total.trans hroom)] at hh
  cases hh
  exact deallocate_allocated_ne (by decide) hroom hdealloc

/-! ## The sectors of a header on disk -/

theorem exists_indirectSector (hroom : totalSectorsOf size ≤ m.numClear) {j : Fin NumInDirect}
    (hj : (j : ℕ) < (zero.allocated size m.nth).indirects) :
    ∃ a < m.numBits, (zero.allocated size m.nth).indirectSector j = a ∧ m.test a = false := by
  rw [indirectSector_allocated hj]
  exact exists_nth (Nat.lt_of_lt_of_le (takenBefore_lt (lt_indirects_allocated.mp hj)) hroom)

theorem hasBlocks_of_room (hm : m.numBits = NumSectors) (h₀ : 0 ≤ size) (h₁ : size ≤ MaxFileSize)
    (hroom : totalSectorsOf size ≤ m.numClear) (hmark : m.test 0 = true) :
    (zero.allocated size m.nth).HasBlocks := by
  refine hasBlocks_allocated h₀ h₁ hm hmark fun j hj => ?_
  obtain ⟨a, -, ha, -⟩ := exists_indirectSector hroom hj
  omega

theorem indirectSector_ne (hroom : totalSectorsOf size ≤ m.numClear) (hs : m.test s = true)
    {j : Fin NumInDirect} (hj : (j : ℕ) < (zero.allocated size m.nth).indirects) :
    (zero.allocated size m.nth).indirectSector j ≠ (s : ℕ) := by
  intro he
  obtain ⟨a, -, ha, htest⟩ := exists_indirectSector hroom hj
  rw [ha, Int.natCast_inj] at he
  rw [he, hs] at htest
  cases htest

/-- What `WriteBack` writes for a new header is read back, and the other sectors stay. -/
theorem exists_writeBack_allocated (hm : m.numBits = NumSectors) (h₀ : 0 ≤ size)
    (h₁ : size ≤ MaxFileSize) (hroom : totalSectorsOf size ≤ m.numClear) (hmark : m.test 0 = true)
    (hs : m.test s = true) (d : Disk) :
    ∃ h m' d', zero.allocate m size = .ok (true, h, m') ∧ h.writeBack (s : ℕ) d = .ok d' ∧
      fetchFrom (s : ℕ) d' = .ok h ∧ d.Frame (h.headerSectors (s : ℕ)) d' := by
  obtain ⟨d', hd', hfetch, hframe⟩ := exists_writeBack (d := d) (s := s)
    (hasBlocks_of_room hm h₀ h₁ hroom hmark) fun j hj => indirectSector_ne hroom hs hj
  exact ⟨_, _, d', allocate_eq_true h₀ h₁ (dataSectorsOf_le_total.trans hroom), hd', hfetch, hframe⟩

/-- The header of a file with two blocks, in sector 1 of an empty disk. -/
theorem exists_writeBack_allocated_two_blocks : ∃ h m' d', zero.allocate
      (((BitMap.ofSize NumSectors).mark 0).mark 1) 5000 = .ok (true, h, m') ∧
    h.writeBack (1 : ℕ) (fun _ _ => 0) = .ok d' ∧ fetchFrom (1 : ℕ) d' = .ok h ∧
      Disk.Frame (h.headerSectors (1 : ℕ)) (fun _ _ => 0) d' := by
  have h₀ := numClear_mark (b := BitMap.ofSize NumSectors) (i := 0) (by decide) (by decide)
  have h₁ := numClear_mark (b := (BitMap.ofSize NumSectors).mark 0) (i := 1) (by decide) (by decide)
  rw [numClear_ofSize] at h₀
  refine exists_writeBack_allocated (s := ⟨1, by decide⟩) rfl (by decide) (by decide) ?_ (by decide)
    (by decide) _
  rw [show totalSectorsOf 5000 = 42 from rfl]
  unfold NumSectors at *
  omega

/-! ## The sector of an offset -/

/-- The call of `Find` that gave a data sector its number: a block takes a sector of its own before
its data sectors. -/
def dataIndex (i : ℕ) : ℕ :=
  if i < NumDirect then i else i + ((i - NumDirect) / MaxIndirectPointers + 1)

/-- `ByteToSector` finds the data sectors in the order in which `Allocate` took them, the same for
the offsets in one sector and different for others. -/
def Locates (m : BitMap) (size : ℤ) : Prop :=
  ∃ h m', zero.allocate m size = .ok (true, h, m') ∧
    (∀ offset : ℕ, offset < size → h.byteToSector offset =
      .ok (m.nth (dataIndex (offset / SectorSize)))) ∧
    ∀ o o' : ℕ, o < size → o' < size →
      (h.byteToSector o = h.byteToSector o' ↔ o / SectorSize = o' / SectorSize)

theorem dataIndex_lt (hi : i < dataSectorsOf size) : dataIndex i < totalSectorsOf size := by
  rw [totalSectorsOf, dataIndex]
  unfold divRoundUp NumDirect PointersPerIndirect MaxIndirectPointers
  split <;> split <;> omega

theorem dataIndex_inj (h : dataIndex i = dataIndex j) : i = j := by
  unfold dataIndex NumDirect MaxIndirectPointers at h
  split at h <;> split at h <;> omega

theorem div_lt_dataSectorsOf {offset : ℕ} (h : offset < size) :
    offset / SectorSize < dataSectorsOf size := by
  unfold dataSectorsOf divRoundUp SectorSize
  split <;> omega

theorem numSectors_allocated {seq : ℕ → ℤ} :
    (zero.allocated size seq).numSectors = dataSectorsOf size := rfl

theorem mul_lt_of_lt_dataSectorsOf (h : i < dataSectorsOf size) : (i * SectorSize : ℕ) < size := by
  unfold dataSectorsOf divRoundUp SectorSize at h
  unfold SectorSize
  split at h <;> omega

theorem byteToSector_direct {seq : ℕ → ℤ} {offset : ℕ} (hd : offset / SectorSize < NumDirect)
    (hi : offset / SectorSize < dataSectorsOf size) :
    (zero.allocated size seq).byteToSector offset = .ok (seq (offset / SectorSize)) := by
  have hentry : offset / SectorSize < numEntries (dataSectorsOf size) := by
    unfold numEntries
    omega
  rw [byteToSector]
  dsimp only
  rw [if_pos hd, getAt_natCast hd]
  simp [allocated, filled, hentry]

theorem byteToSector_block {seq : ℕ → ℤ} {b offset : ℕ} (hd : NumDirect ≤ offset / SectorSize)
    (hb : (dataSectorsOf size - NumDirect) / PointersPerIndirect = b)
    (hi : NumDirect + b < numEntries (dataSectorsOf size)) (hlt : b < NumInDirect) :
    (zero.allocated size seq).byteToSector offset =
      (foundBlock seq (takenBefore (dataSectorsOf size) (NumDirect + b) + 1)
        (dataBefore (dataSectorsOf size) (NumDirect + b + 1) -
          dataBefore (dataSectorsOf size) (NumDirect + b))).byteToSector
            (offset - SectorSize * NumDirect) := by
  have hn : NumDirect < dataSectorsOf size := by
    unfold numEntries divRoundUp at hi
    by_contra hc
    rw [Nat.sub_eq_zero_of_le (Nat.not_lt.mp hc), Nat.zero_div, Nat.zero_mod,
      if_neg (Nat.lt_irrefl 0)] at hi
    omega
  have hrel : ((dataSectorsOf size : ℤ) - NumDirect) / PointersPerIndirect = b := by
    rw [← hb]
    push_cast [hn.le]
    rfl
  rw [byteToSector]
  dsimp only
  rw [if_neg (by omega), numSectors_allocated, if_neg (by omega), hrel, getAt_natCast hlt, ok_bind]
  simp [allocated, filled, hi]

/-- With at most one block, which is not full, `ByteToSector` looks into this block. -/
theorem byteToSector_allocated {seq : ℕ → ℤ} {offset : ℕ} (h : offset < size)
    (hn : dataSectorsOf size < NumDirect + MaxIndirectPointers) :
    (zero.allocated size seq).byteToSector offset =
      .ok (seq (dataIndex (offset / SectorSize))) := by
  have hlt := div_lt_dataSectorsOf h
  rcases Nat.lt_or_ge (offset / SectorSize) NumDirect with hd | hd
  · rw [byteToSector_direct hd hlt, dataIndex, if_pos hd]
  · have hzero : (dataSectorsOf size - NumDirect) / PointersPerIndirect = 0 := by
      unfold PointersPerIndirect
      unfold MaxIndirectPointers at hn
      omega
    have hentry : NumDirect + 0 < numEntries (dataSectorsOf size) := by
      unfold numEntries divRoundUp PointersPerIndirect
      unfold NumDirect at *
      split <;> omega
    have hsec : (offset - SectorSize * NumDirect) / SectorSize =
        offset / SectorSize - NumDirect := by
      rw [Nat.sub_mul_div]
    have hindex : offset / SectorSize - NumDirect < MaxIndirectPointers := by omega
    rw [byteToSector_block hd hzero hentry (by decide), IndirectPointerBlock.byteToSector, hsec,
      getAt_natCast hindex, dataIndex, if_neg (by omega)]
    have hcount : offset / SectorSize - NumDirect <
        dataBefore (dataSectorsOf size) (NumDirect + 0 + 1) -
        dataBefore (dataSectorsOf size) (NumDirect + 0) := by
      unfold dataBefore MaxIndirectPointers NumDirect at *
      omega
    simp only [foundBlock, if_pos hcount]
    congr 2
    unfold takenBefore dataBefore MaxIndirectPointers NumDirect at *
    omega

theorem byteToSector_unset {seq : ℕ → ℤ} {b offset : ℕ} (hd : NumDirect ≤ offset / SectorSize)
    (hb : (dataSectorsOf size - NumDirect) / PointersPerIndirect = b)
    (hi : numEntries (dataSectorsOf size) ≤ NumDirect + b) :
    (zero.allocated size seq).byteToSector offset = .error .undefined := by
  rw [byteToSector]
  dsimp only
  rw [if_neg (by omega), numSectors_allocated]
  split
  · rfl
  · have hrel : ((dataSectorsOf size : ℤ) - NumDirect) / PointersPerIndirect = b := by
      rw [← hb]
      push_cast [show NumDirect ≤ dataSectorsOf size by omega]
      rfl
    rw [hrel]
    by_cases hlt : b < NumInDirect
    · rw [getAt_natCast hlt, ok_bind]
      simp [allocated, filled, Nat.not_lt.mpr hi, zero]
    · rw [getAt, dif_neg (by omega), error_bind]

theorem byteToSector_allocated_ne (h₁ : size ≤ MaxFileSize)
    (hn : NumDirect + MaxIndirectPointers ≤ dataSectorsOf size)
    (hroom : totalSectorsOf size ≤ m.numClear) :
    (zero.allocated size m.nth).byteToSector (NumDirect * SectorSize) ≠
      .ok (m.nth (dataIndex NumDirect)) := by
  intro hc
  obtain ⟨b, hb⟩ : ∃ b, (dataSectorsOf size - NumDirect) / PointersPerIndirect = b := ⟨_, rfl⟩
  have hd : NumDirect ≤ NumDirect * SectorSize / SectorSize := by decide
  have hmax := numEntries_le (dataSectorsOf_le h₁)
  rcases Nat.lt_or_ge (NumDirect + b) (numEntries (dataSectorsOf size)) with hi | hi
  · have hcount : 0 < dataBefore (dataSectorsOf size) (NumDirect + b + 1) -
        dataBefore (dataSectorsOf size) (NumDirect + b) := by
      have := dataBefore_lt hi
      unfold dataBefore NumDirect MaxIndirectPointers at *
      omega
    rw [byteToSector_block hd hb hi (by omega), IndirectPointerBlock.byteToSector,
      show (NumDirect * SectorSize - SectorSize * NumDirect) / SectorSize = 0 from rfl,
      getAt_natCast (by decide)] at hc
    simp only [foundBlock, if_pos hcount] at hc
    have htaken : takenBefore (dataSectorsOf size) (NumDirect + b) + 1 + 0 < m.numClear := by
      have : takenBefore (dataSectorsOf size) (NumDirect + b + 1) ≤ totalSectorsOf size := by
        rw [totalSectorsOf, ← takenBefore_numEntries]
        exact takenBefore_mono hi
      unfold takenBefore dataBefore NumDirect MaxIndirectPointers at *
      omega
    have hfive : dataIndex NumDirect < m.numClear :=
      Nat.lt_of_lt_of_le (dataIndex_lt (by unfold MaxIndirectPointers at hn; omega)) hroom
    have := nth_inj htaken hfive (Except.ok.inj hc)
    rw [show dataIndex NumDirect = 5 from rfl] at this
    unfold takenBefore dataBefore PointersPerIndirect NumDirect MaxIndirectPointers at *
    omega
  · rw [byteToSector_unset hd hb hi] at hc
    cases hc

/-- `ByteToSector` is right for files with at most one block, which is not full. -/
theorem locates_iff (h₀ : 0 ≤ size) (h₁ : size ≤ MaxFileSize)
    (hroom : totalSectorsOf size ≤ m.numClear) :
    Locates m size ↔ dataSectorsOf size < NumDirect + MaxIndirectPointers := by
  have hok := allocate_eq_true (h := zero) h₀ h₁ (dataSectorsOf_le_total.trans hroom)
  constructor
  · rintro ⟨h, m', hh, hloc, -⟩
    rw [hok] at hh
    cases hh
    by_contra hn
    have hdirect : NumDirect < dataSectorsOf size := by
      unfold MaxIndirectPointers at hn
      omega
    exact byteToSector_allocated_ne h₁ (Nat.not_lt.mp hn) hroom
      (hloc _ (mul_lt_of_lt_dataSectorsOf hdirect))
  · intro hn
    refine ⟨_, _, hok, fun offset ho => byteToSector_allocated ho hn, fun o o' ho ho' => ?_⟩
    rw [byteToSector_allocated ho hn, byteToSector_allocated ho' hn]
    constructor
    · intro he
      refine dataIndex_inj (nth_inj ?_ ?_ (Except.ok.inj he))
      · exact Nat.lt_of_lt_of_le (dataIndex_lt (div_lt_dataSectorsOf ho)) hroom
      · exact Nat.lt_of_lt_of_le (dataIndex_lt (div_lt_dataSectorsOf ho')) hroom
    · intro he
      rw [he]

/-- A file of 34 sectors on an empty disk. -/
theorem locates_iff_one_block : totalSectorsOf 4352 ≤ (BitMap.ofSize NumSectors).numClear ∧
    Locates (BitMap.ofSize NumSectors) 4352 := by
  have hroom : totalSectorsOf 4352 ≤ (BitMap.ofSize NumSectors).numClear := by
    rw [numClear_ofSize]
    decide
  exact ⟨hroom, (locates_iff (by decide) (by decide) hroom).mpr (by decide)⟩

/-- In a file of 35 sectors the fifth one is looked up in a block that is not there. -/
theorem exists_not_locates : ∃ m : BitMap, ∃ size : ℤ, m.numBits = NumSectors ∧ 0 ≤ size ∧
    size ≤ MaxFileSize ∧ totalSectorsOf size ≤ m.numClear ∧ ¬ Locates m size := by
  have hroom : totalSectorsOf 4480 ≤ (BitMap.ofSize NumSectors).numClear := by
    rw [numClear_ofSize]
    decide
  refine ⟨BitMap.ofSize NumSectors, 4480, rfl, by decide, by decide, hroom, ?_⟩
  rintro ⟨h, m', hh, hloc, -⟩
  rw [allocate_eq_true (by decide) (by decide) (dataSectorsOf_le_total.trans hroom)] at hh
  cases hh
  exact byteToSector_allocated_ne (by decide) (by decide) hroom (hloc _ (by decide))

end Filesys.FileHeader

end Nachos
