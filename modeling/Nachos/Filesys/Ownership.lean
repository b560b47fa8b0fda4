import Nachos.Filesys.FreeMapFile

/-! # Sectors in use

A list of sectors is owned under a free map if the sectors are different, on the
disk and marked. Finding clear bits adds to such a list, and clearing bits of it
leaves the rest owned.
-/

namespace Nachos

open Function

namespace BitMap

open Filesys

variable {m : BitMap} {l l' : List ℤ} {z : ℤ} {k n : ℕ}

def Owned (m : BitMap) (l : List ℤ) : Prop :=
  l.Nodup ∧ ∀ z ∈ l, (0 ≤ z ∧ z < NumSectors) ∧ m.test z.toNat = true

namespace Owned

theorem perm (h : m.Owned l) (hp : l.Perm l') : m.Owned l' :=
  ⟨hp.nodup_iff.mp h.1, fun z hz => h.2 z (hp.mem_iff.mpr hz)⟩

theorem sublist (h : m.Owned l) (hl : l'.Sublist l) : m.Owned l' :=
  ⟨h.1.sublist hl, fun z hz => h.2 z (hl.subset hz)⟩

theorem nth_notMem (h : m.Owned l) (hk : k < m.numClear) : m.nth k ∉ l := by
  intro hmem
  obtain ⟨i, -, hi, htest⟩ := exists_nth hk
  rw [hi] at hmem
  have := (h.2 _ hmem).2
  rw [Int.toNat_natCast, htest] at this
  cases this

theorem after (h : m.Owned l) : (m.after n).Owned l := by
  refine ⟨h.1, fun z hz => ⟨(h.2 z hz).1, ?_⟩⟩
  rw [test_after, (h.2 z hz).2, Bool.true_or]

theorem take (h : m.Owned l) (hm : m.numBits = NumSectors) (hn : n ≤ m.numClear) :
    (m.after n).Owned ((List.range n).map m.nth ++ l) := by
  have hlen : m.numClear = m.clearBits.length := numClear_eq_length
  refine ⟨List.nodup_append.mpr ⟨?_, h.1, ?_⟩, fun z hz => ?_⟩
  · refine List.Nodup.map_on (fun i hi j hj hij => ?_) List.nodup_range
    exact nth_inj (by rw [List.mem_range] at hi; omega) (by rw [List.mem_range] at hj; omega) hij
  · rintro a ha b hb rfl
    obtain ⟨i, hi, rfl⟩ := List.mem_map.mp ha
    exact h.nth_notMem (by rw [List.mem_range] at hi; omega) hb
  · rcases List.mem_append.mp hz with hz | hz
    · obtain ⟨i, hi, rfl⟩ := List.mem_map.mp hz
      have hi' : i < n := List.mem_range.mp hi
      have hic : i < m.clearBits.length := by omega
      obtain ⟨j, hj, hjn, -⟩ := exists_nth (m := m) (k := i) (by omega)
      have hjc : m.clearBits[i] = j := by
        rw [nth_of_lt hic] at hjn
        exact_mod_cast hjn
      rw [hjn, Int.toNat_natCast, test_after]
      refine ⟨by omega, ?_⟩
      have : j ∈ m.clearBits.take n := by
        rw [← hjc]
        exact List.mem_take_iff_getElem.mpr ⟨i, by omega, rfl⟩
      simp [this]
    · exact h.after.2 z hz

theorem clear (h : m.Owned (z :: l)) : (m.clear z.toNat).Owned l := by
  obtain ⟨hz, hl⟩ := List.nodup_cons.mp h.1
  refine ⟨hl, fun y hy => ?_⟩
  obtain ⟨hry, hty⟩ := h.2 y (List.mem_cons_of_mem _ hy)
  obtain ⟨hrz, -⟩ := h.2 z (List.mem_cons_self ..)
  refine ⟨hry, ?_⟩
  rw [test_clear_of_ne, hty]
  intro he
  exact hz (by rwa [show z = y by omega])

theorem testBit (h : m.Owned l) (hm : m.numBits = NumSectors) (hz : z ∈ l) :
    m.testBit z = .ok true := by
  obtain ⟨hr, ht⟩ := h.2 z hz
  rw [BitMap.testBit, if_pos (by omega), ht]

theorem clearBit (h : m.Owned l) (hm : m.numBits = NumSectors) (hz : z ∈ l) :
    m.clearBit z = .ok (m.clear z.toNat) := by
  obtain ⟨hr, -⟩ := h.2 z hz
  rw [BitMap.clearBit, if_pos (by omega)]

end Owned

def clearAll (m : BitMap) (l : List ℤ) : BitMap := l.foldl (fun m z => m.clear z.toNat) m

theorem clearAll_append : m.clearAll (l ++ l') = (m.clearAll l).clearAll l' := List.foldl_append

@[simp] theorem numBits_clearAll : (m.clearAll l).numBits = m.numBits := by
  induction l generalizing m with
  | nil => rfl
  | cons z l ih => exact ih.trans numBits_clear

theorem Owned.clearAll (h : m.Owned (l ++ l')) : (m.clearAll l).Owned l' := by
  induction l generalizing m with
  | nil => exact h
  | cons z l ih => exact ih h.clear

theorem IsFreeMap.clearAll (hm : m.IsFreeMap) (h : m.Owned l) : (m.clearAll l).IsFreeMap := by
  induction l generalizing m with
  | nil => exact hm
  | cons z l ih =>
    obtain ⟨hr, -⟩ := h.2 z (List.mem_cons_self ..)
    exact ih (hm.clear (by omega)) h.clear

theorem Owned.numClear_clearAll (h : m.Owned l) (hm : m.numBits = NumSectors) :
    (m.clearAll l).numClear = m.numClear + l.length := by
  induction l generalizing m with
  | nil => rfl
  | cons z l ih =>
    obtain ⟨hr, ht⟩ := h.2 z (List.mem_cons_self ..)
    have hone := numClear_clear (by omega : z.toNat < m.numBits) ht
    have hrest := ih h.clear (numBits_clear.trans hm)
    rw [List.length_cons]
    change ((m.clear z.toNat).clearAll l).numClear = _
    omega

end BitMap

/-! ## Deallocation of a file without blocks -/

namespace Filesys.FileHeader

open Outcome BitMap

variable {h : FileHeader} {m : BitMap} {l : List ℤ} {n : ℕ}

theorem clearDirect_of_lt (hlt : h.numSectors < NumDirect) (hn : n ≤ h.numSectors.toNat)
    (hm : m.numBits = NumSectors) (ho : m.Owned ((List.range n).flatMap h.entrySectors ++ l)) :
    h.clearDirect n m = .ok (m.clearAll ((List.range n).flatMap h.entrySectors)) := by
  induction n generalizing l with
  | zero => rfl
  | succ n ih =>
    have hnd : n < NumDirect := by omega
    have hentry : h.entrySectors n = [h.dataSectors ⟨n, hnd⟩] := dif_pos hnd
    rw [List.range_succ, List.flatMap_append, List.flatMap_singleton, hentry] at ho ⊢
    rw [List.append_assoc] at ho
    have hrest := ho.clearAll
    have hbits : (m.clearAll ((List.range n).flatMap h.entrySectors)).numBits = NumSectors := by
      rw [numBits_clearAll, hm]
    rw [clearDirect, ih (by omega) ho, ok_bind, if_pos hlt, getAt_natCast hnd, ok_bind,
      hrest.testBit hbits (by simp), ok_bind, if_pos rfl, hrest.clearBit hbits (by simp),
      clearAll_append]
    rfl

theorem clearDirect_of_ge (hge : ¬ h.numSectors < NumDirect) : h.clearDirect n m = .ok m := by
  induction n with
  | zero => rfl
  | succ n ih => rw [clearDirect, ih, ok_bind, if_neg hge, pure_eq_ok]

/-- The other sectors stay owned; with fewer than four sectors those of the file are cleared. -/
theorem exists_deallocate (hn : h.numSectors ≤ NumDirect) (hm : m.IsFreeMap)
    (ho : m.Owned (h.sectors ++ l)) :
    ∃ m', h.deallocate m = .ok m' ∧ m'.IsFreeMap ∧ m'.Owned l ∧
      m'.numClear = m.numClear + if h.numSectors < NumDirect then h.sectors.length else 0 := by
  have hsectors : h.sectors = (List.range (min h.numSectors.toNat NumDirect)).flatMap
      h.entrySectors := by
    rw [sectors, entries, indirects_of_le hn, Nat.add_zero]
  rw [deallocate]
  by_cases hlt : h.numSectors < NumDirect
  · rw [Nat.min_eq_left (by omega)] at hsectors
    rw [hsectors] at ho
    rw [clearDirect_of_lt hlt (Nat.le_refl _) hm.1 ho, ok_bind, if_neg (by omega), pure_eq_ok]
    have hown := ho.sublist (List.sublist_append_left ..)
    refine ⟨_, rfl, hm.clearAll hown, ho.clearAll, ?_⟩
    rw [if_pos hlt, hsectors, hown.numClear_clearAll hm.1]
  · rw [clearDirect_of_ge hlt, ok_bind, if_neg (by omega), pure_eq_ok]
    exact ⟨_, rfl, hm, ho.sublist (List.sublist_append_right ..), by rw [if_neg hlt, Nat.add_zero]⟩

/-! ## The blocks of an allocated file -/

variable {size : ℤ} {seq : ℕ → ℤ} {i k : ℕ}

theorem exists_nth_sector (hm : m.numBits = NumSectors) (hk : k < m.numClear) :
    ∃ y : Fin NumSectors, m.nth k = (y : ℕ) ∧ m.test y = false := by
  obtain ⟨i, hi, hn, htest⟩ := exists_nth hk
  exact ⟨⟨i, hm ▸ hi⟩, hn, htest⟩

theorem isInt_nth (hm : m.numBits = NumSectors) : Words.IsInt (m.nth k) := by
  rcases Nat.lt_or_ge k m.numClear with hlt | hge
  · obtain ⟨y, hy, -⟩ := exists_nth_sector hm hlt
    rw [hy]
    exact isInt_sector y
  · rw [nth_eq_neg_one_iff.mpr hge]
    decide

theorem lt_indirects_allocated : i < (zero.allocated size seq).indirects ↔
    NumDirect + i < numEntries (dataSectorsOf size) := by
  simp only [indirects, allocated, filled, numEntries]
  generalize dataSectorsOf size = n
  unfold divRoundUp NumDirect PointersPerIndirect
  split <;> split <;> omega

theorem indirectSector_allocated {j : Fin NumInDirect}
    (hj : (j : ℕ) < (zero.allocated size seq).indirects) :
    (zero.allocated size seq).indirectSector j =
      seq (takenBefore (dataSectorsOf size) (NumDirect + j)) :=
  if_pos (lt_indirects_allocated.mp hj)

theorem takenBefore_inj {n i j : ℕ}
    (h : takenBefore n (NumDirect + i) = takenBefore n (NumDirect + j)) :
    i = j := by
  unfold takenBefore dataBefore NumDirect MaxIndirectPointers at h
  omega

theorem isStored_allocated (h₀ : 0 ≤ size) (h₁ : size ≤ MaxFileSize) (hm : m.numBits = NumSectors) :
    (zero.allocated size m.nth).IsStored := by
  have hmax := dataSectorsOf_le h₁
  have hzero : Words.IsInt 0 := by decide
  refine isStored_iff.mpr ⟨?_, ?_, fun j => ?_, fun j => ?_⟩
  · unfold MaxFileSize NumDirect NumInDirect MaxIndirectPointers SectorSize at h₁
    exact ⟨by simp only [allocated, filled]; omega, by simp only [allocated, filled]; omega⟩
  · unfold NumDirect NumInDirect MaxIndirectPointers at hmax
    exact ⟨by simp only [allocated, filled]; omega, by simp only [allocated, filled]; omega⟩
  · simp only [allocated, filled]
    split
    · exact isInt_nth hm
    · exact hzero
  · simp only [allocated, filled]
    split
    · exact isInt_nth hm
    · exact hzero

theorem indirectPointers_allocated {j : Fin NumInDirect}
    (hj : (zero.allocated size seq).indirects ≤ j) :
    (zero.allocated size seq).indirectPointers j = none :=
  if_neg fun hlt => Nat.not_le.mpr (lt_indirects_allocated.mpr hlt) hj

theorem hasBlocks_allocated (h₀ : 0 ≤ size) (h₁ : size ≤ MaxFileSize) (hm : m.numBits = NumSectors)
    (hmark : m.test 0 = true)
    (hsec : ∀ j : Fin NumInDirect, (j : ℕ) < (zero.allocated size m.nth).indirects →
      (zero.allocated size m.nth).indirectSector j ≠ -1) :
    (zero.allocated size m.nth).HasBlocks := by
  have hmax := dataSectorsOf_le h₁
  have hle := numEntries_le hmax
  have hclear : ∀ j : Fin NumInDirect, (j : ℕ) < (zero.allocated size m.nth).indirects →
      takenBefore (dataSectorsOf size) (NumDirect + j) < m.numClear := by
    intro j hj
    have := hsec j hj
    rw [indirectSector_allocated hj, ne_eq, nth_eq_neg_one_iff] at this
    omega
  constructor
  case stored => exact isStored_allocated h₀ h₁ hm
  case max =>
    by_contra hc
    have :=
      lt_indirects_allocated.mp (by omega : NumInDirect < (zero.allocated size m.nth).indirects)
    omega
  case pointer =>
    intro j hj
    refine ⟨_, if_pos (lt_indirects_allocated.mp hj), ?_, fun l => ?_⟩
    · simp only [foundBlock, dataBefore]
      unfold NumDirect NumInDirect MaxIndirectPointers at *
      exact ⟨by omega, by omega⟩
    · simp only [foundBlock]
      split
      · exact isInt_nth hm
      · decide
  case unset => exact fun j hj => indirectPointers_allocated hj
  case sector =>
    intro j hj
    obtain ⟨i, hi, hn, htest⟩ := exists_nth (hclear j hj)
    rw [indirectSector_allocated hj, hn]
    have : i ≠ 0 := by
      rintro rfl
      rw [hmark] at htest
      cases htest
    omega
  case inj =>
    intro i j hi hj hij
    rw [indirectSector_allocated hi, indirectSector_allocated hj] at hij
    exact Fin.ext (takenBefore_inj (nth_inj (hclear i hi) (hclear j hj) hij))

end Filesys.FileHeader

end Nachos
