import Nachos.Library.Outcome
import Nachos.Filesys.FileHeader

/-! # Headers on disk

What `WriteBack` leaves on the disk is what `FetchFrom` reads: the header in
its sector and each block in the sector that the header names for it.
-/

namespace Nachos.Filesys

open Function Words Outcome

variable {d d' : Disk} {s : Fin NumSectors} {n i : ℕ}

/-! ## The bytes of headers and blocks -/

theorem IndirectPointerBlock.ofSector_toSector {b : IndirectPointerBlock} (hn : IsInt b.numSectors)
    (hd : ∀ j, IsInt (b.dataSectors j)) : ofSector b.toSector = b := by
  have hword : ∀ j : Fin MaxIndirectPointers, b.toSector.int (j + 1) = b.dataSectors j := by
    intro j
    have hj : (j : ℕ) < 31 := j.isLt
    rw [toSector, Sector.int_ofInts (by omega)]
    · simp [j.isLt]
    · simpa [j.isLt] using hd j
  have hzero : b.toSector.int 0 = b.numSectors := Sector.int_ofInts (by decide) hn
  cases b
  simp only [ofSector, hzero, hword]

namespace FileHeader

variable {h : FileHeader}

def IsStored (h : FileHeader) : Prop := ∀ k < 32, IsInt (h.words k)

theorem words_dataSectors (i : Fin NumDirect) : h.words (2 + i) = h.dataSectors i := by
  simp [words, i.isLt, show 2 + (i : ℕ) ≠ 1 by omega]

theorem words_indirectSector (i : Fin NumInDirect) :
    h.words (2 + NumDirect + i) = h.indirectSector i := by
  have hi := i.isLt
  have hlt : 2 + NumDirect + (i : ℕ) - 2 - NumDirect < NumInDirect := by omega
  rw [words, if_neg (by omega), if_neg (by unfold NumDirect; omega), dif_neg (by omega),
    dif_pos hlt]
  congr 1
  exact Fin.ext (by dsimp only; omega)

theorem ofSector_toSector (hs : h.IsStored) :
    ofSector h.toSector = { h with indirectPointers := fun _ => none } := by
  have h₀ : h.toSector.int 0 = h.numBytes := Sector.int_ofInts (by decide) (hs 0 (by decide))
  have h₁ : h.toSector.int 1 = h.numSectors := Sector.int_ofInts (by decide) (hs 1 (by decide))
  have hd : ∀ i : Fin NumDirect, h.toSector.int (2 + i) = h.dataSectors i := by
    intro i
    have hi : 2 + (i : ℕ) < 32 := by have := i.isLt; unfold NumDirect at this; omega
    rw [toSector, Sector.int_ofInts hi (hs _ hi), words_dataSectors]
  have hind : ∀ i : Fin NumInDirect, h.toSector.int (2 + NumDirect + i) = h.indirectSector i := by
    intro i
    have hi : 2 + NumDirect + (i : ℕ) < 32 := by
      have := i.isLt
      unfold NumInDirect at this
      unfold NumDirect
      omega
    rw [toSector, Sector.int_ofInts hi (hs _ hi), words_indirectSector]
  simp only [ofSector, h₀, h₁, hd, hind]

theorem isStored_iff : h.IsStored ↔ IsInt h.numBytes ∧ IsInt h.numSectors ∧
    (∀ i, IsInt (h.dataSectors i)) ∧ ∀ i, IsInt (h.indirectSector i) := by
  constructor
  · intro hs
    refine ⟨hs 0 (by decide), hs 1 (by decide), fun i => ?_, fun i => ?_⟩
    · have hi := i.isLt
      unfold NumDirect at hi
      rw [← words_dataSectors]
      exact hs _ (by omega)
    · have hi := i.isLt
      unfold NumInDirect at hi
      rw [← words_indirectSector]
      exact hs _ (by unfold NumDirect; omega)
  · rintro ⟨h₀, h₁, hd, hi⟩ k -
    unfold words
    split_ifs
    · exact h₀
    · exact h₁
    · exact hd _
    · exact hi _
    · decide

theorem isStored_ofSector {s : Sector} : (ofSector s).IsStored :=
  isStored_iff.mpr ⟨Sector.isInt_int, Sector.isInt_int, fun _ => Sector.isInt_int,
    fun _ => Sector.isInt_int⟩

/-! ## Fetching -/

theorem readSector_congr {z : ℤ} (h : ∀ y : Fin NumSectors, (y : ℤ) = z → d' y = d y) :
    d'.readSector z = d.readSector z := by
  unfold Disk.readSector
  split
  case isTrue hz => rw [h ⟨z.toNat, by omega⟩ (Int.toNat_of_nonneg hz.1)]
  case isFalse => rfl

theorem fetchBlocks_eq_ok {h' : FileHeader} (hf : h.fetchBlocks d n = .ok h') :
    h' = { h with indirectPointers := h'.indirectPointers } := by
  induction n generalizing h' with
  | zero =>
    cases hf
    rfl
  | succ n ih =>
    simp only [fetchBlocks, bind_eq_ok] at hf
    obtain ⟨u, hu, sector, -, hf⟩ := hf
    have hu' := ih hu
    split at hf
    · simp only [bind_eq_ok] at hf
      obtain ⟨b, -, ps, -, hf⟩ := hf
      cases hf
      rw [hu']
    · cases hf
      exact hu'

theorem fetchBlocks_congr
    (hd : ∀ i : Fin NumInDirect, i < n → d'.readSector (h.indirectSector i) =
      d.readSector (h.indirectSector i)) :
    h.fetchBlocks d' n = h.fetchBlocks d n := by
  induction n with
  | zero => rfl
  | succ n ih =>
    rw [fetchBlocks, fetchBlocks, ih fun i hi => hd i (Nat.lt_succ_of_lt hi)]
    refine Outcome.bind_congr fun u hu => Outcome.bind_congr fun sector hsector => ?_
    have hsame : u.indirectSector = h.indirectSector := by rw [fetchBlocks_eq_ok hu]
    unfold getAt at hsector
    split at hsector
    case isTrue hn =>
      cases hsector
      have hn' : n < NumInDirect := by omega
      rw [IndirectPointerBlock.fetchFrom, IndirectPointerBlock.fetchFrom, hsame]
      have hread := hd ⟨n, hn'⟩ (Nat.lt_succ_self n)
      simp only [Int.toNat_natCast, hread]
    case isFalse => cases hsector

theorem indirects_of_le (hn : h.numSectors ≤ NumDirect) : h.indirects = 0 := by
  have : (h.numSectors - NumDirect).toNat = 0 := by omega
  simp [indirects, divRoundUp, this]

theorem indirectSector_mem (i : Fin NumInDirect) (hi : i < h.indirects) :
    h.indirectSector i ∈ h.sectors := by
  have hpos : NumDirect ≤ h.numSectors.toNat := by
    by_contra hc
    rw [indirects_of_le (by omega)] at hi
    exact absurd hi (Nat.not_lt_zero _)
  refine List.mem_flatMap.mpr ⟨NumDirect + i, ?_, ?_⟩
  · rw [List.mem_range, entries, Nat.min_eq_right hpos]
    omega
  · have hlt : NumDirect + (i : ℕ) - NumDirect < NumInDirect := by
      have := i.isLt
      omega
    rw [entrySectors, dif_neg (by omega), dif_pos hlt]
    simp

/-- The sectors with the header and its blocks. -/
def headerSectors (h : FileHeader) (s : ℤ) : Set ℤ :=
  { z | z = s ∨ ∃ i : Fin NumInDirect, (i : ℕ) < h.indirects ∧ h.indirectSector i = z }

theorem headerSectors_subset {s : ℤ} : h.headerSectors s ⊆ { z | z = s ∨ z ∈ h.sectors } := by
  rintro z (rfl | ⟨i, hi, rfl⟩)
  · exact .inl rfl
  · exact .inr (indirectSector_mem i hi)

theorem fetchFrom_frame {z : ℤ} {S : Set ℤ} (hf : fetchFrom z d = .ok h) (hd : d.Frame S d')
    (hS : ∀ y ∈ h.headerSectors z, y ∉ S) : fetchFrom z d' = .ok h := by
  have hread : d'.readSector z = d.readSector z :=
    readSector_congr fun y hy => hd y (hS _ (.inl hy))
  rw [fetchFrom, hread]
  rw [fetchFrom] at hf
  rw [← hf]
  refine Outcome.bind_congr fun s hs => ?_
  rw [hs, ok_bind] at hf
  dsimp only at hf ⊢
  split at hf
  case isTrue hlt =>
    rw [if_pos hlt, if_pos hlt]
    have hsame := fetchBlocks_eq_ok hf
    refine fetchBlocks_congr fun i hi => readSector_congr fun y hy => hd y (hS _ (.inr ⟨i, ?_, ?_⟩))
    · rw [hsame]
      exact hi
    · rw [hsame, hy]
  case isFalse hlt => rw [if_neg hlt, if_neg hlt]

def BlocksOn (h : FileHeader) (d : Disk) : Prop :=
  ∀ i : Fin NumInDirect, i < h.indirects → ∃ b, h.indirectPointers i = some b ∧
    IsInt b.numSectors ∧ (∀ j, IsInt (b.dataSectors j)) ∧ h.indirectSector i ≠ 0 ∧
      d.readSector (h.indirectSector i) = .ok b.toSector

theorem fetchBlocks_of_blocksOn (hb : h.BlocksOn d) (hn : n ≤ h.indirects)
    (hmax : h.indirects ≤ NumInDirect) :
    fetchBlocks d n { h with indirectPointers := fun _ => none } =
      .ok { h with
        indirectPointers := fun i => if (i : ℕ) < n then h.indirectPointers i else none } := by
  induction n with
  | zero => rfl
  | succ n ih =>
    have hlt : n < NumInDirect := by omega
    obtain ⟨b, hptr, hint, hints, hne, hread⟩ := hb ⟨n, hlt⟩ hn
    rw [fetchBlocks, ih (Nat.le_of_succ_le hn), ok_bind, getAt_natCast hlt, ok_bind,
      if_pos hne, IndirectPointerBlock.fetchFrom, hread, map_ok, ok_bind,
      IndirectPointerBlock.ofSector_toSector hint hints, setAt_natCast hlt, ok_bind, pure_eq_ok]
    congr 2
    funext i
    by_cases hi : i = ⟨n, hlt⟩
    · subst hi
      simp [hptr]
    · have hi' : (i : ℕ) ≠ n := fun he => hi (Fin.ext he)
      rw [update_of_ne hi]
      by_cases hin : (i : ℕ) < n
      · simp [hin, Nat.lt_succ_of_lt hin]
      · simp [hin, show ¬ (i : ℕ) < n + 1 by omega]

theorem fetchFrom_of_blocksOn (hs : h.IsStored) (hd : d s = h.toSector) (hb : h.BlocksOn d)
    (hmax : h.indirects ≤ NumInDirect)
    (hnone : ∀ i : Fin NumInDirect, h.indirects ≤ i → h.indirectPointers i = none) :
    fetchFrom (s : ℕ) d = .ok h := by
  rw [fetchFrom, Disk.readSector_natCast, ok_bind, hd, ofSector_toSector hs]
  have hptrs : ∀ n, n = h.indirects →
      { h with indirectPointers := fun i => if (i : ℕ) < n then h.indirectPointers i else none } =
      h := by
    rintro n rfl
    have : (fun i : Fin NumInDirect =>
        if (i : ℕ) < h.indirects then h.indirectPointers i else none) =
        h.indirectPointers := by
      funext i
      split
      case isTrue => rfl
      case isFalse hi => exact (hnone i (Nat.le_of_not_lt hi)).symm
    rw [this]
  dsimp only
  split
  · have hfetch := fetchBlocks_of_blocksOn hb (Nat.le_refl _) hmax
    rw [hptrs _ rfl] at hfetch
    exact hfetch
  case isFalse hle =>
    have h' := hptrs 0 (indirects_of_le (by omega)).symm
    simp only [Nat.not_lt_zero, if_false] at h'
    rw [h', pure_eq_ok]

/-! ## Writing back -/

/-- The pointers of the header are set as far as they are used, and the blocks have sectors of
their own on the disk. -/
structure HasBlocks (h : FileHeader) : Prop where
  stored : h.IsStored
  max : h.indirects ≤ NumInDirect
  pointer : ∀ i : Fin NumInDirect, i < h.indirects → ∃ b, h.indirectPointers i = some b ∧
    IsInt b.numSectors ∧ ∀ j, IsInt (b.dataSectors j)
  unset : ∀ i : Fin NumInDirect, h.indirects ≤ i → h.indirectPointers i = none
  sector : ∀ i : Fin NumInDirect, i < h.indirects →
    0 < h.indirectSector i ∧ h.indirectSector i < NumSectors
  inj : ∀ i j : Fin NumInDirect, i < h.indirects → j < h.indirects →
    h.indirectSector i = h.indirectSector j → i = j

theorem exists_writeBlocks (hb : h.HasBlocks) (hn : n ≤ h.indirects) :
    ∃ d', h.writeBlocks n d = .ok d' ∧
      (∀ y : Fin NumSectors, (∀ i : Fin NumInDirect, i < n → h.indirectSector i ≠ y) → d' y = d y) ∧
      ∀ i : Fin NumInDirect, i < n → ∀ b, h.indirectPointers i = some b →
        d'.readSector (h.indirectSector i) = .ok b.toSector := by
  induction n with
  | zero => exact ⟨d, rfl, fun _ _ => rfl, fun i hi => absurd hi (Nat.not_lt_zero _)⟩
  | succ n ih =>
    obtain ⟨u, hu, hother, hblock⟩ := ih (Nat.le_of_succ_le hn)
    have hlt : n < NumInDirect := by have := hb.max; omega
    obtain ⟨b, hptr, -⟩ := hb.pointer ⟨n, hlt⟩ hn
    obtain ⟨hpos, hmax⟩ := hb.sector ⟨n, hlt⟩ hn
    obtain ⟨x, hx⟩ : ∃ x : Fin NumSectors, h.indirectSector ⟨n, hlt⟩ = (x : ℕ) :=
      ⟨⟨(h.indirectSector ⟨n, hlt⟩).toNat, by omega⟩, (Int.toNat_of_nonneg (by omega)).symm⟩
    refine ⟨u.set x b.toSector, ?_, fun y hy => ?_, fun i hi b' hb' => ?_⟩
    · rw [writeBlocks, hu, ok_bind, getAt_natCast hlt, ok_bind, if_pos (by omega),
        getAt_natCast hlt, ok_bind, hptr]
      simp only [IndirectPointerBlock.writeBack]
      rw [hx, Disk.writeSector_natCast]
    · have hne : y ≠ x := by
        rintro rfl
        exact hy ⟨n, hlt⟩ (Nat.lt_succ_self n) hx
      rw [Disk.set_of_ne hne]
      exact hother y fun i hi => hy i (Nat.lt_succ_of_lt hi)
    · by_cases hin : i = ⟨n, hlt⟩
      · subst hin
        obtain rfl := Option.some.inj (hptr.symm.trans hb')
        rw [hx, Disk.readSector_natCast, Disk.set_self]
      · have hi' : (i : ℕ) < n := by
          have : (i : ℕ) ≠ n := fun he => hin (Fin.ext he)
          omega
        rw [readSector_congr (d := u), hblock i hi' b' hb']
        intro y hy
        refine Disk.set_of_ne ?_
        rintro rfl
        exact hin (hb.inj i ⟨n, hlt⟩ (Nat.lt_of_lt_of_le hi' (Nat.le_of_succ_le hn)) hn
          (hy.symm.trans hx.symm))

/-- What `WriteBack` writes is read back by `FetchFrom`, and the other sectors stay. -/
theorem exists_writeBack (hb : h.HasBlocks)
    (hne : ∀ i : Fin NumInDirect, i < h.indirects → h.indirectSector i ≠ (s : ℕ)) :
    ∃ d', h.writeBack (s : ℕ) d = .ok d' ∧ fetchFrom (s : ℕ) d' = .ok h ∧
      d.Frame (h.headerSectors (s : ℕ)) d' := by
  obtain ⟨d', hd', hother, hblock⟩ :=
    exists_writeBlocks (d := d.set s h.toSector) hb (Nat.le_refl _)
  have hwrite : h.writeBack (s : ℕ) d = .ok d' := by
    rw [writeBack, Disk.writeSector_natCast, ok_bind]
    split
    case isTrue => exact hd'
    case isFalse hle =>
      rw [indirects_of_le (by omega)] at hd'
      exact hd'
  refine ⟨d', hwrite, ?_, fun y hy => ?_⟩
  · refine fetchFrom_of_blocksOn hb.stored ?_ (fun i hi => ?_) hb.max hb.unset
    · rw [hother s hne, Disk.set_self]
    · obtain ⟨b, hptr, hint, hints⟩ := hb.pointer i hi
      exact ⟨b, hptr, hint, hints, by have := (hb.sector i hi).1; omega, hblock i hi b hptr⟩
  · obtain ⟨hys, hind⟩ := not_or.mp hy
    rw [hother y fun i hi he => hind ⟨i, hi, he⟩, Disk.set_of_ne fun he => hys (by rw [he])]

theorem hasBlocks_of_le (hs : h.IsStored) (hn : h.numSectors ≤ NumDirect)
    (hnone : ∀ i, h.indirectPointers i = none) : h.HasBlocks := by
  have hzero := indirects_of_le hn
  have hno : ∀ i : Fin NumInDirect, ¬ (i : ℕ) < h.indirects := fun i => by omega
  exact ⟨hs, by omega, fun i hi => absurd hi (hno i), fun i _ => hnone i,
    fun i hi => absurd hi (hno i), fun i _ hi => absurd hi (hno i)⟩

end FileHeader

end Nachos.Filesys
