import Mathlib.Data.Set.Insert
import Nachos.Library.Bytes
import Nachos.Library.Words
import Nachos.Userprog.BitMap

/-! # The sectors of the disk

A request to `SynchDisk` is taken as done when it returns. A routine that fails
an assertion, or does what the language leaves open, stops with a fault.
-/

namespace Nachos

namespace Filesys

open Function Words

def SectorSize : ℕ := 128

def NumSectors : ℕ := 1024

inductive Fault
  /-- An `ASSERT` that fails. -/
  | assertion
  /-- An index outside of an array, a pointer or a buffer that is not set, or a recursion without
  end. -/
  | undefined
  deriving DecidableEq

def getAt {α : Type} {n : ℕ} (a : Fin n → α) (i : ℤ) : Except Fault α :=
  if h : 0 ≤ i ∧ i < n then .ok (a ⟨i.toNat, by omega⟩) else .error .undefined

def setAt {α : Type} {n : ℕ} (a : Fin n → α) (i : ℤ) (x : α) : Except Fault (Fin n → α) :=
  if h : 0 ≤ i ∧ i < n then .ok (update a ⟨i.toNat, by omega⟩ x) else .error .undefined

section Arrays

variable {α : Type} {n : ℕ} {a : Fin n → α} {x : α}

@[simp] theorem getAt_natCast {i : ℕ} (h : i < n) : getAt a i = .ok (a ⟨i, h⟩) := by
  simp [getAt, h]

@[simp] theorem setAt_natCast {i : ℕ} (h : i < n) : setAt a i x = .ok (update a ⟨i, h⟩ x) := by
  simp [setAt, h]

theorem index_eq_ok {f : Fin n → α} {e : Fault} {i : ℤ} :
    (if h : 0 ≤ i ∧ i < n then Except.ok (f ⟨i.toNat, by omega⟩) else .error e) = .ok x ↔
      ∃ j : Fin n, (j : ℕ) = i ∧ f j = x := by
  split
  case isTrue h =>
    constructor
    · rintro ⟨⟩
      exact ⟨_, Int.toNat_of_nonneg h.1, rfl⟩
    · rintro ⟨j, rfl, rfl⟩
      rfl
  case isFalse h =>
    constructor
    · intro he
      cases he
    · rintro ⟨j, rfl, -⟩
      exact absurd ⟨Int.natCast_nonneg _, Int.ofNat_lt.mpr j.isLt⟩ h

theorem getAt_eq_ok {i : ℤ} : getAt a i = .ok x ↔ ∃ j : Fin n, (j : ℕ) = i ∧ a j = x :=
  index_eq_ok

theorem setAt_eq_ok {i : ℤ} {a' : Fin n → α} :
    setAt a i x = .ok a' ↔ ∃ j : Fin n, (j : ℕ) = i ∧ update a j x = a' :=
  index_eq_ok (f := fun j => update a j x)

end Arrays

/-! ## Sectors -/

abbrev Sector : Type := Fin SectorSize → UInt8

def Disk : Type := Fin NumSectors → Sector

namespace Sector

variable {s : Sector} {w w' : ℕ → ℤ} {k : ℕ}

/-- The bytes of a sector by their address. -/
def bytes (s : Sector) (v : ℕ) : UInt8 := if h : v < SectorSize then s ⟨v, h⟩ else 0

def int (s : Sector) (k : ℕ) : ℤ := Words.int fun i => s.bytes (4 * k + i)

def ofInts (w : ℕ → ℤ) : Sector := fun i => intByte (w (i / 4)) (i % 4)

theorem bytes_of_lt {v : ℕ} (h : v < SectorSize) : s.bytes v = s ⟨v, h⟩ := dif_pos h

theorem isInt_int : IsInt (s.int k) := Words.isInt_int

theorem int_ofInts (hk : k < 32) (h : IsInt (w k)) : (ofInts w).int k = w k := by
  rw [← int_intByte h]
  refine int_congr fun i hi => ?_
  have hv : 4 * k + i < SectorSize := by
    unfold SectorSize
    omega
  rw [bytes_of_lt hv, ofInts]
  dsimp only
  rw [show (4 * k + i) / 4 = k by omega, show (4 * k + i) % 4 = i by omega]

end Sector

theorem isInt_sector (s : Fin NumSectors) : IsInt (s : ℕ) := by
  have := s.isLt
  unfold NumSectors at this
  exact ⟨by omega, by omega⟩

namespace Disk

variable {d : Disk} {sector : Fin NumSectors} {data : Sector}

/-- `SynchDisk::ReadSector`, with the assertion of `Disk::ReadRequest`. -/
def readSector (sectorNumber : ℤ) (d : Disk) : Except Fault Sector :=
  if h : 0 ≤ sectorNumber ∧ sectorNumber < NumSectors then .ok (d ⟨sectorNumber.toNat, by omega⟩)
  else .error .assertion

def set (sector : Fin NumSectors) (data : Sector) (d : Disk) : Disk := update d sector data

/-- `SynchDisk::WriteSector`, with the assertion of `Disk::WriteRequest`. -/
def writeSector (sectorNumber : ℤ) (data : Sector) (d : Disk) : Except Fault Disk :=
  if h : 0 ≤ sectorNumber ∧ sectorNumber < NumSectors then
    .ok (d.set ⟨sectorNumber.toNat, by omega⟩ data)
  else .error .assertion

@[simp] theorem readSector_natCast : d.readSector (sector : ℕ) = .ok (d sector) := by
  simp [readSector]

@[simp] theorem writeSector_natCast :
    d.writeSector (sector : ℕ) data = .ok (d.set sector data) := by
  simp [writeSector]

theorem readSector_eq_ok {z : ℤ} :
    d.readSector z = .ok data ↔ ∃ y : Fin NumSectors, (y : ℕ) = z ∧ d y = data :=
  index_eq_ok

theorem writeSector_eq_ok {z : ℤ} {d' : Disk} :
    d.writeSector z data = .ok d' ↔ ∃ y : Fin NumSectors, (y : ℕ) = z ∧ d.set y data = d' :=
  index_eq_ok (f := fun y => d.set y data)

@[simp] theorem set_self : d.set sector data sector = data := update_self ..

/-- Only sectors of the set have changed. -/
def Frame (S : Set ℤ) (d d' : Disk) : Prop := ∀ y : Fin NumSectors, (y : ℤ) ∉ S → d' y = d y

namespace Frame

variable {S T : Set ℤ} {d' d'' : Disk}

theorem refl : Frame S d d := fun _ _ => rfl

theorem mono (h : Frame S d d') (hST : S ⊆ T) : Frame T d d' :=
  fun y hy => h y fun hs => hy (hST hs)

theorem trans (h : Frame S d d') (h' : Frame S d' d'') : Frame S d d'' :=
  fun y hy => (h' y hy).trans (h y hy)

theorem set (hs : (sector : ℤ) ∈ S) : Frame S d (d.set sector data) :=
  fun y hy => update_of_ne (fun h : y = sector => hy (h ▸ hs)) ..

end Frame

theorem set_of_ne {other : Fin NumSectors} (h : other ≠ sector) :
    d.set sector data other = d other := update_of_ne h ..

end Disk

end Filesys

/-! ## Bit maps with their assertions -/

namespace BitMap

open Filesys

def testBit (b : BitMap) (which : ℤ) : Except Fault Bool :=
  if 0 ≤ which ∧ which < b.numBits then .ok (b.test which.toNat) else .error .assertion

def markBit (which : ℤ) (b : BitMap) : Except Fault BitMap :=
  if 0 ≤ which ∧ which < b.numBits then .ok (b.mark which.toNat) else .error .assertion

def clearBit (which : ℤ) (b : BitMap) : Except Fault BitMap :=
  if 0 ≤ which ∧ which < b.numBits then .ok (b.clear which.toNat) else .error .assertion

theorem clearBit_eq_ok {b b' : BitMap} {which : ℤ} :
    b.clearBit which = .ok b' ↔ ∃ i < b.numBits, (i : ℤ) = which ∧ b.clear i = b' := by
  unfold clearBit
  split
  case isTrue h =>
    constructor
    · rintro ⟨⟩
      exact ⟨_, by omega, Int.toNat_of_nonneg h.1, rfl⟩
    · rintro ⟨i, -, rfl, rfl⟩
      rfl
  case isFalse h =>
    constructor
    · intro he
      cases he
    · rintro ⟨i, hi, rfl, -⟩
      omega

def findBit (b : BitMap) : ℤ × BitMap :=
  match b.find with
  | some (i, b') => (i, b')
  | none => (-1, b)

end BitMap

end Nachos
