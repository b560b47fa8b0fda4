import Nachos.Filesys.Disk

/-! # File headers

A header has room for four data sectors and for the sectors of 26 blocks with
31 more data sectors each. Its first 128 bytes are the sector on disk; the
blocks in memory are reached through pointers, which are `none` where they are
not set.
-/

namespace Nachos.Filesys

open Function Words

def NumDirect : ℕ := 4

def NumInDirect : ℕ := 26

def MaxIndirectPointers : ℕ := 31

def PointersPerIndirect : ℕ := 31

def MaxFileSize : ℕ := (NumDirect + NumInDirect * MaxIndirectPointers) * SectorSize

def FreeMapSector : ℤ := 0

def DirectorySector : ℤ := 1

def divRoundUp (n s : ℕ) : ℕ := n / s + if 0 < n % s then 1 else 0

/-! ## Blocks of pointers -/

structure IndirectPointerBlock where
  numSectors : ℤ
  dataSectors : Fin MaxIndirectPointers → ℤ

namespace IndirectPointerBlock

/-- `IndirectPointerBlock::IndirectPointerBlock`. -/
def empty : IndirectPointerBlock := ⟨0, fun _ => 0⟩

def toSector (b : IndirectPointerBlock) : Sector :=
  .ofInts fun k =>
    if k = 0 then b.numSectors
    else if h : k - 1 < MaxIndirectPointers then b.dataSectors ⟨k - 1, h⟩ else 0

def ofSector (s : Sector) : IndirectPointerBlock := ⟨s.int 0, fun j => s.int (j + 1)⟩

/-- `IndirectPointerBlock::FetchFrom`. -/
def fetchFrom (sector : ℤ) (d : Disk) : Except Fault IndirectPointerBlock :=
  (d.readSector sector).map ofSector

/-- `IndirectPointerBlock::WriteBack`. -/
def writeBack (sector : ℤ) (b : IndirectPointerBlock) (d : Disk) : Except Fault Disk :=
  d.writeSector sector b.toSector

/-- `IndirectPointerBlock::ByteToSector`. -/
def byteToSector (b : IndirectPointerBlock) (sector : ℕ) : Except Fault ℤ :=
  getAt b.dataSectors (sector / SectorSize : ℕ)

/-- `IndirectPointerBlock::PutSector`. -/
def putSector (sector : ℤ) (b : IndirectPointerBlock) : Except Fault IndirectPointerBlock := do
  let dataSectors ← setAt b.dataSectors b.numSectors sector
  return ⟨b.numSectors + 1, dataSectors⟩

/-- The first `n` turns of the loop of `IndirectPointerBlock::Deallocate`: the index is the
number of sectors in every turn. -/
def clearTurns (b : IndirectPointerBlock) : ℕ → BitMap → Except Fault BitMap
  | 0, bitMap => .ok bitMap
  | i + 1, bitMap => do
    let bitMap ← b.clearTurns i bitMap
    let sector ← getAt b.dataSectors b.numSectors
    bitMap.clearBit sector

/-- `IndirectPointerBlock::Deallocate`. -/
def deallocate (b : IndirectPointerBlock) (bitMap : BitMap) : Except Fault BitMap :=
  b.clearTurns b.numSectors.toNat bitMap

end IndirectPointerBlock

/-! ## Headers -/

structure FileHeader where
  numBytes : ℤ
  numSectors : ℤ
  dataSectors : Fin NumDirect → ℤ
  indirectSector : Fin NumInDirect → ℤ
  indirectPointers : Fin NumInDirect → Option IndirectPointerBlock

namespace FileHeader

def zero : FileHeader := ⟨0, 0, fun _ => 0, fun _ => 0, fun _ => none⟩

/-- The `int`s of the first `HdrSize` bytes. -/
def words (h : FileHeader) (k : ℕ) : ℤ :=
  if k = 0 then h.numBytes
  else if k = 1 then h.numSectors
  else if hd : k - 2 < NumDirect then h.dataSectors ⟨k - 2, hd⟩
  else if hi : k - 2 - NumDirect < NumInDirect then h.indirectSector ⟨k - 2 - NumDirect, hi⟩
  else 0

def toSector (h : FileHeader) : Sector := .ofInts h.words

def ofSector (s : Sector) : FileHeader where
  numBytes := s.int 0
  numSectors := s.int 1
  dataSectors i := s.int (2 + i)
  indirectSector i := s.int (2 + NumDirect + i)
  indirectPointers _ := none

def indirects (h : FileHeader) : ℕ :=
  divRoundUp (h.numSectors - NumDirect).toNat PointersPerIndirect

/-- The first `n` turns of the loop of `FileHeader::FetchFrom`. -/
def fetchBlocks (d : Disk) : ℕ → FileHeader → Except Fault FileHeader
  | 0, h => .ok h
  | i + 1, h => do
    let h ← h.fetchBlocks d i
    let sector ← getAt h.indirectSector i
    if sector ≠ 0 then
      let block ← IndirectPointerBlock.fetchFrom sector d
      let indirectPointers ← setAt h.indirectPointers i (some block)
      return { h with indirectPointers }
    else return h

/-- `FileHeader::FetchFrom`, into a new header. -/
def fetchFrom (sector : ℤ) (d : Disk) : Except Fault FileHeader := do
  let h := ofSector (← d.readSector sector)
  if NumDirect < h.numSectors then h.fetchBlocks d h.indirects else return h

/-- The first `n` turns of the loop of `FileHeader::WriteBack`. -/
def writeBlocks (h : FileHeader) : ℕ → Disk → Except Fault Disk
  | 0, d => .ok d
  | i + 1, d => do
    let d ← h.writeBlocks i d
    let sector ← getAt h.indirectSector i
    if sector ≠ 0 then
      match ← getAt h.indirectPointers i with
      | some block => block.writeBack sector d
      | none => .error .undefined
    else return d

/-- `FileHeader::WriteBack`. -/
def writeBack (sector : ℤ) (h : FileHeader) (d : Disk) : Except Fault Disk := do
  let d ← d.writeSector sector h.toSector
  if NumDirect < h.numSectors then h.writeBlocks h.indirects d else return d

/-- `FileHeader::ByteToSector`. The block is found from the length of the file and not from the
offset; the difference is taken as `unsigned`, so it is no index when it is negative. -/
def byteToSector (h : FileHeader) (offset : ℕ) : Except Fault ℤ :=
  let sector := offset / SectorSize
  if sector < NumDirect then getAt h.dataSectors sector
  else if h.numSectors < NumDirect then .error .undefined
  else do
    let relSec := (h.numSectors - NumDirect) / PointersPerIndirect
    match ← getAt h.indirectPointers relSec with
    | some block => block.byteToSector (offset - SectorSize * NumDirect)
    | none => .error .undefined

/-! ## Allocation -/

/-- The first `n` turns of the inner loop of `FileHeader::Allocate`. -/
def putSectors : ℕ → IndirectPointerBlock → BitMap → Except Fault (IndirectPointerBlock × BitMap)
  | 0, block, freeMap => .ok (block, freeMap)
  | j + 1, block, freeMap => do
    let (block, freeMap) ← putSectors j block freeMap
    let (newSec, freeMap) := freeMap.findBit
    return (← block.putSector newSec, freeMap)

/-- One turn of the loop of `FileHeader::Allocate`; it returns the sectors that are left to
allocate. -/
def allocateTurn (i sectorsToAllocate : ℕ) (h : FileHeader) (freeMap : BitMap) :
    Except Fault (ℕ × FileHeader × BitMap) :=
  if i < NumDirect then do
    let (sector, freeMap) := freeMap.findBit
    let dataSectors ← setAt h.dataSectors i sector
    return (sectorsToAllocate - 1, { h with dataSectors }, freeMap)
  else do
    let (sector, freeMap) := freeMap.findBit
    let indirectSector ← setAt h.indirectSector (i - NumDirect : ℕ) sector
    let sectorsToAddToThisPage := min sectorsToAllocate MaxIndirectPointers
    let (block, freeMap) ← putSectors sectorsToAddToThisPage .empty freeMap
    let indirectPointers ← setAt h.indirectPointers (i - NumDirect : ℕ) (some block)
    return (sectorsToAllocate - sectorsToAddToThisPage,
      { h with indirectSector, indirectPointers }, freeMap)

/-- The loop of `FileHeader::Allocate`. A turn allocates at least one sector, so as many turns
as there are sectors are enough. -/
def allocateLoop : ℕ → (i sectorsToAllocate : ℕ) → FileHeader → BitMap →
    Except Fault (FileHeader × BitMap)
  | 0, _, sectorsToAllocate, h, freeMap =>
    if 0 < sectorsToAllocate then .error .undefined else .ok (h, freeMap)
  | turns + 1, i, sectorsToAllocate, h, freeMap =>
    if 0 < sectorsToAllocate then do
      let (sectorsToAllocate, h, freeMap) ← allocateTurn i sectorsToAllocate h freeMap
      allocateLoop turns (i + 1) sectorsToAllocate h freeMap
    else .ok (h, freeMap)

/-- `FileHeader::Allocate`. The size is compared as `unsigned`. -/
def allocate (freeMap : BitMap) (fileSize : ℤ) (h : FileHeader) :
    Except Fault (Bool × FileHeader × BitMap) :=
  if fileSize < 0 ∨ MaxFileSize < fileSize then .ok (false, h, freeMap)
  else
    let numSectors := divRoundUp fileSize.toNat SectorSize
    let h := { h with numBytes := fileSize, numSectors := numSectors }
    if freeMap.numClear < numSectors then .ok (false, h, freeMap)
    else do
      let (h, freeMap) ← allocateLoop numSectors 0 numSectors h freeMap
      return (true, h, freeMap)

/-! ## Deallocation -/

/-- The first `n` turns of the first loop of `FileHeader::Deallocate`. -/
def clearDirect (h : FileHeader) : ℕ → BitMap → Except Fault BitMap
  | 0, freeMap => .ok freeMap
  | i + 1, freeMap => do
    let freeMap ← h.clearDirect i freeMap
    if h.numSectors < NumDirect then
      let sector ← getAt h.dataSectors i
      if ← freeMap.testBit sector then freeMap.clearBit sector else .error .assertion
    else return freeMap

/-- The first `n` turns of the second loop of `FileHeader::Deallocate`. -/
def clearBlocks (h : FileHeader) : ℕ → BitMap → Except Fault BitMap
  | 0, freeMap => .ok freeMap
  | i + 1, freeMap => do
    let freeMap ← h.clearBlocks i freeMap
    match ← getAt h.indirectPointers i with
    | none => .error .undefined
    | some block =>
      let freeMap ← block.deallocate freeMap
      freeMap.clearBit (← getAt h.indirectSector i)

/-- `FileHeader::Deallocate`. -/
def deallocate (freeMap : BitMap) (h : FileHeader) : Except Fault BitMap := do
  let freeMap ← h.clearDirect h.numSectors.toNat freeMap
  if NumDirect < h.numSectors then h.clearBlocks h.indirects freeMap else return freeMap

/-! ## The sectors of a file -/

def blockSectors (h : FileHeader) (i : Fin NumInDirect) : List ℤ :=
  match h.indirectPointers i with
  | none => []
  | some block => (List.ofFn block.dataSectors).take
      (h.numSectors.toNat - (NumDirect + i * MaxIndirectPointers))

/-- The sectors that one entry of the header gives to the file: a data sector, or the sector of
a block with the data sectors in it. -/
def entrySectors (h : FileHeader) (i : ℕ) : List ℤ :=
  if hd : i < NumDirect then [h.dataSectors ⟨i, hd⟩]
  else if hi : i - NumDirect < NumInDirect then
    h.indirectSector ⟨i - NumDirect, hi⟩ :: h.blockSectors ⟨i - NumDirect, hi⟩
  else []

def entries (h : FileHeader) : ℕ := min h.numSectors.toNat NumDirect + h.indirects

def sectors (h : FileHeader) : List ℤ := (List.range h.entries).flatMap h.entrySectors

end FileHeader

end Nachos.Filesys
