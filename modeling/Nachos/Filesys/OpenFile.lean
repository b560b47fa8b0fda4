import Nachos.Filesys.FileHeader

/-! # Open files

`ReadAt` and `WriteAt` go through buffers of whole sectors. A write past the
end extends the file first, which reads the free map from disk and writes it
back through a second open file.
-/

namespace Nachos

namespace Filesys

open Function Words Bytes

/-- The position of `Seek` is passed to `Read` and `Write`. -/
structure OpenFile where
  hdr : FileHeader
  hdrSector : ℤ

namespace OpenFile

/-- `OpenFile::OpenFile`. -/
def new (sector : ℤ) (d : Disk) : Except Fault OpenFile := do
  return ⟨← FileHeader.fetchFrom sector d, sector⟩

/-- The buffer after the first `n` turns of the loop of `OpenFile::ReadAt`. -/
def readSectors (hdr : FileHeader) (firstSector : ℕ) (d : Disk) : ℕ → Except Fault (ℕ → UInt8)
  | 0 => .ok fun _ => 0
  | i + 1 => do
    let buf ← readSectors hdr firstSector d i
    let data ← d.readSector (← hdr.byteToSector ((firstSector + i) * SectorSize))
    return blit buf (i * SectorSize) SectorSize data.bytes

/-- `OpenFile::ReadAt`: the number of bytes read, and the memory at `into` afterwards. A request
past the end of the file is not cut. -/
def readAt (f : OpenFile) (into : ℕ → UInt8) (numBytes position : ℕ) (d : Disk) :
    Except Fault (ℕ × (ℕ → UInt8)) :=
  if numBytes = 0 ∨ f.hdr.numBytes ≤ position then .ok (0, into)
  else do
    let firstSector := position / SectorSize
    let lastSector := (position + numBytes - 1) / SectorSize
    let buf ← readSectors f.hdr firstSector d (1 + lastSector - firstSector)
    return (numBytes, blit into 0 numBytes fun i => buf (position - firstSector * SectorSize + i))

/-- Read a sector of the file into the buffer if it is wanted, and tell whether it was read. -/
def readEdge (f : OpenFile) (buf : ℕ → UInt8) (wanted : Bool) (bufStart sector : ℕ) (d : Disk) :
    Except Fault (Bool × (ℕ → UInt8)) :=
  if wanted then do
    let (n, into) ← f.readAt (fun i => buf (bufStart + i)) SectorSize (sector * SectorSize) d
    return (n != 0, blit buf bufStart SectorSize into)
  else .ok (true, buf)

/-- Read the first and the last sector of a request into the buffer, if only a part of them is
written. The result tells whether every sector that was asked for was read. -/
def readEdges (f : OpenFile) (buf : ℕ → UInt8) (numBytes position firstSector lastSector : ℕ)
    (d : Disk) : Except Fault (Bool × (ℕ → UInt8)) := do
  let firstAligned : Bool := position = firstSector * SectorSize
  let lastAligned : Bool := position + numBytes = (lastSector + 1) * SectorSize
  let (read₁, buf) ← f.readEdge buf (!firstAligned) 0 firstSector d
  let (read₂, buf) ← f.readEdge buf (!lastAligned && (firstSector != lastSector || firstAligned))
    ((lastSector - firstSector) * SectorSize) lastSector d
  return (read₁ && read₂, buf)

/-- The first `n` turns of the loops that write the sectors of the buffer. -/
def writeSectors (hdr : FileHeader) (buf : ℕ → UInt8) (firstSector : ℕ) :
    ℕ → Disk → Except Fault Disk
  | 0, d => .ok d
  | i + 1, d => do
    let d ← writeSectors hdr buf firstSector i d
    d.writeSector (← hdr.byteToSector ((firstSector + i) * SectorSize)) (block buf SectorSize i)

def paddedLength (fileLength : ℤ) : ℤ :=
  if fileLength.tmod SectorSize ≠ 0 then fileLength + (SectorSize - fileLength.tmod SectorSize)
  else fileLength

/-- The first case of `OpenFile::WriteAt`, inside of the file. The buffer is not cleared, so a
sector has to be read that is not written as a whole. -/
def writeInside (f : OpenFile) (from' : ℕ → UInt8) (numBytes position : ℕ) (d : Disk) :
    Except Fault Disk := do
  let firstSector := position / SectorSize
  let lastSector := (position + numBytes - 1) / SectorSize
  let (read, buf) ← f.readEdges (fun _ => 0) numBytes position firstSector lastSector d
  if read then
    let buf := blit buf (position - firstSector * SectorSize) numBytes from'
    writeSectors f.hdr buf firstSector (1 + lastSector - firstSector) d
  else .error .undefined

end OpenFile

end Filesys

/-! ## Bit maps in files -/

namespace BitMap

open Filesys Words Bytes

def numWords (b : BitMap) : ℕ :=
  b.numBits / BitsInWord + if 0 < b.numBits % BitsInWord then 1 else 0

/-- The words of the map in memory, byte by byte. -/
def bytes (b : BitMap) (v : ℕ) : UInt8 := byte (b.map (v / 4)) (v % 4)

/-- `BitMap::FetchFrom`. -/
def fetchFrom (file : OpenFile) (b : BitMap) (d : Disk) : Except Fault BitMap := do
  let (_, into) ← file.readAt b.bytes (b.numWords * 4) 0 d
  return { b with
    map := fun w => if w < b.numWords then word fun i => into (4 * w + i) else b.map w }

/-- `BitMap::BitMap`, for a number of bits that fills its words. -/
def ofSize (nitems : ℕ) : BitMap := ⟨nitems, fun _ => 0⟩

end BitMap

namespace Filesys

open Function Words Bytes

/-! ## Extension -/

namespace FileHeader

/-- The first `n` turns of the loop of `FileHeader::ExtendFile` for a file that starts with
fewer than `NumDirect` sectors: `i` is not advanced, so all sectors go to the same entry. -/
def extendDirect (i : ℕ) : ℕ → FileHeader → BitMap → Except Fault (FileHeader × BitMap)
  | 0, h, freeMap => .ok (h, freeMap)
  | n + 1, h, freeMap => do
    let (h, freeMap) ← extendDirect i n h freeMap
    let (sector, freeMap) := freeMap.findBit
    let dataSectors ← setAt h.dataSectors i sector
    return ({ h with dataSectors, numSectors := h.numSectors + 1 }, freeMap)

/-- The loop of `FileHeader::ExtendFile` for a longer file: every turn puts a new block into
the same entry, and the sector of the block is not set. -/
def extendBlocks (i : ℕ) : (turns sectorsToAllocate : ℕ) → FileHeader → BitMap →
    Except Fault (FileHeader × BitMap)
  | 0, sectorsToAllocate, h, freeMap =>
    if 0 < sectorsToAllocate then .error .undefined else .ok (h, freeMap)
  | turns + 1, sectorsToAllocate, h, freeMap =>
    if 0 < sectorsToAllocate then do
      let sectorsToAddToThisPage := min sectorsToAllocate MaxIndirectPointers
      let (block, freeMap) ← putSectors sectorsToAddToThisPage .empty freeMap
      let indirectPointers ← setAt h.indirectPointers (i - NumDirect : ℕ) (some block)
      extendBlocks i turns (sectorsToAllocate - sectorsToAddToThisPage)
        { h with indirectPointers, numSectors := h.numSectors + sectorsToAddToThisPage } freeMap
    else .ok (h, freeMap)

/-- The sectors that `FileHeader::ExtendFile` adds, out of the free map. A header has no
negative number of sectors. -/
def extendSectors (sectorsToAllocate : ℕ) (h : FileHeader) (freeMap : BitMap) :
    Except Fault (FileHeader × BitMap) :=
  if h.numSectors < 0 then .error .undefined
  else if h.numSectors < NumDirect then
    extendDirect h.numSectors.toNat sectorsToAllocate h freeMap
  else extendBlocks h.numSectors.toNat sectorsToAllocate sectorsToAllocate h freeMap

/-- `FileHeader::ExtendFile`, with the `WriteAt` that writes the free map back. The callers do
not see that it fails, since `false` is not `-1`. -/
def extendFile
    (writeAt : (ℕ → UInt8) → ℕ → ℕ → OpenFile → Disk → Except Fault (OpenFile × Disk))
    (sectorsToAllocate : ℤ) (h : FileHeader) (d : Disk) :
    Except Fault (Bool × FileHeader × Disk) := do
  let sectorsToAllocate := sectorsToAllocate - h.numSectors
  if sectorsToAllocate ≤ 0 then return (false, h, d)
  else
    let freeMapFile ← OpenFile.new FreeMapSector d
    let freeMap ← (BitMap.ofSize NumSectors).fetchFrom freeMapFile d
    if freeMap.numClear < sectorsToAllocate then return (false, h, d)
    else
      let (h, freeMap) ← h.extendSectors sectorsToAllocate.toNat freeMap
      let (_, d) ← writeAt freeMap.bytes (freeMap.numWords * 4) 0 freeMapFile d
      return (true, h, d)

end FileHeader

namespace OpenFile

/-- `OpenFile::WriteAt`, with `depth` nested calls at most. -/
def writeAt : (depth : ℕ) → (from' : ℕ → UInt8) → (numBytes position : ℕ) → OpenFile → Disk →
    Except Fault (OpenFile × Disk)
  | 0, _, _, _, _, _ => .error .undefined
  | depth + 1, from', numBytes, position, f, d =>
    let fileLength := paddedLength f.hdr.numBytes
    if (position + numBytes : ℕ) ≤ fileLength then do
      return (f, ← f.writeInside from' numBytes position d)
    else if fileLength < 0 then .error .undefined
    else do
      -- past the end: from the position on, or from the end of the file if that is before it
      let start := if position < fileLength then position else fileLength.toNat
      let firstSector := start / SectorSize
      let lastSector := (position + numBytes - 1) / SectorSize
      let numSectors := 1 + lastSector - firstSector
      let (_, hdr, d) ← f.hdr.extendFile (writeAt depth) numSectors d
      let f := { f with hdr }
      let (_, buf) ← f.readEdges (fun _ => 0) numBytes position firstSector lastSector d
      let buf := blit buf (position - firstSector * SectorSize) numBytes from'
      let d ← writeSectors f.hdr buf firstSector numSectors d
      let f := { f with hdr := { f.hdr with numBytes := numBytes + start } }
      return (f, ← f.hdr.writeBack f.hdrSector d)

/-- The calls of `WriteAt` that can be nested. The second one writes the free map; a third one
is a recursion without end, since each call of `ExtendFile` reads the same header of the free
map. -/
def WriteDepth : ℕ := 2

/-- `OpenFile::WriteAt` with the number that it returns at the end, in all three cases. -/
def writeAtCount (from' : ℕ → UInt8) (numBytes position : ℕ) (f : OpenFile) (d : Disk) :
    Except Fault (ℕ × OpenFile × Disk) := do
  let (f, d) ← f.writeAt WriteDepth from' numBytes position d
  return (numBytes, f, d)

/-- `OpenFile::Read`, with the position before and after it. -/
def read (f : OpenFile) (into : ℕ → UInt8) (numBytes seekPosition : ℕ) (d : Disk) :
    Except Fault (ℕ × (ℕ → UInt8) × ℕ) := do
  let (result, into) ← f.readAt into numBytes seekPosition d
  return (result, into, seekPosition + result)

/-- `OpenFile::Write`, with the position before and after it. -/
def write (from' : ℕ → UInt8) (numBytes seekPosition : ℕ) (f : OpenFile) (d : Disk) :
    Except Fault (ℕ × ℕ × OpenFile × Disk) := do
  let (result, f, d) ← f.writeAtCount from' numBytes seekPosition d
  return (result, seekPosition + result, f, d)

end OpenFile

end Filesys

/-- `BitMap::WriteBack`. -/
def BitMap.writeBack (file : Filesys.OpenFile) (b : BitMap) (d : Filesys.Disk) :
    Except Filesys.Fault (Filesys.OpenFile × Filesys.Disk) :=
  file.writeAt Filesys.OpenFile.WriteDepth b.bytes (b.numWords * 4) 0 d

end Nachos
