import Nachos.Library.Transition
import Nachos.Filesys.Directory

/-! # The file system

The free map and the directory are files with their headers in sectors 0 and 1,
which are left open. The headers in memory stay as they are when the disk
changes.
-/

namespace Nachos.Filesys

open Function Words Bytes Transition

def FreeMapFileSize : ℤ := 128

def NumDirEntries : ℕ := 4

def DirectoryFileSize : ℤ := DirectoryEntry.size * NumDirEntries

structure FileSystem where
  disk : Disk
  freeMapFile : OpenFile
  directoryFile : OpenFile

namespace FileSystem

/-- `FileSystem::FileSystem(TRUE)`. The two headers and the table are in new memory that is not
cleared, with these bytes. -/
def format (mapMem dirMem : Sector) (tableMem : ℕ → UInt8) (d : Disk) :
    Except Fault FileSystem := do
  let freeMap := ((BitMap.ofSize NumSectors).mark FreeMapSector.toNat).mark DirectorySector.toNat
  let directory : Directory := ⟨(List.range NumDirEntries).map fun i =>
    { DirectoryEntry.ofBytes fun j => tableMem (i * DirectoryEntry.size + j) with inUse := false }⟩
  let (mapOk, mapHdr, freeMap) ← (FileHeader.ofSector mapMem).allocate freeMap FreeMapFileSize
  if !mapOk then .error .assertion
  else
    let (dirOk, dirHdr, freeMap) ← (FileHeader.ofSector dirMem).allocate freeMap DirectoryFileSize
    if !dirOk then .error .assertion
    else
      let d ← mapHdr.writeBack FreeMapSector d
      let d ← dirHdr.writeBack DirectorySector d
      let freeMapFile ← OpenFile.new FreeMapSector d
      let directoryFile ← OpenFile.new DirectorySector d
      let (freeMapFile, d) ← freeMap.writeBack freeMapFile d
      let (directoryFile, d) ← directory.writeBack directoryFile d
      return ⟨d, freeMapFile, directoryFile⟩

def fetchDirectory (fs : FileSystem) : Except Fault Directory :=
  Directory.fetchFrom NumDirEntries fs.directoryFile fs.disk

/-- The free map as the routines read it. -/
def fetchFreeMap (fs : FileSystem) : Except Fault BitMap :=
  (BitMap.ofSize NumSectors).fetchFrom fs.freeMapFile fs.disk

/-- Flush all changes of `FileSystem::Create` to the disk. -/
def flush (freeMap : BitMap) (hdr : FileHeader) (sector : ℤ) (directory : Directory)
    (fs : FileSystem) : Except Fault FileSystem := do
  let (freeMapFile, d) ← freeMap.writeBack fs.freeMapFile fs.disk
  let d ← hdr.writeBack sector d
  let (directoryFile, d) ← directory.writeBack fs.directoryFile d
  let _ ← FileHeader.fetchFrom DirectorySector d
  return ⟨d, freeMapFile, directoryFile⟩

/-- `FileSystem::Create`. -/
def create (name : CString) (initialSize : ℤ) (fs : FileSystem) :
    Except Fault (Bool × FileSystem) := do
  let directory ← fs.fetchDirectory
  let _ ← FileHeader.fetchFrom DirectorySector fs.disk
  if directory.find name ≠ -1 then return (false, fs)
  else
    let freeMap ← fs.fetchFreeMap
    let (sector, freeMap) := freeMap.findBit
    if sector = -1 then return (false, fs)
    else
      let (added, directory) ← directory.add name sector
      if !added then return (false, fs)
      else
        let (allocated, hdr, freeMap) ← FileHeader.zero.allocate freeMap initialSize
        if !allocated then return (false, fs)
        else return (true, ← fs.flush freeMap hdr sector directory)

/-- `FileSystem::Open`, with `none` for `NULL`. -/
def open_ (name : CString) (fs : FileSystem) : Except Fault (Option OpenFile) := do
  let directory ← fs.fetchDirectory
  let sector := directory.find name
  if 0 ≤ sector then return some (← OpenFile.new sector fs.disk) else return none

/-- `FileSystem::Remove`. -/
def remove (name : CString) (fs : FileSystem) : Except Fault (Bool × FileSystem) := do
  let directory ← fs.fetchDirectory
  let sector := directory.find name
  if sector = -1 then return (false, fs)
  else
    let fileHdr ← FileHeader.fetchFrom sector fs.disk
    let freeMap ← fs.fetchFreeMap
    let freeMap ← fileHdr.deallocate freeMap
    let freeMap ← freeMap.clearBit sector
    let (_, directory) := directory.remove name
    let (freeMapFile, d) ← freeMap.writeBack fs.freeMapFile fs.disk
    let (directoryFile, d) ← directory.writeBack fs.directoryFile d
    return (true, ⟨d, freeMapFile, directoryFile⟩)

end FileSystem

end Nachos.Filesys
