import Nachos.Filesys.OpenFile

/-! # The directory

The table of the directory is written to its file after the number of its
entries. An entry takes 20 bytes: the flag, three bytes of padding, the sector,
ten characters and two bytes of padding; padding is written as zeros.
-/

namespace Nachos.Filesys

open Function Words Bytes

def FileNameMaxLen : ℕ := 9

/-- The characters of a C string before the zero that ends it. -/
def CString : Type := { l : List UInt8 // 0 ∉ l }

/-- `strncmp` says that the first `n` characters are the same. A list that ends has a zero
there. -/
def strncmpEq : ℕ → List UInt8 → List UInt8 → Bool
  | 0, _, _ => true
  | n + 1, a, b =>
    if a.headD 0 ≠ b.headD 0 then false
    else if a.headD 0 = 0 then true
    else strncmpEq n a.tail b.tail

def strncpy {m : ℕ} (dest : Fin m → UInt8) (src : List UInt8) (n : ℕ) : Fin m → UInt8 :=
  fun i => if (i : ℕ) < n then (src.takeWhile (· ≠ 0)).getD i 0 else dest i

structure DirectoryEntry where
  inUse : Bool
  sector : ℤ
  name : Fin (FileNameMaxLen + 1) → UInt8

namespace DirectoryEntry

def size : ℕ := 20

def chars (e : DirectoryEntry) : List UInt8 := List.ofFn e.name

def bytes (e : DirectoryEntry) (j : ℕ) : UInt8 :=
  if j = 0 then if e.inUse then 1 else 0
  else if j < 4 then 0
  else if j < 8 then intByte e.sector (j - 4)
  else if h : j - 8 < FileNameMaxLen + 1 then e.name ⟨j - 8, h⟩ else 0

def ofBytes (f : ℕ → UInt8) : DirectoryEntry where
  inUse := f 0 != 0
  sector := int fun i => f (4 + i)
  name i := f (8 + i)

def zero : DirectoryEntry := ⟨false, 0, fun _ => 0⟩

def set (name : CString) (newSector : ℤ) (e : DirectoryEntry) : DirectoryEntry where
  inUse := true
  sector := newSector
  name := strncpy e.name name.val FileNameMaxLen

def copy (e : DirectoryEntry) : DirectoryEntry where
  inUse := e.inUse
  sector := e.sector
  name := strncpy zero.name e.chars (FileNameMaxLen + 1)

end DirectoryEntry

structure Directory where
  table : List DirectoryEntry

namespace Directory

def tableSize (dir : Directory) : ℕ := dir.table.length

def tableBytes (dir : Directory) (v : ℕ) : UInt8 :=
  (dir.table.getD (v / DirectoryEntry.size) .zero).bytes (v % DirectoryEntry.size)

/-- `Directory::FetchFrom`, into a directory with this number of entries. A negative number of
entries cannot be allocated; the entries of a file that is too short to have any are not in
use. -/
def fetchFrom (size : ℕ) (file : OpenFile) (d : Disk) : Except Fault Directory := do
  let (_, into) ← file.readAt (intByte size) 4 0 d
  let tableSize := int into
  if tableSize < 0 then .error .undefined
  else
    let (_, table) ← file.readAt (fun _ => 0) (tableSize.toNat * DirectoryEntry.size) 4 d
    return ⟨(List.range tableSize.toNat).map fun i =>
      .ofBytes fun j => table (i * DirectoryEntry.size + j)⟩

/-- `Directory::WriteBack`. -/
def writeBack (file : OpenFile) (dir : Directory) (d : Disk) : Except Fault (OpenFile × Disk) := do
  let (file, d) ← file.writeAt OpenFile.WriteDepth (intByte dir.tableSize) 4 0 d
  file.writeAt OpenFile.WriteDepth dir.tableBytes (dir.tableSize * DirectoryEntry.size) 4 d

/-- The test of `Directory::FindIndex`. -/
def isEntry (name : CString) (e : DirectoryEntry) : Bool :=
  e.inUse && strncmpEq FileNameMaxLen e.chars name.val

/-- `Directory::FindIndex`, with `none` for `-1`. -/
def findIndex (name : CString) (dir : Directory) : Option ℕ := dir.table.findIdx? (isEntry name)

/-- `Directory::Find`. -/
def find (name : CString) (dir : Directory) : ℤ :=
  ((dir.table.find? (isEntry name)).map DirectoryEntry.sector).getD (-1)

/-- The table that `Directory::Add` makes when no entry is free: half as many entries more. -/
def grow (dir : Directory) : Directory :=
  ⟨dir.table.map .copy ++ List.replicate (dir.tableSize * 3 / 2 - dir.tableSize) .zero⟩

/-- `Directory::Add`. A table of one entry does not grow, and the new entry is outside of it. -/
def add (name : CString) (newSector : ℤ) (dir : Directory) : Except Fault (Bool × Directory) :=
  if (dir.findIndex name).isSome then .ok (false, dir)
  else
    match dir.table.findIdx? fun e => !e.inUse with
    | some i => .ok (true, ⟨dir.table.modify i (.set name newSector)⟩)
    | none =>
      if dir.tableSize < dir.grow.tableSize then
        .ok (true, ⟨dir.grow.table.modify dir.tableSize (.set name newSector)⟩)
      else .error .undefined

/-- `Directory::Remove`. -/
def remove (name : CString) (dir : Directory) : Bool × Directory :=
  match dir.findIndex name with
  | none => (false, dir)
  | some i => (true, ⟨dir.table.modify i fun e => { e with inUse := false }⟩)

end Directory

end Nachos.Filesys
