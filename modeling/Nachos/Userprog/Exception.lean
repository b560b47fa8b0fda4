import Nachos.Library.Command
import Nachos.Library.Words
import Nachos.Userprog.AddrSpace
import Nachos.Userprog.OpenFiles
import Nachos.Userprog.ProcessManager

/-! # System calls

The handlers of `exception.cc` work on the interrupt level, the memory, the
tables of open files and the process ids. The file system, the console and the
other threads are given by an environment. A handler that fails an assertion,
follows a pointer to no object or leaves an array has no result. A sum of type
`int` wraps around, as it does on the host.
-/

namespace Nachos.Userprog

open Function Command VM Words

inductive IntStatus | off | on
  deriving DecidableEq

structure Sys (φ : Type) where
  level : IntStatus
  memory : Memory
  files : OpenFiles φ
  diskBuffer : ℕ → UInt8
  /-- The process of the current thread; its address space and its `PCB` have its number. -/
  current : ℕ
  /-- A number that no process has had. -/
  next : ℕ
  /-- The process ids in use, of `MAX_PROCS`, and the ids of the processes. -/
  bitmap : BitMap
  pid : ℕ → ℕ
  /-- Register 2. -/
  result : ℤ
  /-- What has been printed. -/
  output : List UInt8

/-- The routines outside `userprog`. They may wait, so that other threads run before they return,
and may stop the machine. -/
structure Env (φ : Type) where
  /-- `FileSystem::Open`, with `none` for `NULL`. -/
  fileOpen : FileName → Sys φ → Option (Option φ × Sys φ)
  /-- `FileSystem::Create`, with size 0. -/
  fileCreate : FileName → Sys φ → Option (Unit × Sys φ)
  /-- `OpenFile::ReadAt`: the bytes read. -/
  readAt : φ → (numBytes position : ℤ) → Sys φ → Option (List UInt8 × Sys φ)
  /-- `OpenFile::WriteAt`. -/
  writeAt : φ → List UInt8 → (position : ℤ) → Sys φ → Option (Unit × Sys φ)
  /-- The executable in a file. -/
  noff : φ → NoffFile
  /-- The bytes of some calls of `getchar`. -/
  getchar : (count : ℕ) → Sys φ → ℕ → UInt8
  /-- `VMManager::swap` for the page of an address; nothing without virtual memory. -/
  swap : (vAddr : ℤ) → Sys φ → Option (Unit × Sys φ)
  /-- What other threads do while the current one does not run. -/
  others : Sys φ → Option (Unit × Sys φ)

variable {φ : Type}

abbrev Code (φ : Type) (α : Type) := StateT (Sys φ) Option α

namespace Sys

variable (E : Env φ)

/-- Run a routine outside `userprog`, or other threads. They use the interrupt level only through
locks, semaphores and switches, which restore it, and return in the same process. -/
def external {α : Type} (f : Sys φ → Option (α × Sys φ)) : Code φ α := fun s =>
  (f s).map fun r => (r.1, { r.2 with level := s.level, current := s.current })

/-- `Interrupt::OneTick`, which may let other threads run. -/
def oneTick : Code φ Unit := external E.others

/-- `Interrupt::SetLevel`. -/
def setLevel (now : IntStatus) : Code φ IntStatus := do
  let s ← get
  modify ({ · with level := now })
  (if now = .on ∧ s.level = .off then oneTick E else pure ())
  return s.level

def yield : Code φ Unit := do
  let oldLevel ← setLevel E .off
  external E.others
  let _ ← setLevel E oldLevel

/-- `Thread::Fork`, `Lock::Acquire` of a free lock and `Lock::Release`. -/
def atomically : Code φ Unit := do
  let oldLevel ← setLevel E .off
  let _ ← setLevel E oldLevel

/-! ## Memory of the current process -/

/-- `AddrSpace::Translate` for the current process; its callers use an address that is not set
where it fails. -/
def translate (vAddr : ℤ) : Code φ ℤ := do
  let s ← get
  let space ← require (s.memory.spaces s.current)
  require (space.translate vAddr)

/-- `getString`: the bytes up to the first zero, which has to be inside the main memory. -/
def getString (vAddr : ℤ) : Code φ FileName := do
  let pAddr ← translate vAddr
  let s ← get
  let byte := fun i : ℕ => s.memory.mainMemory (pAddr + i)
  let size ← require ((List.range (MemorySize - pAddr).toNat).find? fun i => byte i == 0)
  return (List.range size).map byte

def getMemFromVAddr (vAddr size : ℤ) : Code φ (List UInt8) :=
  if size = 0 then return []
  else do
    let pAddr ← translate vAddr
    let s ← get
    if 0 < size ∧ 0 ≤ pAddr ∧ pAddr + size ≤ MemorySize then
      return (List.range size.toNat).map fun i : ℕ => s.memory.mainMemory (pAddr + i)
    else stop

def putMemIntoVAddr (buffer : ℕ → UInt8) (length : ℕ) (vAddr size : ℤ) : Code φ Unit :=
  if size = 0 then return
  else do
    let pAddr ← translate vAddr
    if 0 < size ∧ size ≤ length ∧ 0 ≤ pAddr ∧ pAddr + size ≤ MemorySize then
      modify fun s => { s with memory := { s.memory with
        mainMemory := copyTo pAddr size.toNat buffer s.memory.mainMemory } }
    else stop

/-! ## Processes -/

/-- `ProcessManager::getPID`; without a free id it writes in front of the tables. -/
def getPID : Code φ ℕ := do
  atomically E
  let s ← get
  let (pid, bitmap) ← require s.bitmap.find
  modify ({ · with bitmap := bitmap })
  atomically E
  return pid

/-- The parts of a new process that are the same for `Exec` and `Fork`: its `PCB`. -/
def newPCB (pid : ℕ) : Code φ Unit :=
  modify fun s => { s with
    next := s.next + 1
    pid := update s.pid s.next pid
    files := { s.files with procs := update s.files.procs s.next (some .new) } }

def myExec (vAddr : ℤ) : Code φ Unit := do
  let oldLevel ← setLevel E .off
  let file ← getString vAddr
  let executable ← external (E.fileOpen file)
  match executable with
  | none => return
  | some executable =>
    let pid ← getPID E
    -- `AddrSpace::AddrSpace` reads the header and the segments from the file.
    let _ ← external (E.readAt executable 40 0)
    let s ← get
    let memory ← require (s.memory.create s.next (E.noff executable))
    modify ({ · with memory := memory })
    newPCB pid
    atomically E
    modify ({ · with result := pid })
    let _ ← setLevel E oldLevel
    yield E

def myFork : Code φ Unit := do
  let oldLevel ← setLevel E .off
  let s ← get
  let memory ← require (s.memory.copyAddrSpace s.current s.next)
  modify ({ · with memory := memory })
  let newPID ← getPID E
  newPCB newPID
  atomically E
  yield E
  modify ({ · with result := newPID })
  let _ ← setLevel E oldLevel

/-! ## Files -/

def myCreate (vAddr : ℤ) : Code φ Unit := do
  let oldLevel ← setLevel E .off
  let fileName ← getString vAddr
  external (E.fileCreate fileName)
  let _ ← setLevel E oldLevel

/-- The file system's part of `myOpen`. -/
def openOrCreate (vAddr : ℤ) (fileName : FileName) : Code φ (Option φ) := do
  let file ← external (E.fileOpen fileName)
  match file with
  | some file => return some file
  | none =>
    myCreate E vAddr
    external (E.fileOpen fileName)

def myOpen (vAddr : ℤ) : Code φ Unit := do
  let oldLevel ← setLevel E .off
  let fileName ← getString vAddr
  let file ← openOrCreate E vAddr fileName
  let s ← get
  let (sysOpenFile, files) ← require (s.files.getOpenFile fileName file)
  modify ({ · with files := files })
  match sysOpenFile with
  | none => return
  | some sysOpenFile =>
    let f ← require (files.heap sysOpenFile)
    let pcb ← require (files.procs s.current)
    modify fun s => { s with files := { s.files with
      procs := update s.files.procs s.current (some (pcb.open_ fileName sysOpenFile f.fd)) } }
    modify ({ · with result := f.fd })
    let _ ← setLevel E oldLevel

/-- `fsLock[fd]->Acquire()`. While another thread has the lock, others run; the thread does not
come back from a lock that is never released. -/
def acquire (fd : ℕ) : Code φ Unit := do
  let oldLevel ← setLevel E .off
  let s ← get
  (if (s.files.fsLock fd).admits s.current then pure () else external E.others)
  let s ← get
  (if (s.files.fsLock fd).admits s.current then
    modify ({ · with files := s.files.acquire s.current fd }) else stop)
  let _ ← setLevel E oldLevel

/-- `ProcessManager::closeFile`. -/
def closeFile (fd : ℕ) : Code φ Unit := do
  acquire E fd
  let s ← get
  let files ← require (s.files.closeFile s.current fd)
  modify ({ · with files := files })
  match s.files.sysOpenFileTable fd with
  | .null => return
  | _ => atomically E

/-- `PCB::closeFile` for the current process. -/
def closeUserFile (fd : ℤ) : Code φ Unit := do
  let s ← get
  let pcb ← require (s.files.procs s.current)
  if 0 ≤ fd ∧ fd < MAX_OPEN_FILES then
    let pcb ← require (pcb.closeFile fd.toNat)
    modify fun s => { s with files := { s.files with
      procs := update s.files.procs s.current (some pcb) } }
  else stop

def myClose (fd : ℤ) : Code φ Unit := do
  let oldLevel ← setLevel E .off
  closeUserFile fd
  closeFile E fd.toNat
  let _ ← setLevel E oldLevel

/-- `PCB::getOpenFile(int)` for the current process; the callers follow the pointer also where it
is `NULL`. -/
def userFile (fd : ℤ) : Code φ UserOpenFile := do
  let s ← get
  let pcb ← require (s.files.procs s.current)
  match pcb.getOpenFile fd with
  | some (.ptr file) => return file
  | _ => stop

def openFile (file : UserOpenFile) : Code φ φ := do
  let s ← get
  require (s.files.openFile file)

def setPosition (fd : ℤ) (file : UserOpenFile) (position : ℤ) : Code φ Unit := do
  let s ← get
  let pcb ← require (s.files.procs s.current)
  let pcb := { pcb with
    openFileTable := update pcb.openFileTable fd.toNat (.ptr { file with position := position }) }
  modify fun s => { s with files := { s.files with
    procs := update s.files.procs s.current (some pcb) } }

def copySize (vAddr size : ℤ) : ℤ :=
  let copySize := if size < PageSize then size else PageSize
  let offset := vAddr.tmod PageSize
  if PageSize ≤ copySize + offset then PageSize - offset else copySize

/-- The loop of `myRead` for files; the result is `totNumRead`. A turn copies at least one byte, so
`size` turns are enough. -/
def readLoop (file : UserOpenFile) : ℕ → (vAddr size pos totNumRead : ℤ) → Code φ ℤ
  | 0, _, size, _, totNumRead => if 0 < size then stop else return totNumRead
  | turns + 1, vAddr, size, pos, totNumRead =>
    if 0 < size then do
      let n := copySize vAddr size
      let f ← openFile file
      let bytes ← external (E.readAt f n pos)
      -- `bzero(diskBuffer, PageSize)` and `ReadAt` set the whole buffer.
      modify ({ · with diskBuffer := fun i => bytes.getD i 0 })
      putMemIntoVAddr (fun i => bytes.getD i 0) PageSize vAddr bytes.length
      readLoop file turns (addInt vAddr n) (size - n) (addInt pos n) (totNumRead + bytes.length)
    else return totNumRead

/-- The part of `myRead` for the console: `size` bytes go to `diskBuffer`, and one more than these
to the memory. -/
def readConsole (vAddr size : ℤ) : Code φ Unit :=
  if PageSize < size then stop
  else do
    let s ← get
    let input := E.getchar size.toNat s
    let buffer := fun i => if i < size.toNat then input i else s.diskBuffer i
    modify ({ · with diskBuffer := buffer })
    putMemIntoVAddr buffer PageSize vAddr (size + 1)
    modify ({ · with result := size })

/-- The part of `myRead` for files. -/
def readFile (vAddr size fd : ℤ) : Code φ Unit := do
  let file ← userFile fd
  let totNumRead ← readLoop E file size.toNat vAddr size file.position 0
  setPosition fd file (addInt file.position totNumRead)
  modify ({ · with result := totNumRead })

def myRead (vAddr size fd : ℤ) : Code φ Unit := do
  let oldLevel ← setLevel E .off
  (if fd = 0 then readConsole E vAddr size else readFile E vAddr size fd)
  let _ ← setLevel E oldLevel

/-- The loop of `myWrite` for the console, which does not advance the address. -/
def printLoop (vAddr : ℤ) : ℕ → (size : ℤ) → List UInt8 → Code φ (List UInt8)
  | 0, size, buffer => if 0 < size then stop else return buffer
  | turns + 1, size, buffer =>
    if 0 < size then do
      let n := copySize vAddr size
      let bytes ← getMemFromVAddr vAddr n
      printLoop vAddr turns (size - n) (buffer ++ bytes)
    else return buffer

/-- The loop of `myWrite` for files; the result is the position after it. -/
def writeLoop (file : UserOpenFile) : ℕ → (vAddr size pos : ℤ) → Code φ ℤ
  | 0, _, size, pos => if 0 < size then stop else return pos
  | turns + 1, vAddr, size, pos =>
    if 0 < size then do
      let n := copySize vAddr size
      let bytes ← getMemFromVAddr vAddr n
      modify ({ · with diskBuffer := fun i => bytes.getD i 0 })
      let f ← openFile file
      external (E.writeAt f bytes pos)
      writeLoop file turns (addInt vAddr n) (size - n) (addInt pos n)
    else return pos

/-- The part of `myWrite` for the console. -/
def writeConsole (vAddr size : ℤ) : Code φ Unit :=
  -- `new char[size + 1]`
  if size < 0 then stop
  else do
    let buffer ← printLoop vAddr size.toNat size []
    modify fun s => { s with output := s.output ++ buffer.takeWhile (· ≠ 0) }

/-- The part of `myWrite` for files. -/
def writeFile (vAddr size fd : ℤ) : Code φ Unit := do
  let file ← userFile fd
  let pos ← writeLoop E file size.toNat vAddr size file.position
  setPosition fd file pos

def myWrite (vAddr size fd : ℤ) : Code φ Unit := do
  let oldLevel ← setLevel E .off
  (if fd = 1 then writeConsole vAddr size else writeFile E vAddr size fd)
  let _ ← setLevel E oldLevel

def myPageFaultHandler (vAddr : ℤ) : Code φ Unit := do
  let oldLevel ← setLevel E .off
  external (E.swap vAddr)
  let _ ← setLevel E oldLevel

/-- The calls that return to `ExceptionHandler`. -/
inductive Call
  | exec (vAddr : ℤ)
  | fork
  | create (vAddr : ℤ)
  | open_ (vAddr : ℤ)
  | close (fd : ℤ)
  | read (vAddr size fd : ℤ)
  | write (vAddr size fd : ℤ)
  | pageFault (vAddr : ℤ)

/-- `ExceptionHandler`, up to the program counter. -/
def handler : Call → Code φ Unit
  | .exec vAddr => myExec E vAddr
  | .fork => myFork E
  | .create vAddr => myCreate E vAddr
  | .open_ vAddr => myOpen E vAddr
  | .close fd => myClose E fd
  | .read vAddr size fd => myRead E vAddr size fd
  | .write vAddr size fd => myWrite E vAddr size fd
  | .pageFault vAddr => myPageFaultHandler E vAddr

end Sys

end Nachos.Userprog
