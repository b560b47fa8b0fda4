import Nachos.VM.AddrSpace

/-! # Address spaces without virtual memory

In this build an entry of a page table names a frame of the main memory, which
`MemoryManager` has handed out. `AddrSpace::Translate` serves the kernel and
`Machine::Translate` the user programs. A routine that fails an assertion has
no result.
-/

namespace Nachos.Userprog

open Function VM Transition

/-- `AddrSpace`; `numPages` is the length of the page table. -/
structure AddrSpace where
  pageTable : List TranslationEntry

structure Memory where
  /-- The bytes of `mainMemory`, and those before and after it. -/
  mainMemory : ℤ → UInt8
  /-- The bit map of `MemoryManager`. -/
  bitmap : BitMap
  /-- The live address spaces. -/
  spaces : ℕ → Option AddrSpace

def copyTo (pAddr : ℤ) (n : ℕ) (buffer : ℕ → UInt8) (mainMemory : ℤ → UInt8) : ℤ → UInt8 :=
  fun a => if pAddr ≤ a ∧ a < pAddr + n then buffer (a - pAddr).toNat else mainMemory a

namespace AddrSpace

def frames (space : AddrSpace) : List ℕ := space.pageTable.map (·.physicalPage)

/-- `AddrSpace::Translate`, with `none` where it returns `false`. The division is that of `int`;
for the comparison with `numPages` a negative page number becomes a large one. -/
def translate (virtAddr : ℤ) (space : AddrSpace) : Option ℤ :=
  let vPageNum := virtAddr.tdiv PageSize
  let offset := virtAddr.tmod PageSize
  if vPageNum < 0 then none
  else (space.pageTable[vPageNum.toNat]?).map fun e => e.physicalPage * PageSize + offset

/-- `AddrSpace::ReadFile`, where `copySize` is kept from one turn of the loop to the next. A turn
copies at least one byte, so `size` turns are enough. -/
def readFile (x : NoffFile) (space : AddrSpace) :
    ℕ → (vAddr size fileAddr copySize : ℤ) → (ℤ → UInt8) → ℤ → UInt8
  | 0, _, _, _, _, mainMemory => mainMemory
  | turns + 1, vAddr, size, fileAddr, copySize, mainMemory =>
    if 0 < size then
      let copySize := if size < PageSize then size else copySize
      match space.translate vAddr with
      | none => mainMemory
      | some pAddr =>
        readFile x space turns (vAddr + copySize) (size - copySize) (fileAddr + copySize) copySize
          (copyTo pAddr copySize.toNat (fun i => x.content (fileAddr + i).toNat) mainMemory)
    else mainMemory

def readSegment (x : NoffFile) (space : AddrSpace) (g : Segment) (mainMemory : ℤ → UInt8) :
    ℤ → UInt8 :=
  if 0 < g.size then
    space.readFile x g.size.toNat g.virtualAddr g.size g.inFileAddr PageSize mainMemory
  else mainMemory

/-- `Machine::Translate`, when the machine has the page table of the address space. -/
def machineTranslate (virtAddr size : ℕ) (writing : Bool) (space : AddrSpace) :
    Option (Except State.Exception ℕ × AddrSpace) :=
  if size = 4 ∧ virtAddr % 4 ≠ 0 ∨ size = 2 ∧ virtAddr % 2 ≠ 0 then
    some (.error .addressError, space)
  else
    let vpn := virtAddr / PageSize
    match space.pageTable[vpn]? with
    | none => some (.error .addressError, space)
    | some entry =>
      if !entry.valid then some (.error .pageFault, space)
      else if entry.readOnly && writing then some (.error .readOnly, space)
      else
        let pageFrame := entry.physicalPage
        if NumPhysPages ≤ pageFrame then some (.error .busError, space)
        else
          let entry := { entry with use := true, dirty := entry.dirty || writing }
          let physAddr := pageFrame * PageSize + virtAddr % PageSize
          if physAddr + size ≤ MemorySize then
            some (.ok physAddr, ⟨space.pageTable.set vpn entry⟩)
          else none

end AddrSpace

namespace Memory

/-! ## Frames -/

/-- `MemoryManager::getPage`, with `none` for `-1`. -/
def getPage (s : Memory) : Option (ℕ × Memory) :=
  s.bitmap.find.map fun r => (r.1, { s with bitmap := r.2 })

/-- `MemoryManager::clearPage`. -/
def clearPage (i : ℕ) (s : Memory) : Option Memory :=
  if i < s.bitmap.numBits then some { s with bitmap := s.bitmap.clear i } else none

/-- `MemoryManager::getFreePageCount`. -/
def getFreePageCount (s : Memory) : ℕ := s.bitmap.numClear

/-- The entry that a page table starts with. -/
def newEntry (i pageNum : ℕ) : TranslationEntry :=
  { State.newEntry i pageNum with valid := true }

/-- The loop of `AddrSpace::AddrSpace` that sets up `n` entries from entry `i` on. -/
def getPages (i : ℕ) : ℕ → Memory → Option (List TranslationEntry × Memory)
  | 0, s => some ([], s)
  | n + 1, s => do
    let (pageNum, s) ← s.getPage
    let (pageTable, s) ← s.getPages (i + 1) n
    some (newEntry i pageNum :: pageTable, s)

/-- The loop of `AddrSpace::CopyAddrSpace` over the entries from entry `i` on. -/
def copyPages (i : ℕ) : List TranslationEntry → Memory → Option (List TranslationEntry × Memory)
  | [], s => some ([], s)
  | e :: es, s => do
    let (pageNum, s) ← s.getPage
    let frame : ℕ → UInt8 := fun j => s.mainMemory (e.physicalPage * PageSize + j)
    let s := { s with mainMemory := copyTo (pageNum * PageSize) PageSize frame s.mainMemory }
    let (pageTable, s) ← s.copyPages (i + 1) es
    some (newEntry i pageNum :: pageTable, s)

/-- The loop of `AddrSpace::~AddrSpace`. -/
def clearPages : List TranslationEntry → Memory → Option Memory
  | [], s => some s
  | e :: es, s => (s.clearPage e.physicalPage).bind (clearPages es)

/-! ## Creation, exit and fork -/

/-- `AddrSpace::AddrSpace(OpenFile*)`. -/
def create (id : ℕ) (x : NoffFile) (s : Memory) : Option Memory :=
  if (s.spaces id).isNone ∧ x.noffMagic = NOFFMAGIC ∧ x.numPages ≤ s.getFreePageCount then do
    let (pageTable, s) ← s.getPages 0 x.numPages
    let space : AddrSpace := ⟨pageTable⟩
    let mainMemory := space.readSegment x x.code s.mainMemory
    let mainMemory := space.readSegment x x.initData mainMemory
    some { s with mainMemory := mainMemory, spaces := update s.spaces id (some space) }
  else none

/-- `AddrSpace::~AddrSpace`. -/
def destroy (id : ℕ) (s : Memory) : Option Memory := do
  let space ← s.spaces id
  let s ← s.clearPages space.pageTable
  some { s with spaces := update s.spaces id none }

/-- `AddrSpace::CopyAddrSpace`, into a new address space. -/
def copyAddrSpace (id spaceDest : ℕ) (s : Memory) : Option Memory := do
  let space ← s.spaces id
  if (s.spaces spaceDest).isNone then
    let (pageTable, s) ← s.copyPages 0 space.pageTable
    some { s with spaces := update s.spaces spaceDest (some ⟨pageTable⟩) }
  else none

/-! ## User-mode accesses -/

/-- `ExceptionHandler`, for the exceptions of `Translate`: `myPageFaultHandler` does nothing in
this build, all other exceptions stop the machine. -/
def exceptionHandler (which : State.Exception) : Option Unit :=
  match which with
  | .pageFault => some ()
  | _ => none

/-- `Machine::ReadMem`; the value is `none` where an exception was handled. -/
def readMem (id addr : ℕ) (size : Size) (s : Memory) : Option (Option (BitVec 32) × Memory) := do
  let space ← s.spaces id
  let (r, space) ← space.machineTranslate addr size.bytes false
  let s := { s with spaces := update s.spaces id (some space) }
  match r with
  | .error e => (exceptionHandler e).map fun _ => (none, s)
  | .ok physAddr => some (some (readValue size fun i => s.mainMemory (physAddr + i : ℕ)), s)

/-- `Machine::WriteMem`. -/
def writeMem (id addr : ℕ) (size : Size) (value : BitVec 32) (s : Memory) :
    Option (Bool × Memory) := do
  let space ← s.spaces id
  let (r, space) ← space.machineTranslate addr size.bytes true
  let s := { s with spaces := update s.spaces id (some space) }
  match r with
  | .error e => (exceptionHandler e).map fun _ => (false, s)
  | .ok physAddr =>
    some (true, { s with
      mainMemory := copyTo physAddr size.bytes (valueByte value) s.mainMemory })

inductive Action
  | create (id : ℕ) (x : NoffFile)
  | fork (id spaceDest : ℕ)
  | exit (id : ℕ)
  | load (id addr : ℕ) (size : Size)
  | store (id addr : ℕ) (size : Size) (value : BitVec 32)

def step (s : Memory) : Action → Option Memory
  | .create id x => s.create id x
  | .fork id spaceDest => s.copyAddrSpace id spaceDest
  | .exit id => s.destroy id
  | .load id addr size => (s.readMem id addr size).map Prod.snd
  | .store id addr size value => (s.writeMem id addr size value).map Prod.snd

/-- No address space is live and no frame is handed out; the memory is arbitrary. -/
structure Initial (s : Memory) : Prop where
  numBits : s.bitmap.numBits = NumPhysPages
  bitmap : ∀ i < NumPhysPages, s.bitmap.test i = false
  spaces : ∀ id, s.spaces id = none

/-- Address spaces are created, forked and deleted, and their programs run. -/
def system : System Memory Action := .ofStep Initial step

end Memory

end Nachos.Userprog
