import Mathlib.Algebra.Ring.Int.Defs
import Mathlib.Data.Int.Notation
import Nachos.Library.Transition
import Nachos.VM.Manager

/-! # Address spaces

User programs reach their memory through `Machine::Translate`, with page
faults going to `myPageFaultHandler`; the kernel reaches it through
`AddrSpace::Translate`. The executable is given with its header parsed, as
the bytes of a file that holds its segments.
-/

namespace Nachos.VM

open Function Bytes

variable {σ : Type}

/-! ## Values in memory -/

inductive Size | byte | half | word
  deriving DecidableEq

def Size.bytes : Size → ℕ
  | .byte => 1
  | .half => 2
  | .word => 4

/-- The value that `Machine::ReadMem` makes of the bytes: a `char` is extended with its sign,
an `unsigned short` with zeros. -/
def readValue (size : Size) (f : ℕ → UInt8) : BitVec 32 :=
  match size with
  | .byte => (f 0).toBitVec.signExtend 32
  | .half => BitVec.ofNat 32 ((f 0).toNat + 256 * (f 1).toNat)
  | .word => BitVec.ofNat 32
      ((f 0).toNat + 256 * (f 1).toNat + 65536 * (f 2).toNat + 16777216 * (f 3).toNat)

theorem readValue_congr {size : Size} {f g : ℕ → UInt8} (h : ∀ i < size.bytes, f i = g i) :
    readValue size f = readValue size g := by
  cases size with
  | byte => simp [readValue, h 0 (by decide)]
  | half => simp [readValue, h 0 (by decide), h 1 (by decide)]
  | word => simp [readValue, h 0 (by decide), h 1 (by decide), h 2 (by decide), h 3 (by decide)]

/-- The bytes that `Machine::WriteMem` stores, the lowest first. -/
def valueByte (value : BitVec 32) (i : ℕ) : UInt8 := UInt8.ofBitVec (value.extractLsb' (8 * i) 8)

/-! ## Executables -/

def UserStackSize : ℕ := 1024

def NOFFMAGIC : ℕ := 0xbadfad

structure Segment where
  virtualAddr : ℤ
  inFileAddr : ℤ
  size : ℤ

/-- An executable: the header and the bytes of the file. -/
structure NoffFile where
  noffMagic : ℕ
  code : Segment
  initData : Segment
  uninitData : Segment
  content : ℕ → UInt8

def divRoundUp (n s : ℕ) : ℕ := n / s + if 0 < n % s then 1 else 0

/-- The pages of the address space; the sum is taken as `unsigned int`. -/
def NoffFile.numPages (x : NoffFile) : ℕ :=
  divRoundUp ((x.code.size + x.initData.size + x.uninitData.size + UserStackSize) % 2 ^ 32).toNat
    PageSize

namespace State

/-! ## User-mode accesses -/

inductive Exception | addressError | pageFault | readOnly | busError
  deriving DecidableEq

/-- `Machine::Translate`, with the page table of the address space. -/
def translate (P : Replacement σ) (id virtAddr size : ℕ) (writing : Bool) (s : State σ) :
    Option (Except Exception ℕ × State σ) := do
  if size = 4 ∧ virtAddr % 4 ≠ 0 ∨ size = 2 ∧ virtAddr % 2 ≠ 0 then
    some (.error .addressError, s)
  else
    let pageTableSize ← s.numPages id
    let entry : EntryPtr := ⟨id, virtAddr / PageSize⟩
    if pageTableSize ≤ entry.page then some (.error .addressError, s)
    else if !(s.pageTable entry).valid then some (.error .pageFault, s)
    else if (s.pageTable entry).readOnly && writing then some (.error .readOnly, s)
    else
      let (pageFrame, s) ← s.getPhysicalPage P entry
      let s := s.markPage P pageFrame
      if NumPhysPages ≤ pageFrame then some (.error .busError, s)
      else
        let e := s.pageTable entry
        let physAddr := pageFrame * PageSize + virtAddr % PageSize
        if physAddr + size ≤ MemorySize then
          some (.ok physAddr, s.setEntry entry { e with use := true, dirty := e.dirty || writing })
        else none

/-- `myPageFaultHandler`. -/
def pageFaultHandler (P : Replacement σ) (id vAddr : ℕ) (s : State σ) : Option (State σ) := do
  let page : EntryPtr := ⟨id, vAddr / PageSize⟩
  let (_, s) ← s.swap P page
  some (s.setEntry page { s.pageTable page with valid := true })

/-- `ExceptionHandler`, for the exceptions of `Translate`: all but page faults stop the
machine. -/
def exceptionHandler (P : Replacement σ) (id vAddr : ℕ) (which : Exception) (s : State σ) :
    Option (State σ) :=
  match which with
  | .pageFault => s.pageFaultHandler P id vAddr
  | _ => none

/-- `Machine::ReadMem`; the result is `none` where the exception was handled and the
instruction is to run again. -/
def readMem (P : Replacement σ) (id addr : ℕ) (size : Size) (s : State σ) :
    Option (Option (BitVec 32) × State σ) := do
  match ← s.translate P id addr size.bytes false with
  | (.error e, s) => (s.exceptionHandler P id addr e).map (none, ·)
  | (.ok physAddr, s) =>
    some (some (readValue size fun i => s.mainMemory (physAddr + i)), s)

/-- `Machine::WriteMem`. -/
def writeMem (P : Replacement σ) (id addr : ℕ) (size : Size) (value : BitVec 32) (s : State σ) :
    Option (Bool × State σ) := do
  match ← s.translate P id addr size.bytes true with
  | (.error e, s) => (s.exceptionHandler P id addr e).map (false, ·)
  | (.ok physAddr, s) =>
    some (true, { s with mainMemory := blit s.mainMemory physAddr size.bytes (valueByte value) })

/-! ## Kernel accesses -/

/-- `AddrSpace::Translate`, with `none` where it returns `false`; the division is that of
`int`. -/
def spaceTranslate (P : Replacement σ) (id : ℕ) (virtAddr : ℤ) (s : State σ) :
    Option (Option ℤ × State σ) := do
  let numPages ← s.numPages id
  let vPageNum := virtAddr.tdiv PageSize
  let offset := virtAddr.tmod PageSize
  if vPageNum < 0 ∨ numPages ≤ vPageNum then some (none, s)
  else
    let (pPageNum, s) ← s.getPhysicalPage P ⟨id, vPageNum.toNat⟩
    some (some (pPageNum * PageSize + offset), s)

/-- The address in the main memory of `size` bytes; the callers of `AddrSpace::Translate` do
not test its result and use an address that is not set when it fails. -/
def kernelAddr (P : Replacement σ) (id : ℕ) (vAddr : ℤ) (size : ℕ) (s : State σ) :
    Option (ℕ × State σ) := do
  let (pAddr, s) ← s.spaceTranslate P id vAddr
  let pAddr ← pAddr
  if 0 ≤ pAddr ∧ pAddr + size ≤ MemorySize then some (pAddr.toNat, s) else none

def getMemFromVAddr (P : Replacement σ) (id : ℕ) (vAddr : ℤ) (size : ℕ) (s : State σ) :
    Option (List UInt8 × State σ) := do
  let (pAddr, s) ← s.kernelAddr P id vAddr size
  some ((List.range size).map fun i => s.mainMemory (pAddr + i), s)

/-- `putMemIntoVAddr`. The buffer of its callers is `diskBuffer`, whose bytes are taken when the
address has been translated. -/
def putMemIntoVAddr (P : Replacement σ) (id : ℕ) (vAddr : ℤ) (size : ℕ) (s : State σ) :
    Option (State σ) := do
  let (pAddr, s) ← s.kernelAddr P id vAddr size
  some { s with mainMemory := blit s.mainMemory pAddr size s.diskBuffer }

def setBuffer (n : ℕ) (g : ℕ → UInt8) (s : State σ) : State σ :=
  { s with diskBuffer := blit s.diskBuffer 0 n g }

/-- What `myRead` does with the bytes that it has read: they are put into `diskBuffer` and from
there into the memory of the process. -/
def storeBuffer (P : Replacement σ) (id : ℕ) (vAddr : ℤ) (buffer : List UInt8) (s : State σ) :
    Option (State σ) :=
  if buffer.length ≤ PageSize then
    (s.setBuffer buffer.length fun i => buffer.getD i 0).putMemIntoVAddr P id vAddr buffer.length
  else none

/-- `getString`: the bytes up to the first zero, which has to be inside the main memory. -/
def getString (P : Replacement σ) (id : ℕ) (vAddr : ℤ) (s : State σ) :
    Option (List UInt8 × State σ) := do
  let (pAddr, s) ← s.kernelAddr P id vAddr 0
  let size ← (List.range (MemorySize - pAddr)).find? fun i => s.mainMemory (pAddr + i) == 0
  some ((List.range size).map fun i => s.mainMemory (pAddr + i), s)

/-! ## Creation, exit and fork -/

/-- The entry that a page table starts with. -/
def newEntry (i pageNum : ℕ) : TranslationEntry where
  virtualPage := i
  physicalPage := pageNum
  valid := false
  readOnly := false
  use := false
  dirty := false

/-- The loop of `AddrSpace::AddrSpace` that sets up the first `n` entries. -/
def allocPages (id : ℕ) : ℕ → State σ → Option (State σ)
  | 0, s => some s
  | i + 1, s => do
    let s ← s.allocPages id i
    let (pageNum, s) ← s.allocPage
    some (s.setEntry ⟨id, i⟩ (newEntry i pageNum))

/-- `AddrSpace::ReadFile`, where `copySize` is kept from one turn of the loop to the next. A
turn copies at least one byte, so `size` turns are enough. -/
def readFile (id : ℕ) (x : NoffFile) :
    ℕ → (vAddr size fileAddr copySize : ℤ) → State σ → Option (State σ)
  | 0, _, size, _, _, s => if 0 < size then none else some s
  | turns + 1, vAddr, size, fileAddr, copySize, s =>
    if 0 < size then do
      let copySize := if size < PageSize then size else copySize
      let offset := vAddr.tmod PageSize
      let copySize := if PageSize ≤ copySize + offset then PageSize - offset else copySize
      let vPageNum := vAddr.tdiv PageSize
      if vPageNum < 0 ∨ fileAddr < 0 then none
      else
        let e ← s.entryAt ⟨id, vPageNum.toNat⟩
        let position := e.physicalPage * PageSize + offset
        if position < 0 then none
        else
          readFile id x turns (vAddr + copySize) (size - copySize) (fileAddr + copySize) copySize
            { s with
              diskBuffer := blit s.diskBuffer 0 copySize.toNat
                fun i => x.content (fileAddr.toNat + i)
              swapFile := blit s.swapFile position.toNat copySize.toNat
                fun i => x.content (fileAddr.toNat + i) }
    else some s

def readSegment (id : ℕ) (x : NoffFile) (g : Segment) (s : State σ) : Option (State σ) :=
  if 0 < g.size then
    s.readFile id x g.size.toNat g.virtualAddr g.size g.inFileAddr PageSize
  else some s

/-- `AddrSpace::AddrSpace(OpenFile*)`. -/
def create (id : ℕ) (x : NoffFile) (s : State σ) : Option (State σ) :=
  if s.numPages id = none ∧ x.noffMagic = NOFFMAGIC ∧ x.numPages ≤ s.swapMap.numClear then do
    let s ← (s.setNumPages id x.numPages).allocPages id x.numPages
    let s ← s.readSegment id x x.code
    s.readSegment id x x.initData
  else none

/-- The loop of `AddrSpace::~AddrSpace` over the first `n` entries. -/
def clearPages (P : Replacement σ) (id : ℕ) : ℕ → State σ → Option (State σ)
  | 0, s => some s
  | i + 1, s => do
    let s ← s.clearPages P id i
    let (_, s) ← s.getPhysicalPage P ⟨id, i⟩
    s.clearPage P (s.pageTable ⟨id, i⟩).physicalPage

/-- `AddrSpace::~AddrSpace`. -/
def destroy (P : Replacement σ) (id : ℕ) (s : State σ) : Option (State σ) := do
  let numPages ← s.numPages id
  let s ← s.clearPages P id numPages
  some (s.setNumPages id none)

/-- The loop of `AddrSpace::CopyAddrSpace` over the first `n` entries. -/
def copyPages (id spaceDest : ℕ) : ℕ → State σ → Option (State σ)
  | 0, s => some s
  | i + 1, s => do
    let s ← s.copyPages id spaceDest i
    let (pageNum, s) ← s.allocPage
    let s := s.setEntry ⟨spaceDest, i⟩ (newEntry i pageNum)
    some (s.copy (s.pageTable ⟨id, i⟩).physicalPage pageNum)

/-- `AddrSpace::CopyAddrSpace`, into a new address space. -/
def copyAddrSpace (id spaceDest : ℕ) (s : State σ) : Option (State σ) := do
  let numPages ← s.numPages id
  if s.numPages spaceDest = none then
    (s.setNumPages spaceDest numPages).copyPages id spaceDest numPages
  else none

end State

/-! ## The paging system -/

inductive Action
  | create (id : ℕ) (x : NoffFile)
  | load (id addr : ℕ) (size : Size)
  | store (id addr : ℕ) (size : Size) (value : BitVec 32)
  | exit (id : ℕ)
  | fork (id spaceDest : ℕ)
  | getMem (id : ℕ) (vAddr : ℤ) (size : ℕ)
  | putMem (id : ℕ) (vAddr : ℤ) (buffer : List UInt8)
  | getString (id : ℕ) (vAddr : ℤ)

inductive Output
  | done
  /-- A page fault was served; the instruction runs again. -/
  | faulted
  | value (v : BitVec 32)
  | bytes (bs : List UInt8)
  deriving DecidableEq

abbrev Label := Action × Output

open State in
def act (P : Replacement σ) (s : State σ) : Action → Option (Output × State σ)
  | .create id x => (s.create id x).map (.done, ·)
  | .load id addr size => (s.readMem P id addr size).map fun r => (r.1.elim .faulted .value, r.2)
  | .store id addr size value =>
    (s.writeMem P id addr size value).map fun r => (if r.1 then .done else .faulted, r.2)
  | .exit id => (s.destroy P id).map (.done, ·)
  | .fork id spaceDest => (s.copyAddrSpace id spaceDest).map (.done, ·)
  | .getMem id vAddr size => (s.getMemFromVAddr P id vAddr size).map fun r => (.bytes r.1, r.2)
  | .putMem id vAddr buffer => (s.storeBuffer P id vAddr buffer).map (.done, ·)
  | .getString id vAddr => (s.getString P id vAddr).map fun r => (.bytes r.1, r.2)

def step (P : Replacement σ) (s : State σ) (l : Label) : Option (State σ) :=
  (act P s l.1).bind fun r => if r.1 = l.2 then some r.2 else none

/-- The machine after start-up; the memories, the swap file and the policy are arbitrary. -/
structure Initial (s : State σ) : Prop where
  swapBits : s.swapMap.numBits = SwapSize
  swapMap : ∀ i < SwapSize, s.swapMap.test i = false
  memBits : s.memMap.numBits = NumPhysPages
  memMap : ∀ i < NumPhysPages, s.memMap.test i = false
  activePageMap : ∀ i, s.activePageMap i = none
  activePages : ∀ i, s.activePages i = none
  numPages : ∀ id, s.numPages id = none

def system (P : Replacement σ) : Transition.System (State σ) Label := .ofStep Initial (step P)

def boot (policy : σ) : State σ where
  mainMemory _ := 0
  swapFile _ := 0
  diskBuffer _ := 0
  swapMap := ⟨SwapSize, fun _ => 0⟩
  memMap := ⟨NumPhysPages, fun _ => 0⟩
  activePageMap _ := none
  activePages _ := none
  policy := policy
  numPages _ := none
  pageTable _ := State.newEntry 0 0

theorem initial_boot (policy : σ) : Initial (boot policy) where
  swapBits := rfl
  swapMap i _ := by simp [boot, BitMap.test]
  memBits := rfl
  memMap i _ := by simp [boot, BitMap.test]
  activePageMap _ := rfl
  activePages _ := rfl
  numPages _ := rfl

def blank (uninitSize : ℤ) : NoffFile where
  noffMagic := NOFFMAGIC
  code := ⟨0, 0, 0⟩
  initData := ⟨0, 0, 0⟩
  uninitData := ⟨0, 0, uninitSize⟩
  content _ := 0

theorem step_eq_some_iff {P : Replacement σ} {s t : State σ} {l : Label} :
    step P s l = some t ↔ act P s l.1 = some (l.2, t) := by
  simp only [step, Option.bind_eq_some_iff, Option.ite_none_right_eq_some, Option.some.injEq]
  constructor
  · rintro ⟨⟨o, u⟩, h, rfl, rfl⟩
    exact h
  · exact fun h => ⟨_, h, rfl, rfl⟩

end Nachos.VM
