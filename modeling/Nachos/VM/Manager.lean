import Nachos.Library.Bytes
import Nachos.Userprog.BitMap

/-! # Frames and swap pages

`VMManager` keeps pages of the swap file in the frames of the main memory. An
entry of a page table names the swap page of its virtual page, and a pointer
to an entry is its address space with the virtual page. A routine that fails
an assertion, or follows a pointer to no entry, has no result.
-/

namespace Nachos.VM

open Function Bytes

def PageSize : ℕ := 128

def NumPhysPages : ℕ := 32

def MemorySize : ℕ := NumPhysPages * PageSize

def SwapSize : ℕ := 512

structure TranslationEntry where
  virtualPage : ℕ
  /-- The page of the swap file, in this build. -/
  physicalPage : ℕ
  valid : Bool
  readOnly : Bool
  use : Bool
  dirty : Bool
  deriving DecidableEq

structure EntryPtr where
  space : ℕ
  page : ℕ
  deriving DecidableEq

/-- `IReplacement`, for policies that replace pages of the main memory. -/
structure Replacement (σ : Type) where
  pageUsed : ℕ → σ → σ
  getReplacement : σ → ℕ × σ
  clearPage : ℕ → σ → σ
  markPage : ℕ → σ → σ
  getReplacement_lt : ∀ p, (getReplacement p).1 < NumPhysPages

/-- `FIFO`; the list holds the entries of `queue` that are not `-1`, and has an entry when all
frames are in use. -/
def fifo : Replacement (List (Fin NumPhysPages)) where
  pageUsed pPage queue :=
    if h : pPage < NumPhysPages then
      if queue.length < NumPhysPages then queue ++ [⟨pPage, h⟩] else queue
    else queue
  getReplacement
    | [] => (0, [])
    | page :: queue => (page, queue ++ [page])
  clearPage pPage queue := queue.eraseP fun page => page.val == pPage
  markPage _ queue := queue
  getReplacement_lt
    | [] => by decide
    | page :: _ => page.isLt

structure State (σ : Type) where
  mainMemory : ℕ → UInt8
  swapFile : ℕ → UInt8
  /-- The buffer of `PageSize` bytes that the routines for pages and the system calls share. -/
  diskBuffer : ℕ → UInt8
  swapMap : BitMap
  /-- The frames that `MemoryManager` has handed out. -/
  memMap : BitMap
  /-- The swap page in each frame, with `none` for `-1`. -/
  activePageMap : ℕ → Option ℕ
  activePages : ℕ → Option EntryPtr
  policy : σ
  /-- The length of the page table of each live address space. -/
  numPages : ℕ → Option ℕ
  pageTable : EntryPtr → TranslationEntry

variable {σ : Type}

namespace State

def entryAt (s : State σ) (p : EntryPtr) : Option TranslationEntry :=
  match s.numPages p.space with
  | none => none
  | some n => if p.page < n then some (s.pageTable p) else none

def setEntry (p : EntryPtr) (e : TranslationEntry) (s : State σ) : State σ :=
  { s with pageTable := update s.pageTable p e }

@[simp] theorem setEntry_pageTable_self {s : State σ} {p : EntryPtr} {e : TranslationEntry} :
    (s.setEntry p e).pageTable p = e :=
  update_self ..

theorem setEntry_pageTable_of_ne {s : State σ} {p p' : EntryPtr} {e : TranslationEntry}
    (h : p' ≠ p) : (s.setEntry p e).pageTable p' = s.pageTable p' :=
  update_of_ne h ..

def setNumPages (id : ℕ) (n : Option ℕ) (s : State σ) : State σ :=
  { s with numPages := update s.numPages id n }

/-! ## The swap file -/

/-- `SwapManager::allocPage`. -/
def allocPage (s : State σ) : Option (ℕ × State σ) :=
  s.swapMap.find.map fun (page, m) =>
    (page, { s with
      swapMap := m
      diskBuffer := blit s.diskBuffer 0 PageSize fun _ => 0
      swapFile := blit s.swapFile (page * PageSize) PageSize fun _ => 0 })

/-- `SwapManager::copy`. -/
def copy (fromPage toPage : ℕ) (s : State σ) : State σ :=
  { s with
    diskBuffer := blit s.diskBuffer 0 PageSize fun i => s.swapFile (fromPage * PageSize + i)
    swapFile := blit s.swapFile (toPage * PageSize) PageSize
      fun i => s.swapFile (fromPage * PageSize + i) }

/-! ## The frames -/

/-- The first frame that holds the swap page, as the loops over `activePageMap` find it. -/
def frameOf (s : State σ) (sPage : ℕ) : Option ℕ :=
  (List.range NumPhysPages).find? fun i => s.activePageMap i == some sPage

def evict (pPage : ℕ) (s : State σ) : Option (State σ) := do
  let old ← s.activePages pPage
  let e ← s.entryAt old
  if e.dirty then
    let sPage ← s.activePageMap pPage
    some { s.setEntry old { e with use := false, dirty := false } with
      diskBuffer := blit s.diskBuffer 0 PageSize fun i => s.mainMemory (pPage * PageSize + i)
      swapFile := blit s.swapFile (sPage * PageSize) PageSize
        fun i => s.mainMemory (pPage * PageSize + i) }
  else some (s.setEntry old { e with use := false })

/-- The first half of `VMManager::swap`: a free frame, or the frame of a victim. -/
def takeFrame (P : Replacement σ) (s : State σ) : Option (ℕ × State σ) :=
  if 0 < s.memMap.numClear then
    s.memMap.find.map fun (pPage, m) =>
      (pPage, { s with memMap := m, policy := P.pageUsed pPage s.policy })
  else
    let (pPage, policy) := P.getReplacement s.policy
    (evict pPage { s with policy := policy }).map (pPage, ·)

/-- The second half of `VMManager::swap`. -/
def swapIn (pPage : ℕ) (newPage : EntryPtr) (sPage : ℕ) (s : State σ) : State σ :=
  { s with
    diskBuffer := blit s.diskBuffer 0 PageSize fun i => s.swapFile (sPage * PageSize + i)
    mainMemory := blit s.mainMemory (pPage * PageSize) PageSize
      fun i => s.swapFile (sPage * PageSize + i)
    activePageMap := update s.activePageMap pPage (some sPage)
    activePages := update s.activePages pPage (some newPage) }

/-- `VMManager::swap`. -/
def swap (P : Replacement σ) (newPage : EntryPtr) (s : State σ) : Option (ℕ × State σ) := do
  let e ← s.entryAt newPage
  let (pPage, s') ← s.takeFrame P
  some (pPage, s'.swapIn pPage newPage e.physicalPage)

/-- `VMManager::getPhysicalPage`. -/
def getPhysicalPage (P : Replacement σ) (page : EntryPtr) (s : State σ) :
    Option (ℕ × State σ) := do
  let e ← s.entryAt page
  match s.frameOf e.physicalPage with
  | some i => some (i, s)
  | none => s.swap P page

/-- `VMManager::clearPage`. When no frame holds the page, `memMgr->clearPage` fails its
assertion. -/
def clearPage (P : Replacement σ) (sPage : ℕ) (s : State σ) : Option (State σ) :=
  match s.frameOf sPage with
  | none => none
  | some pPage =>
    if pPage < s.memMap.numBits ∧ sPage < s.swapMap.numBits then
      some { s with
        diskBuffer := blit s.diskBuffer 0 PageSize fun _ => 0
        activePageMap := update s.activePageMap pPage none
        activePages := update s.activePages pPage none
        memMap := s.memMap.clear pPage
        swapFile := blit s.swapFile (sPage * PageSize) PageSize fun _ => 0
        swapMap := s.swapMap.clear sPage
        policy := P.clearPage pPage s.policy }
    else none

/-- `VMManager::markPage`. -/
def markPage (P : Replacement σ) (pPage : ℕ) (s : State σ) : State σ :=
  { s with policy := P.markPage pPage s.policy }

end State

end Nachos.VM
