import Nachos.Library.Masks
import Nachos.Userprog.AddrSpace

/-! # Translation of addresses

`ReadMem` and `WriteMem` reach the main memory through `Machine::Translate`,
which has a linear page table or a TLB, or, with virtual memory, brings pages
in. A memory unit is one of these, with what user programs find in their memory,
which a translation does not change.
-/

namespace Nachos.Machine

open VM

inductive ExceptionType
  | syscall
  | pageFault
  | readOnly
  | busError
  | addressError
  | overflow
  | illegalInstr
  deriving DecidableEq

/-- `Machine::Translate`, the main memory behind it, and the memory that user programs see. A
translation that fails an assertion has no result. -/
structure MemoryUnit (μ V : Type) where
  translate : BitVec 32 → Size → Bool → μ → Option (Except ExceptionType ℕ × μ)
  mainMemory : μ → ℕ → UInt8
  setMainMemory : (ℕ → UInt8) → μ → μ
  userMemory : μ → V
  Valid : μ → Prop
  valid_translate : ∀ {addr size writing m r m'}, Valid m →
    translate addr size writing m = some (r, m') → Valid m'
  userMemory_translate : ∀ {addr size writing m r m'}, Valid m →
    translate addr size writing m = some (r, m') → userMemory m' = userMemory m

/-! ## Page tables and the TLB -/

/-- The main memory, with a TLB or a page table. -/
structure Mmu where
  mainMemory : ℕ → UInt8
  tlb : Option (List TranslationEntry)
  pageTable : Option (List TranslationEntry)

namespace Mmu

/-- `Translate`, once the entry has been found. -/
def useEntry (virtAddr : BitVec 32) (size : Size) (writing : Bool) (entry : TranslationEntry) :
    Option (Except ExceptionType (ℕ × TranslationEntry)) :=
  if entry.readOnly && writing then some (.error .readOnly)
  else
    let pageFrame := entry.physicalPage
    if NumPhysPages ≤ pageFrame then some (.error .busError)
    else
      let entry := { entry with use := true, dirty := entry.dirty || writing }
      let physAddr := pageFrame * PageSize + virtAddr.toNat % PageSize
      if physAddr + size.bytes ≤ MemorySize then some (.ok (physAddr, entry)) else none

/-- `Machine::Translate`. -/
def translate (virtAddr : BitVec 32) (size : Size) (writing : Bool) (m : Mmu) :
    Option (Except ExceptionType ℕ × Mmu) :=
  if size = .word ∧ virtAddr &&& 3#32 ≠ 0#32 ∨ size = .half ∧ virtAddr &&& 1#32 ≠ 0#32 then
    some (.error .addressError, m)
  else
    let vpn := virtAddr.toNat / PageSize
    match m.tlb, m.pageTable with
    | none, some pageTable =>
      match pageTable[vpn]? with
      | none => some (.error .addressError, m)
      | some entry =>
        if !entry.valid then some (.error .pageFault, m)
        else (useEntry virtAddr size writing entry).map fun
          | .error which => (.error which, m)
          | .ok (physAddr, entry) =>
            (.ok physAddr, { m with pageTable := some (pageTable.set vpn entry) })
    | some tlb, none =>
      match tlb.findIdx? fun entry => entry.valid && entry.virtualPage == vpn with
      | none => some (.error .pageFault, m)
      | some i =>
        (tlb[i]?).bind fun entry => (useEntry virtAddr size writing entry).map fun
          | .error which => (.error which, m)
          | .ok (physAddr, entry) => (.ok physAddr, { m with tlb := some (tlb.set i entry) })
    | _, _ => none

variable {m m' : Mmu} {virtAddr : BitVec 32} {size : Size} {writing : Bool}
  {r : Except ExceptionType ℕ}

theorem mainMemory_translate (h : translate virtAddr size writing m = some (r, m')) :
    m'.mainMemory = m.mainMemory := by
  unfold translate at h
  split at h
  · cases h
    rfl
  · dsimp only at h
    split at h
    · split at h
      · cases h
        rfl
      · split at h
        · cases h
          rfl
        · obtain ⟨x, -, hx⟩ := Option.map_eq_some_iff.mp h
          cases x <;> cases hx <;> rfl
    · split at h
      · cases h
        rfl
      · obtain ⟨entry, -, h⟩ := Option.bind_eq_some_iff.mp h
        obtain ⟨x, -, hx⟩ := Option.map_eq_some_iff.mp h
        cases x <;> cases hx <;> rfl
    · cases h

/-- The builds without virtual memory, where user programs see the main memory. -/
def unit : MemoryUnit Mmu (ℕ → UInt8) where
  translate := translate
  mainMemory := mainMemory
  setMainMemory mainMemory m := { m with mainMemory := mainMemory }
  userMemory := mainMemory
  Valid _ := True
  valid_translate _ _ := trivial
  userMemory_translate _ h := mainMemory_translate h

def ofException : State.Exception → ExceptionType
  | .addressError => .addressError
  | .pageFault => .pageFault
  | .readOnly => .readOnly
  | .busError => .busError

theorem misaligned_iff :
    size = .word ∧ virtAddr &&& 3#32 ≠ 0#32 ∨ size = .half ∧ virtAddr &&& 1#32 ≠ 0#32 ↔
      size.bytes = 4 ∧ virtAddr.toNat % 4 ≠ 0 ∨ size.bytes = 2 ∧ virtAddr.toNat % 2 ≠ 0 := by
  have hword : virtAddr &&& 3#32 ≠ 0#32 ↔ virtAddr.toNat % 4 ≠ 0 :=
    Masks.and_low_ne_zero (k := 2) (by decide)
  have hhalf : virtAddr &&& 1#32 ≠ 0#32 ↔ virtAddr.toNat % 2 ≠ 0 :=
    Masks.and_low_ne_zero (k := 1) (by decide)
  rw [hword, hhalf]
  cases size <;> simp [Size.bytes]

/-- With the page table of an address space, addresses are translated as in
`AddrSpace.machineTranslate`. -/
theorem translate_pageTable {mainMemory : ℕ → UInt8} {space : Userprog.AddrSpace} :
    translate virtAddr size writing ⟨mainMemory, none, some space.pageTable⟩ =
      (space.machineTranslate virtAddr.toNat size.bytes writing).map fun r =>
        (r.1.mapError ofException, ⟨mainMemory, none, some r.2.pageTable⟩) := by
  unfold translate Userprog.AddrSpace.machineTranslate
  simp only [misaligned_iff]
  split
  · rfl
  · cases space.pageTable[virtAddr.toNat / PageSize]? with
    | none => rfl
    | some entry =>
      simp only [useEntry]
      split_ifs <;> rfl

end Mmu

end Nachos.Machine
