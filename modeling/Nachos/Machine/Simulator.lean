import Nachos.Library.Outcome
import Nachos.Machine.Instruction
import Nachos.Machine.Mult
import Nachos.Machine.Translate

/-! # The simulator of user programs

`OneInstruction` fetches and decodes an instruction, executes one case of its
switch, applies the delayed load and advances the program counters. It is left
where `RaiseException` enters the kernel, where an assertion fails, and where
the host traps.
-/

namespace Nachos.Machine

abbrev NumTotalRegs : ℕ := 40

abbrev Registers := Fin NumTotalRegs → BitVec 32

def R0 : Fin NumTotalRegs := ⟨0, by decide⟩

def R31 : Fin NumTotalRegs := ⟨31, by decide⟩

def HiReg : Fin NumTotalRegs := ⟨32, by decide⟩

def LoReg : Fin NumTotalRegs := ⟨33, by decide⟩

def PCReg : Fin NumTotalRegs := ⟨34, by decide⟩

def NextPCReg : Fin NumTotalRegs := ⟨35, by decide⟩

def PrevPCReg : Fin NumTotalRegs := ⟨36, by decide⟩

def LoadReg : Fin NumTotalRegs := ⟨37, by decide⟩

def LoadValueReg : Fin NumTotalRegs := ⟨38, by decide⟩

def BadVAddrReg : Fin NumTotalRegs := ⟨39, by decide⟩

/-- The register that a field of an instruction names. -/
def gpReg (r : BitVec 5) : Fin NumTotalRegs := ⟨r.toNat, r.isLt.trans (by decide)⟩

abbrev SIGN_BIT : BitVec 32 := 0x80000000#32

end Nachos.Machine

structure Nachos.Machine (μ : Type) where
  registers : Nachos.Machine.Registers
  memory : μ

namespace Nachos.Machine

open Function VM

variable {μ V : Type}

/-- Why `OneInstruction` is left early; an exception with the state in which `ExceptionHandler` is
entered. -/
inductive Stop (μ : Type)
  | exception (which : ExceptionType) (s : Machine μ)
  | assertion
  | trap

def write (r : Fin NumTotalRegs) (value : BitVec 32) (s : Machine μ) : Machine μ :=
  { s with registers := update s.registers r value }

/-- `DelayedLoad`; a register number that is out of range is a wild store of the host. -/
def delayedLoad (nextReg nextValue : BitVec 32) (s : Machine μ) :
    Except (Stop μ) (Machine μ) :=
  if h : (s.registers LoadReg).toNat < NumTotalRegs then
    .ok ((((s.write ⟨(s.registers LoadReg).toNat, h⟩ (s.registers LoadValueReg)).write LoadReg
      nextReg).write LoadValueReg nextValue).write R0 0#32)
  else .error .trap

def raiseException {α : Type} (which : ExceptionType) (badVAddr : BitVec 32) (s : Machine μ) :
    Except (Stop μ) α := do
  let s ← (s.write BadVAddrReg badVAddr).delayedLoad 0#32 0#32
  .error (.exception which s)

def readMem (M : MemoryUnit μ V) (addr : BitVec 32) (size : Size) (s : Machine μ) :
    Except (Stop μ) (BitVec 32 × Machine μ) :=
  match M.translate addr size false s.memory with
  | none => .error .assertion
  | some (.error exception, m) => { s with memory := m }.raiseException exception addr
  | some (.ok physicalAddress, m) =>
    .ok (readValue size fun i => M.mainMemory m (physicalAddress + i), { s with memory := m })

def writeMem (M : MemoryUnit μ V) (addr : BitVec 32) (size : Size) (value : BitVec 32)
    (s : Machine μ) : Except (Stop μ) (Machine μ) :=
  match M.translate addr size true s.memory with
  | none => .error .assertion
  | some (.error exception, m) => { s with memory := m }.raiseException exception addr
  | some (.ok physicalAddress, m) =>
    .ok { s with
      memory := M.setMainMemory
        (Bytes.blit (M.mainMemory m) physicalAddress size.bytes (valueByte value)) m }

/-! ## The cases of the switch -/

inductive Result
  | write (r : BitVec 5) (value : BitVec 32)
  | hiLo (hi lo : BitVec 32)
  | overflow
  /-- The division of the host does not return. -/
  | trap
  deriving DecidableEq

def boolWord (b : Bool) : BitVec 32 := if b then 1#32 else 0#32

/-- `OP_ADD` to `OP_XORI`. The host divides the most negative number by `-1` with a trap. -/
def arithmetic (op : Arith) (instr : Instruction) (registers : Registers) : Result :=
  let rs := registers (gpReg instr.rs)
  let rt := registers (gpReg instr.rt)
  match op with
  | .add =>
    let sum := rs + rt
    if (rs ^^^ rt) &&& SIGN_BIT = 0#32 ∧ (rs ^^^ sum) &&& SIGN_BIT ≠ 0#32 then .overflow
    else .write instr.rd sum
  | .addi =>
    let sum := rs + instr.extra
    if (rs ^^^ instr.extra) &&& SIGN_BIT = 0#32 ∧ (instr.extra ^^^ sum) &&& SIGN_BIT ≠ 0#32 then
      .overflow
    else .write instr.rt sum
  | .addiu => .write instr.rt (rs + instr.extra)
  | .addu => .write instr.rd (rs + rt)
  | .and => .write instr.rd (rs &&& rt)
  | .andi => .write instr.rt (rs &&& (instr.extra &&& 0xffff#32))
  | .div =>
    if rt = 0#32 then .hiLo 0#32 0#32
    else if rs = BitVec.intMin 32 ∧ rt = -1#32 then .trap
    else .hiLo (rs.srem rt) (rs.sdiv rt)
  | .divu => if rt = 0#32 then .hiLo 0#32 0#32 else .hiLo (rs % rt) (rs / rt)
  | .lui => .write instr.rt (instr.extra <<< 16)
  | .mult => .hiLo (mult rs rt true).hi (mult rs rt true).lo
  | .multu => .hiLo (mult rs rt false).hi (mult rs rt false).lo
  | .nor => .write instr.rd (~~~(rs ||| rt))
  | .or => .write instr.rd (rs ||| rs)
  | .ori => .write instr.rt (rs ||| (instr.extra &&& 0xffff#32))
  | .sll => .write instr.rd (rt <<< instr.extra.toNat)
  | .sllv => .write instr.rd (rt <<< (rs &&& 0x1f#32).toNat)
  | .slt => .write instr.rd (boolWord (rs.slt rt))
  | .slti => .write instr.rt (boolWord (rs.slt instr.extra))
  | .sltiu => .write instr.rt (boolWord (rs.ult instr.extra))
  | .sltu => .write instr.rd (boolWord (rs.ult rt))
  | .sra => .write instr.rd (rt.sshiftRight instr.extra.toNat)
  | .srav => .write instr.rd (rt.sshiftRight (rs &&& 0x1f#32).toNat)
  -- `tmp` is an `int`, so these shift as the two above do
  | .srl => .write instr.rd (rt.sshiftRight instr.extra.toNat)
  | .srlv => .write instr.rd (rt.sshiftRight (rs &&& 0x1f#32).toNat)
  | .sub =>
    let diff := rs - rt
    if (rs ^^^ rt) &&& SIGN_BIT ≠ 0#32 ∧ (rs ^^^ diff) &&& SIGN_BIT ≠ 0#32 then .overflow
    else .write instr.rd diff
  | .subu => .write instr.rd (rs - rt)
  | .xor => .write instr.rd (rs ^^^ rt)
  | .xori => .write instr.rt (rs ^^^ (instr.extra &&& 0xffff#32))

/-- The machine after the switch, `pcAfter`, and the delayed load of the instruction. -/
structure Executed (μ : Type) where
  machine : Machine μ
  pcAfter : BitVec 32
  nextLoadReg : BitVec 5
  nextLoadValue : BitVec 32

def pcAfter (s : Machine μ) : BitVec 32 := s.registers NextPCReg + 4#32

/-- An instruction without a jump or a load. -/
def done (s : Machine μ) : Executed μ := ⟨s, s.pcAfter, 0#5, 0#32⟩

def loads (instr : Instruction) (value : BitVec 32) (s : Machine μ) : Executed μ :=
  ⟨s, s.pcAfter, instr.rt, value⟩

def finish (s : Machine μ) : Result → Except (Stop μ) (Executed μ)
  | .write r value => .ok (s.write (gpReg r) value).done
  | .hiLo hi lo => .ok ((s.write LoReg lo).write HiReg hi).done
  | .overflow => s.raiseException .overflow 0#32
  | .trap => .error .trap

def move (op : Move) (instr : Instruction) (s : Machine μ) : Machine μ :=
  match op with
  | .mfhi => s.write (gpReg instr.rd) (s.registers HiReg)
  | .mflo => s.write (gpReg instr.rd) (s.registers LoReg)
  | .mthi => s.write HiReg (s.registers (gpReg instr.rs))
  | .mtlo => s.write LoReg (s.registers (gpReg instr.rs))

def branch (taken : Bool) (instr : Instruction) (s : Machine μ) : Executed μ :=
  { s.done with
    pcAfter := if taken then s.registers NextPCReg + instr.extra <<< 2 else s.pcAfter }

def jump (op : Jump) (instr : Instruction) (s : Machine μ) : Executed μ :=
  let link := s.registers NextPCReg + 4#32
  match op with
  | .beq => s.branch (s.registers (gpReg instr.rs) = s.registers (gpReg instr.rt)) instr
  | .bgezal =>
    let s := s.write R31 link
    s.branch (s.registers (gpReg instr.rs) &&& SIGN_BIT = 0#32) instr
  | .bgez => s.branch (s.registers (gpReg instr.rs) &&& SIGN_BIT = 0#32) instr
  | .bgtz => s.branch (BitVec.slt 0#32 (s.registers (gpReg instr.rs))) instr
  | .blez => s.branch (BitVec.sle (s.registers (gpReg instr.rs)) 0#32) instr
  | .bltzal =>
    let s := s.write R31 link
    s.branch (s.registers (gpReg instr.rs) &&& SIGN_BIT ≠ 0#32) instr
  | .bltz => s.branch (s.registers (gpReg instr.rs) &&& SIGN_BIT ≠ 0#32) instr
  | .bne => s.branch (s.registers (gpReg instr.rs) ≠ s.registers (gpReg instr.rt)) instr
  | .jal =>
    let s := s.write R31 link
    { s.done with pcAfter := (s.pcAfter &&& 0xf0000000#32) ||| instr.extra <<< 2 }
  | .j => { s.done with pcAfter := (s.pcAfter &&& 0xf0000000#32) ||| instr.extra <<< 2 }
  | .jalr =>
    let s := s.write (gpReg instr.rd) link
    { s.done with pcAfter := s.registers (gpReg instr.rs) }
  | .jr => { s.done with pcAfter := s.registers (gpReg instr.rs) }

def address (instr : Instruction) (s : Machine μ) : BitVec 32 :=
  s.registers (gpReg instr.rs) + instr.extra

/-- What `OP_LWL` and `OP_LWR` merge the word with: the register, or the load that is under way to
it. -/
def merged (instr : Instruction) (s : Machine μ) : BitVec 32 :=
  if s.registers LoadReg = instr.rt.setWidth 32 then s.registers LoadValueReg
  else s.registers (gpReg instr.rt)

def assertAligned (tmp : BitVec 32) : Except (Stop μ) Unit :=
  if tmp &&& 3#32 = 0#32 then .ok () else .error .assertion

/-- The loads; those of bytes and half words are extended. Behind the assertion only the first case
of the inner switches is left. -/
def load (M : MemoryUnit μ V) (op : Load) (instr : Instruction) (s : Machine μ) :
    Except (Stop μ) (Executed μ) :=
  let tmp := s.address instr
  match op with
  | .lb | .lbu => do
    let (value, s) ← s.readMem M tmp .byte
    .ok (s.loads instr (if value &&& 0x80#32 ≠ 0#32 ∧ op = .lb then value ||| 0xffffff00#32
      else value &&& 0xff#32))
  | .lh | .lhu =>
    if tmp &&& 1#32 ≠ 0#32 then s.raiseException .addressError tmp
    else do
      let (value, s) ← s.readMem M tmp .half
      .ok (s.loads instr (if value &&& 0x8000#32 ≠ 0#32 ∧ op = .lh then value ||| 0xffff0000#32
        else value &&& 0xffff#32))
  | .lw =>
    if tmp &&& 3#32 ≠ 0#32 then s.raiseException .addressError tmp
    else do
      let (value, s) ← s.readMem M tmp .word
      .ok (s.loads instr value)
  | .lwl => do
    assertAligned tmp
    let (value, s) ← s.readMem M tmp .word
    .ok (s.loads instr value)
  | .lwr => do
    assertAligned tmp
    let (value, s) ← s.readMem M tmp .word
    .ok (s.loads instr
      ((s.merged instr &&& 0xffffff00#32) ||| (value.sshiftRight 24 &&& 0xff#32)))

def store (M : MemoryUnit μ V) (op : Store) (instr : Instruction) (s : Machine μ) :
    Except (Stop μ) (Machine μ) :=
  let tmp := s.address instr
  match op with
  | .sb => s.writeMem M tmp .byte (s.registers (gpReg instr.rt))
  | .sh => s.writeMem M tmp .half (s.registers (gpReg instr.rt))
  | .sw => s.writeMem M tmp .word (s.registers (gpReg instr.rt))
  | .swl => do
    assertAligned tmp
    let (_, s) ← s.readMem M (tmp &&& ~~~3#32) .word
    s.writeMem M (tmp &&& ~~~3#32) .word (s.registers (gpReg instr.rt))
  | .swr => do
    assertAligned tmp
    let (value, s) ← s.readMem M (tmp &&& ~~~3#32) .word
    s.writeMem M (tmp &&& ~~~3#32) .word
      ((value &&& 0xffffff#32) ||| s.registers (gpReg instr.rt) <<< 24)

/-- The switch of `OneInstruction`. -/
def execute (M : MemoryUnit μ V) (instr : Instruction) (s : Machine μ) :
    Except (Stop μ) (Executed μ) :=
  match instr.opCode with
  | .arith op => s.finish (arithmetic op instr s.registers)
  | .move op => .ok (s.move op instr).done
  | .jump op => .ok (s.jump op instr)
  | .load op => s.load M op instr
  | .store op => do
    let s ← s.store M op instr
    .ok s.done
  | .syscall => s.raiseException .syscall 0#32
  | .unimp | .res => s.raiseException .illegalInstr 0#32
  | .rfe => .error .assertion

def oneInstruction (M : MemoryUnit μ V) (s : Machine μ) : Except (Stop μ) (Machine μ) := do
  let (raw, s) ← s.readMem M (s.registers PCReg) .word
  let x ← s.execute M (decode raw)
  let s ← x.machine.delayedLoad (x.nextLoadReg.setWidth 32) x.nextLoadValue
  .ok (((s.write PrevPCReg (s.registers PCReg)).write PCReg (s.registers NextPCReg)).write
    NextPCReg x.pcAfter)

end Nachos.Machine
