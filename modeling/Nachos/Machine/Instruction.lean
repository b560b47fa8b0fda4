import Nachos.Library.Masks

/-! # Instructions

The operations of the simulator in groups, the tables that translate the bits
of an instruction, and `Decode`.
-/

namespace Nachos.Machine

/-- Integer arithmetic, logic, shifts, comparisons, multiplication and division. -/
inductive Arith
  | add | addi | addiu | addu | and | andi | div | divu | lui | mult | multu | nor | or | ori
  | sll | sllv | slt | slti | sltiu | sltu | sra | srav | srl | srlv | sub | subu | xor | xori
  deriving DecidableEq

inductive Move | mfhi | mflo | mthi | mtlo
  deriving DecidableEq

inductive Jump
  | beq | bgez | bgezal | bgtz | blez | bltz | bltzal | bne | j | jal | jalr | jr
  deriving DecidableEq

inductive Load | lb | lbu | lh | lhu | lw | lwl | lwr
  deriving DecidableEq

inductive Store | sb | sh | sw | swl | swr
  deriving DecidableEq

inductive OpCode
  | arith (op : Arith)
  | move (op : Move)
  | jump (op : Jump)
  | load (op : Load)
  | store (op : Store)
  | rfe
  | syscall
  | unimp
  | res
  deriving DecidableEq

inductive Format | i | j | r
  deriving DecidableEq

/-- What bits 31 to 26 of an instruction give: an operation, or `SPECIAL` or `BCOND` for further
decoding. -/
inductive Major
  | op (opCode : OpCode)
  | special
  | bcond
  deriving DecidableEq

structure OpInfo where
  opCode : Major
  format : Format
  deriving DecidableEq

def iFmt (opCode : OpCode) : OpInfo := ⟨.op opCode, .i⟩

def opTable : List OpInfo :=
  [⟨.special, .r⟩, ⟨.bcond, .i⟩, ⟨.op (.jump .j), .j⟩, ⟨.op (.jump .jal), .j⟩,
    iFmt (.jump .beq), iFmt (.jump .bne), iFmt (.jump .blez), iFmt (.jump .bgtz),
    iFmt (.arith .addi), iFmt (.arith .addiu), iFmt (.arith .slti), iFmt (.arith .sltiu),
    iFmt (.arith .andi), iFmt (.arith .ori), iFmt (.arith .xori), iFmt (.arith .lui),
    iFmt .unimp, iFmt .unimp, iFmt .unimp, iFmt .unimp,
    iFmt .res, iFmt .res, iFmt .res, iFmt .res,
    iFmt .res, iFmt .res, iFmt .res, iFmt .res,
    iFmt .res, iFmt .res, iFmt .res, iFmt .res,
    iFmt (.load .lb), iFmt (.load .lh), iFmt (.load .lwl), iFmt (.load .lw),
    iFmt (.load .lbu), iFmt (.load .lhu), iFmt (.load .lwr), iFmt .res,
    iFmt (.store .sb), iFmt (.store .sh), iFmt (.store .swl), iFmt (.store .sw),
    iFmt .res, iFmt .res, iFmt (.store .swr), iFmt .res,
    iFmt .unimp, iFmt .unimp, iFmt .unimp, iFmt .unimp,
    iFmt .res, iFmt .res, iFmt .res, iFmt .res,
    iFmt .unimp, iFmt .unimp, iFmt .unimp, iFmt .unimp,
    iFmt .res, iFmt .res, iFmt .res, iFmt .res]

def specialTable : List OpCode :=
  [.arith .sll, .res, .arith .srl, .arith .sra, .arith .sllv, .res, .arith .srlv, .arith .srav,
    .jump .jr, .jump .jalr, .res, .res, .syscall, .unimp, .res, .res,
    .move .mfhi, .move .mthi, .move .mflo, .move .mtlo, .res, .res, .res, .res,
    .arith .mult, .arith .multu, .arith .div, .arith .divu, .res, .res, .res, .res,
    .arith .add, .arith .addu, .arith .sub, .arith .subu, .arith .and, .arith .or, .arith .xor,
    .arith .nor,
    .res, .res, .arith .slt, .arith .sltu, .res, .res, .res, .res,
    .res, .res, .res, .res, .res, .res, .res, .res,
    .res, .res, .res, .res, .res, .res, .res, .res]

structure Instruction where
  opCode : OpCode
  rs : BitVec 5
  rt : BitVec 5
  rd : BitVec 5
  extra : BitVec 32

def immediate (value : BitVec 32) : BitVec 16 := value.extractLsb' 0 16

def shamt (value : BitVec 32) : BitVec 5 := value.extractLsb' 6 5

def extra (format : Format) (value : BitVec 32) : BitVec 32 :=
  match format with
  | .i =>
    let extra := value &&& 0xffff#32
    if extra &&& 0x8000#32 ≠ 0#32 then extra ||| 0xffff0000#32 else extra
  | .r => (value >>> 6) &&& 0x1f#32
  | .j => value &&& 0x3ffffff#32

/-- The operation of a `BCOND` instruction. -/
def branchCode (value : BitVec 32) : OpCode :=
  let i := value &&& 0x1f0000#32
  if i = 0#32 then .jump .bltz
  else if i = 0x10000#32 then .jump .bgez
  else if i = 0x100000#32 then .jump .bltzal
  else if i = 0x110000#32 then .jump .bgezal
  else .unimp

/-- The entry of `opTable` for an instruction. -/
def opInfo (value : BitVec 32) : OpInfo := opTable.getD (value >>> 26).toNat (iFmt .res)

/-- `Instruction::Decode`. -/
def decode (value : BitVec 32) : Instruction where
  opCode :=
    match (opInfo value).opCode with
    | .op opCode => opCode
    | .special => specialTable.getD (value &&& 0x3f#32).toNat .res
    | .bcond => branchCode value
  rs := value.extractLsb' 21 5
  rt := value.extractLsb' 16 5
  rd := value.extractLsb' 11 5
  extra := extra (opInfo value).format value

variable {value : BitVec 32}

/-! ## Formats -/

def Arith.isImmediate : Arith → Bool
  | .addi | .addiu | .andi | .lui | .ori | .slti | .sltiu | .xori => true
  | _ => false

theorem opInfo_mem (value : BitVec 32) : opInfo value ∈ opTable := by
  have hlt : (value >>> 26).toNat < opTable.length := by
    rw [BitVec.toNat_ushiftRight, Nat.shiftRight_eq_div_pow]
    have := value.isLt
    change value.toNat / 2 ^ 26 < 64
    omega
  rw [opInfo, List.getD_eq_getElem?_getD, List.getElem?_eq_getElem hlt]
  exact List.getElem_mem hlt

theorem special_mem (value : BitVec 32) :
    specialTable.getD (value &&& 0x3f#32).toNat .res ∈ specialTable := by
  have hlt : (value &&& 0x3f#32).toNat < specialTable.length :=
    (Masks.toNat_and_low (k := 6) (by decide)).trans_lt (Nat.mod_lt _ (by decide))
  rw [List.getD_eq_getElem?_getD, List.getElem?_eq_getElem hlt]
  exact List.getElem_mem hlt

/-- Arithmetic operations of `opTable` are immediate forms, with their format, and `SPECIAL`
stands for the format of the others. -/
def OpInfo.fits (info : OpInfo) : Bool :=
  match info.opCode with
  | .op (.arith op) => op.isImmediate && info.format = .i
  | .special => info.format = .r
  | _ => true

/-- An arithmetic operation of `specialTable` is no immediate form. -/
def OpCode.isPlain : OpCode → Bool
  | .arith op => !op.isImmediate
  | _ => true

theorem branchCode_ne_arith {op : Arith} : branchCode value ≠ .arith op := by
  unfold branchCode
  dsimp only
  split_ifs <;> simp

theorem format_of_decode {op : Arith} (h : (decode value).opCode = .arith op) :
    (opInfo value).format = if op.isImmediate then .i else .r := by
  have hinfo : ∀ info ∈ opTable, info.fits = true := by decide
  have hspecial : ∀ opCode ∈ specialTable, opCode.isPlain = true := by decide
  have hfits := hinfo _ (opInfo_mem value)
  simp only [decode] at h
  unfold OpInfo.fits at hfits
  split at h
  next opCode hop =>
    subst h
    simp only [hop, Bool.and_eq_true, decide_eq_true_eq] at hfits
    rw [if_pos hfits.1, hfits.2]
  next hop =>
    have hplain := hspecial _ (special_mem value)
    rw [h] at hplain
    simp only [hop, decide_eq_true_eq] at hfits
    rw [hfits, if_neg (by simpa [OpCode.isPlain] using hplain)]
  next => exact absurd h branchCode_ne_arith

/-! ## Operands -/

theorem and_and_ne_zero :
    (value &&& 0xffff#32) &&& 0x8000#32 ≠ 0#32 ↔ (immediate value).msb = true := by
  have htwo : 0x8000#32 = BitVec.twoPow 32 15 := by decide
  rw [htwo, Masks.and_bit_ne_zero, immediate, BitVec.msb_eq_getLsbD_last]
  simp

theorem extra_i : extra .i value = (immediate value).signExtend 32 := by
  have hlow : ∀ i < 32, (0xffff#32).getLsbD i = decide (i < 16) :=
    fun i hi => Masks.getLsbD_low (k := 16) hi
  have hhigh : ∀ i < 32, (0xffff0000#32).getLsbD i = !decide (i < 16) := by decide
  apply BitVec.eq_of_getLsbD_eq
  intro i hi
  rw [BitVec.getLsbD_signExtend]
  simp only [extra, and_and_ne_zero]
  split
  case isTrue hmsb =>
    rw [BitVec.getLsbD_or, BitVec.getLsbD_and, hlow i hi, hhigh i hi, hmsb]
    by_cases h16 : i < 16 <;> simp [h16, hi, immediate]
  case isFalse hmsb =>
    rw [BitVec.getLsbD_and, hlow i hi, eq_false_of_ne_true hmsb]
    by_cases h16 : i < 16 <;> simp [h16, hi, immediate]

theorem toNat_extra_r : (extra .r value).toNat = (shamt value).toNat := by
  rw [extra, shamt, BitVec.extractLsb'_toNat, ← BitVec.toNat_ushiftRight]
  exact Masks.toNat_and_low (k := 5) (by decide)

end Nachos.Machine
