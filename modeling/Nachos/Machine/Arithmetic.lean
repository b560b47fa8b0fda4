import Nachos.Machine.Simulator

/-! # Arithmetic

What the R2000 gives for the operands of an arithmetic instruction, in terms of
the numbers that they stand for, and the instructions for which the simulator
does so.
-/

namespace Nachos.Machine

open Function VM

variable {μ V : Type} {M : MemoryUnit μ V} {s : Machine μ} {x y rs rt : BitVec 32}
  {imm : BitVec 16} {sa : BitVec 5} {op : Arith} {value : BitVec 32}

/-! ## The definition of the R2000 -/

inductive Meaning
  | write (value : BitVec 32)
  | hiLo (hi lo : BitVec 32)
  /-- HI and LO are not defined. -/
  | undefined
  | overflow
  deriving DecidableEq

def Meaning.fit (n : ℤ) : Meaning :=
  if -2 ^ 31 ≤ n ∧ n < 2 ^ 31 then .write (BitVec.ofInt 32 n) else .overflow

def Meaning.halves (p : BitVec 64) : Meaning := .hiLo (p.extractLsb' 32 32) (p.extractLsb' 0 32)

/-- The value for two registers, the immediate operand and the shift amount. -/
def r2000 (op : Arith) (rs rt : BitVec 32) (imm : BitVec 16) (sa : BitVec 5) : Meaning :=
  match op with
  | .add => .fit (rs.toInt + rt.toInt)
  | .addi => .fit (rs.toInt + imm.toInt)
  | .addiu => .write (BitVec.ofInt 32 (rs.toInt + imm.toInt))
  | .addu => .write (BitVec.ofNat 32 (rs.toNat + rt.toNat))
  | .and => .write (rs &&& rt)
  | .andi => .write (rs &&& imm.setWidth 32)
  | .div =>
    if rt = 0#32 then .undefined
    else .hiLo (BitVec.ofInt 32 (rs.toInt.tmod rt.toInt)) (BitVec.ofInt 32 (rs.toInt.tdiv rt.toInt))
  | .divu =>
    if rt = 0#32 then .undefined
    else .hiLo (BitVec.ofNat 32 (rs.toNat % rt.toNat)) (BitVec.ofNat 32 (rs.toNat / rt.toNat))
  | .lui => .write (imm ++ 0#16)
  | .mult => .halves (BitVec.ofInt 64 (rs.toInt * rt.toInt))
  | .multu => .halves (BitVec.ofNat 64 (rs.toNat * rt.toNat))
  | .nor => .write (~~~(rs ||| rt))
  | .or => .write (rs ||| rt)
  | .ori => .write (rs ||| imm.setWidth 32)
  | .sll => .write (rt <<< sa.toNat)
  | .sllv => .write (rt <<< (rs.toNat % 32))
  | .slt => .write (if rs.toInt < rt.toInt then 1#32 else 0#32)
  | .slti => .write (if rs.toInt < imm.toInt then 1#32 else 0#32)
  | .sltiu => .write (if rs.toNat < (imm.signExtend 32).toNat then 1#32 else 0#32)
  | .sltu => .write (if rs.toNat < rt.toNat then 1#32 else 0#32)
  | .sra => .write (rt.sshiftRight sa.toNat)
  | .srav => .write (rt.sshiftRight (rs.toNat % 32))
  | .srl => .write (rt >>> sa.toNat)
  | .srlv => .write (rt >>> (rs.toNat % 32))
  | .sub => .fit (rs.toInt - rt.toInt)
  | .subu => .write (BitVec.ofInt 32 (rs.toInt - rt.toInt))
  | .xor => .write (rs ^^^ rt)
  | .xori => .write (rs ^^^ imm.setWidth 32)

def Arith.destination (op : Arith) (instr : Instruction) : BitVec 5 :=
  if op.isImmediate then instr.rt else instr.rd

/-- The switch writes what an instruction means, or raises the exception. -/
def Executes (M : MemoryUnit μ V) (s : Machine μ) (op : Arith) (instr : Instruction) :
    Meaning → Prop
  | .write value => s.execute M instr = .ok (s.write (gpReg (op.destination instr)) value).done
  | .hiLo hi lo => s.execute M instr = .ok ((s.write LoReg lo).write HiReg hi).done
  | .undefined => ∃ hi lo, s.execute M instr = .ok ((s.write LoReg lo).write HiReg hi).done
  | .overflow => s.execute M instr = s.raiseException .overflow 0#32

/-- The operands for which the simulator computes what the R2000 does: the second operand of `OR`
is not used, the logical shifts to the right fill with the sign, and the division of the host
traps. -/
def Sound (op : Arith) (rs rt : BitVec 32) (sa : BitVec 5) : Prop :=
  match op with
  | .or => rt &&& ~~~rs = 0#32
  | .srl => rt.msb = false ∨ sa = 0#5
  | .srlv => rt.msb = false ∨ rs.toNat % 32 = 0
  | .div => ¬ (rs = BitVec.intMin 32 ∧ rt = -1#32)
  | _ => True

/-! ## Overflow -/

theorem xor_and_signBit : (x ^^^ y) &&& SIGN_BIT ≠ 0#32 ↔ x.msb ≠ y.msb := by
  rw [and_topBit_ne_zero, BitVec.msb_xor]
  exact bne_iff_ne

theorem saddOverflow_iff : BitVec.saddOverflow x y = true ↔
    ¬ (-2 ^ 31 ≤ x.toInt + y.toInt ∧ x.toInt + y.toInt < 2 ^ 31) := by
  simp only [BitVec.saddOverflow, Bool.or_eq_true, decide_eq_true_eq]
  omega

theorem add_overflows_iff :
    (x ^^^ y) &&& SIGN_BIT = 0#32 ∧ (x ^^^ (x + y)) &&& SIGN_BIT ≠ 0#32 ↔
      ¬ (-2 ^ 31 ≤ x.toInt + y.toInt ∧ x.toInt + y.toInt < 2 ^ 31) := by
  rw [← saddOverflow_iff, BitVec.saddOverflow_eq, xor_and_signBit, ← not_ne_iff, xor_and_signBit]
  cases x.msb <;> cases y.msb <;> cases (x + y).msb <;> simp

theorem addi_overflows_iff :
    (x ^^^ y) &&& SIGN_BIT = 0#32 ∧ (y ^^^ (x + y)) &&& SIGN_BIT ≠ 0#32 ↔
      ¬ (-2 ^ 31 ≤ x.toInt + y.toInt ∧ x.toInt + y.toInt < 2 ^ 31) := by
  rw [← saddOverflow_iff, BitVec.saddOverflow_eq, xor_and_signBit, ← not_ne_iff, xor_and_signBit]
  cases x.msb <;> cases y.msb <;> cases (x + y).msb <;> simp

theorem sub_overflows_iff :
    (x ^^^ y) &&& SIGN_BIT ≠ 0#32 ∧ (x ^^^ (x - y)) &&& SIGN_BIT ≠ 0#32 ↔
      ¬ (-2 ^ 31 ≤ x.toInt - y.toInt ∧ x.toInt - y.toInt < 2 ^ 31) := by
  have hover : BitVec.ssubOverflow x y = true ↔
      ¬ (-2 ^ 31 ≤ x.toInt - y.toInt ∧ x.toInt - y.toInt < 2 ^ 31) := by
    simp only [BitVec.ssubOverflow, Bool.or_eq_true, decide_eq_true_eq]
    omega
  rw [← hover, BitVec.ssubOverflow_eq, xor_and_signBit, xor_and_signBit]
  cases x.msb <;> cases y.msb <;> cases (x - y).msb <;> simp

/-! ## Operands -/

theorem ofInt_toInt_add : BitVec.ofInt 32 (x.toInt + y.toInt) = x + y := by
  rw [BitVec.ofInt_add, BitVec.ofInt_toInt, BitVec.ofInt_toInt]

theorem ofInt_toInt_sub : BitVec.ofInt 32 (x.toInt - y.toInt) = x - y := by
  rw [sub_eq_add_neg, BitVec.ofInt_add, BitVec.ofInt_neg, BitVec.ofInt_toInt, BitVec.ofInt_toInt,
    BitVec.sub_eq_add_neg]

theorem signExtend_and_low : imm.signExtend 32 &&& 0xffff#32 = imm.setWidth 32 := by
  have hlow : ∀ i < 32, (0xffff#32).getLsbD i = decide (i < 16) :=
    fun i hi => Masks.getLsbD_low (k := 16) hi
  apply BitVec.eq_of_getLsbD_eq
  intro i hi
  rw [BitVec.getLsbD_and, BitVec.getLsbD_signExtend, BitVec.getLsbD_setWidth, hlow i hi]
  by_cases h16 : i < 16
  · simp [h16]
  · simp [h16, BitVec.getLsbD_of_ge imm i (by omega)]

theorem signExtend_shiftLeft : imm.signExtend 32 <<< 16 = imm ++ 0#16 := by
  apply BitVec.eq_of_getLsbD_eq
  intro i hi
  rw [BitVec.getLsbD_shiftLeft, BitVec.getLsbD_signExtend, BitVec.getLsbD_append]
  by_cases h16 : i < 16
  · simp [h16]
  · simp [h16, hi, show i - 16 < 32 by omega, show i - 16 < 16 by omega]

theorem toNat_and_low : (x &&& 0x1f#32).toNat = x.toNat % 32 :=
  Masks.toNat_and_low (k := 5) (by decide)

theorem boolWord_slt : boolWord (x.slt y) = if x.toInt < y.toInt then 1#32 else 0#32 := by
  simp only [boolWord, BitVec.slt_iff_toInt_lt]

theorem boolWord_ult : boolWord (x.ult y) = if x.toNat < y.toNat then 1#32 else 0#32 := by
  simp only [boolWord, BitVec.ult_eq_decide, decide_eq_true_eq]

theorem toInt_signExtend : (imm.signExtend 32).toInt = imm.toInt :=
  BitVec.toInt_signExtend_of_le (by decide)

theorem extra_of_immediate (h : (decode value).opCode = .arith op) (himm : op.isImmediate = true) :
    (decode value).extra = (immediate value).signExtend 32 := by
  rw [decode, format_of_decode h, if_pos himm, extra_i]

theorem toNat_extra (h : (decode value).opCode = .arith op) (himm : op.isImmediate = false) :
    (decode value).extra.toNat = (shamt value).toNat := by
  rw [decode, format_of_decode h, if_neg (by simp [himm]), toNat_extra_r]

/-! ## Results -/

section Results

variable {instr : Instruction} (h : instr.opCode = .arith op)

include h

theorem execute_arith : s.execute M instr = s.finish (arithmetic op instr s.registers) := by
  rw [execute, h]

theorem executes_write {v v' : BitVec 32}
    (harith : arithmetic op instr s.registers = .write (op.destination instr) v) :
    Executes M s op instr (.write v') ↔ v = v' := by
  rw [Executes, execute_arith h, harith]
  constructor
  · intro heq
    have hreg := congrArg (fun x => x.machine.registers (gpReg (op.destination instr)))
      (Except.ok.inj heq)
    simpa [done, write] using hreg
  · rintro rfl
    rfl

theorem executes_hiLo {hi lo hi' lo' : BitVec 32}
    (harith : arithmetic op instr s.registers = .hiLo hi lo) :
    Executes M s op instr (.hiLo hi' lo') ↔ hi = hi' ∧ lo = lo' := by
  rw [Executes, execute_arith h, harith]
  constructor
  · intro heq
    have hreg := fun r => congrArg (fun x => x.machine.registers r) (Except.ok.inj heq)
    have hhi := hreg HiReg
    have hlo := hreg LoReg
    simp only [done, write, update_self] at hhi
    simp only [done, write, update_of_ne (show LoReg ≠ HiReg by decide), update_self] at hlo
    exact ⟨hhi, hlo⟩
  · rintro ⟨rfl, rfl⟩
    rfl

theorem executes_fit {n : ℤ} {v : BitVec 32} {c : Prop} [Decidable c]
    (hc : c ↔ ¬ (-2 ^ 31 ≤ n ∧ n < 2 ^ 31)) (hv : v = BitVec.ofInt 32 n)
    (harith : arithmetic op instr s.registers =
      if c then .overflow else .write (op.destination instr) v) :
    Executes M s op instr (.fit n) := by
  unfold Meaning.fit
  split
  case isTrue hfit =>
    rw [if_neg (fun h => hc.mp h hfit)] at harith
    exact (executes_write h harith).mpr hv
  case isFalse hfit =>
    rw [if_pos (hc.mpr hfit)] at harith
    rw [Executes, execute_arith h, harith, finish]

theorem executes_halves {p : BitVec 64} {d : Double 32} (hd : d.value = p)
    (harith : arithmetic op instr s.registers = .hiLo d.hi d.lo) :
    Executes M s op instr (.halves p) := by
  subst hd
  exact (executes_hiLo h harith).mpr ⟨d.extractLsb'_value_hi.symm, d.extractLsb'_value_lo.symm⟩

end Results

/-! ## Where the simulator differs -/

theorem or_self_eq_iff : x ||| x = x ||| y ↔ y &&& ~~~x = 0#32 := by
  have hbits : ∀ i < 32, x.getLsbD i = (x.getLsbD i || y.getLsbD i) ↔
      (y.getLsbD i && !x.getLsbD i) = false := by
    intro i _
    cases x.getLsbD i <;> cases y.getLsbD i <;> simp
  rw [BitVec.or_self]
  constructor
  · intro heq
    apply BitVec.eq_of_getLsbD_eq
    intro i hi
    have hbit := (hbits i hi).mp (by rw [← BitVec.getLsbD_or, ← heq])
    simpa [hi] using hbit
  · intro heq
    apply BitVec.eq_of_getLsbD_eq
    intro i hi
    have hbit := congrArg (·.getLsbD i) heq
    simp only [BitVec.getLsbD_and, BitVec.getLsbD_not, BitVec.getLsbD_zero, hi, decide_true,
      Bool.true_and] at hbit
    rw [BitVec.getLsbD_or]
    exact (hbits i hi).mpr hbit

theorem sshiftRight_eq_ushiftRight_iff {n : ℕ} (hn : n < 32) :
    x.sshiftRight n = x >>> n ↔ x.msb = false ∨ n = 0 := by
  constructor
  · intro heq
    by_contra hnot
    obtain ⟨hmsb, hpos⟩ := not_or.mp hnot
    have htop := congrArg BitVec.msb heq
    rw [BitVec.msb_sshiftRight, BitVec.msb_ushiftRight] at htop
    simp [hpos] at htop
    exact hmsb htop
  · rintro (hmsb | rfl)
    · exact BitVec.sshiftRight_eq_of_msb_false hmsb
    · rw [BitVec.sshiftRight_zero, BitVec.ushiftRight_zero]

theorem executes_div {instr : Instruction} (h : instr.opCode = .arith .div)
    (hrs : rs = s.registers (gpReg instr.rs)) (hrt : rt = s.registers (gpReg instr.rt)) :
    Executes M s .div instr (r2000 .div rs rt imm sa) ↔
      ¬ (rs = BitVec.intMin 32 ∧ rt = -1#32) := by
  subst hrs hrt
  by_cases hzero : s.registers (gpReg instr.rt) = 0#32
  · have harith : arithmetic .div instr s.registers = .hiLo 0#32 0#32 := if_pos hzero
    rw [r2000, if_pos hzero, Executes, execute_arith h, harith, hzero]
    simp only [finish, Except.ok.injEq]
    exact ⟨fun _ hc => absurd hc.2 (by decide), fun _ => ⟨0#32, 0#32, rfl⟩⟩
  · rw [r2000, if_neg hzero]
    by_cases hmin : s.registers (gpReg instr.rs) = BitVec.intMin 32 ∧
        s.registers (gpReg instr.rt) = -1#32
    · have harith : arithmetic .div instr s.registers = .trap :=
        (if_neg hzero).trans (if_pos hmin)
      rw [Executes, execute_arith h, harith]
      simp [finish, hmin]
    · have harith : arithmetic .div instr s.registers =
          .hiLo ((s.registers (gpReg instr.rs)).srem (s.registers (gpReg instr.rt)))
            ((s.registers (gpReg instr.rs)).sdiv (s.registers (gpReg instr.rt))) :=
        (if_neg hzero).trans (if_neg hmin)
      rw [executes_hiLo h harith, ← BitVec.toInt_srem, BitVec.ofInt_toInt]
      refine iff_of_true ⟨rfl, ?_⟩ hmin
      exact BitVec.eq_of_toInt_eq (by rw [BitVec.toInt_sdiv, BitVec.toInt_ofInt])

theorem executes_divu {instr : Instruction} (h : instr.opCode = .arith .divu)
    (hrs : rs = s.registers (gpReg instr.rs)) (hrt : rt = s.registers (gpReg instr.rt)) :
    Executes M s .divu instr (r2000 .divu rs rt imm sa) := by
  subst hrs hrt
  by_cases hzero : s.registers (gpReg instr.rt) = 0#32
  · have harith : arithmetic .divu instr s.registers = .hiLo 0#32 0#32 := if_pos hzero
    rw [r2000, if_pos hzero, Executes, execute_arith h, harith]
    exact ⟨0#32, 0#32, rfl⟩
  · have harith : arithmetic .divu instr s.registers =
        .hiLo (s.registers (gpReg instr.rs) % s.registers (gpReg instr.rt))
          (s.registers (gpReg instr.rs) / s.registers (gpReg instr.rt)) := if_neg hzero
    rw [r2000, if_neg hzero, executes_hiLo h harith, ← BitVec.toNat_umod, ← BitVec.toNat_udiv,
      BitVec.ofNat_toNat, BitVec.ofNat_toNat, BitVec.setWidth_eq, BitVec.setWidth_eq]
    exact ⟨rfl, rfl⟩

/-- For every state and every arithmetic instruction, the simulator writes what the R2000 does, and
raises the exception for overflow where it does, exactly if the operands are sound. -/
theorem executes_iff (M : MemoryUnit μ V) (s : Machine μ) (value : BitVec 32) {op : Arith}
    (h : (decode value).opCode = .arith op) :
    Executes M s op (decode value) (r2000 op (s.registers (gpReg (decode value).rs))
        (s.registers (gpReg (decode value).rt)) (immediate value) (shamt value)) ↔
      Sound op (s.registers (gpReg (decode value).rs)) (s.registers (gpReg (decode value).rt))
        (shamt value) := by
  have himm : op.isImmediate = true → _ := extra_of_immediate h
  have hsa : op.isImmediate = false → _ := toNat_extra h
  cases op with
  | add => exact iff_true_intro (executes_fit h add_overflows_iff ofInt_toInt_add.symm rfl)
  | addi =>
    have htoInt : (immediate value).toInt = (decode value).extra.toInt := by
      rw [himm rfl, toInt_signExtend]
    simp only [r2000, htoInt]
    exact iff_true_intro (executes_fit h addi_overflows_iff ofInt_toInt_add.symm rfl)
  | addiu =>
    refine (executes_write h rfl).trans (iff_true_intro ?_)
    rw [himm rfl, ← toInt_signExtend, ofInt_toInt_add]
  | addu =>
    refine (executes_write h rfl).trans (iff_true_intro ?_)
    rw [BitVec.ofNat_add, BitVec.ofNat_toNat, BitVec.ofNat_toNat, BitVec.setWidth_eq,
      BitVec.setWidth_eq]
  | and => exact (executes_write h rfl).trans (iff_true_intro rfl)
  | andi =>
    refine (executes_write h rfl).trans (iff_true_intro ?_)
    rw [himm rfl, signExtend_and_low]
  | div => exact executes_div h rfl rfl
  | divu => exact iff_true_intro (executes_divu h rfl rfl)
  | lui =>
    refine (executes_write h rfl).trans (iff_true_intro ?_)
    rw [himm rfl, signExtend_shiftLeft]
  | mult =>
    refine iff_true_intro (executes_halves h ?_ rfl)
    rw [← toInt_mult, BitVec.ofInt_toInt]
  | multu =>
    refine iff_true_intro (executes_halves h ?_ rfl)
    rw [← toNat_mult, BitVec.ofNat_toNat, BitVec.setWidth_eq]
  | nor => exact (executes_write h rfl).trans (iff_true_intro rfl)
  | or => exact (executes_write h rfl).trans or_self_eq_iff
  | ori =>
    refine (executes_write h rfl).trans (iff_true_intro ?_)
    rw [himm rfl, signExtend_and_low]
  | sll =>
    refine (executes_write h rfl).trans (iff_true_intro ?_)
    rw [hsa rfl]
  | sllv =>
    refine (executes_write h rfl).trans (iff_true_intro ?_)
    rw [toNat_and_low]
  | slt =>
    refine (executes_write h rfl).trans (iff_true_intro ?_)
    rw [boolWord_slt]
  | slti =>
    refine (executes_write h rfl).trans (iff_true_intro ?_)
    rw [boolWord_slt, himm rfl, toInt_signExtend]
  | sltiu =>
    refine (executes_write h rfl).trans (iff_true_intro ?_)
    rw [boolWord_ult, himm rfl]
  | sltu =>
    refine (executes_write h rfl).trans (iff_true_intro ?_)
    rw [boolWord_ult]
  | sra =>
    refine (executes_write h rfl).trans (iff_true_intro ?_)
    rw [hsa rfl]
  | srav =>
    refine (executes_write h rfl).trans (iff_true_intro ?_)
    rw [toNat_and_low]
  | srl =>
    refine (executes_write h rfl).trans ?_
    rw [hsa rfl, sshiftRight_eq_ushiftRight_iff (shamt value).isLt]
    exact or_congr_right (BitVec.toNat_inj (y := 0#5))
  | srlv =>
    refine (executes_write h rfl).trans ?_
    rw [toNat_and_low, sshiftRight_eq_ushiftRight_iff (Nat.mod_lt _ (by decide))]
    rfl
  | sub => exact iff_true_intro (executes_fit h sub_overflows_iff ofInt_toInt_sub.symm rfl)
  | subu =>
    refine (executes_write h rfl).trans (iff_true_intro ?_)
    rw [ofInt_toInt_sub]
  | xor => exact (executes_write h rfl).trans (iff_true_intro rfl)
  | xori =>
    refine (executes_write h rfl).trans (iff_true_intro ?_)
    rw [himm rfl, signExtend_and_low]

/-- A machine with two operands in registers 1 and 2. -/
def operands (r₁ r₂ : BitVec 32) : Machine Mmu where
  registers r := if r = gpReg 1#5 then r₁ else if r = gpReg 2#5 then r₂ else 0#32
  memory := ⟨fun _ => 0, none, none⟩

/-- `srl r3, r2, 1` of a number without a sign. -/
theorem executes_iff_srl : Executes Mmu.unit (operands 0#32 6#32) .srl (decode 0x21842#32)
    (.write 3#32) :=
  (executes_iff Mmu.unit (operands 0#32 6#32) 0x21842#32 (by decide)).mpr (.inl (by decide))

/-- `or r3, r1, r2`, `srl r3, r2, 1` and `div r1, r2`. -/
theorem exists_not_executes :
    (r2000 .or 1#32 2#32 0x1825#16 0#5 = .write 3#32 ∧
      ¬ Executes Mmu.unit (operands 1#32 2#32) .or (decode 0x221825#32) (.write 3#32)) ∧
    (r2000 .srl 0#32 0x80000000#32 0x1842#16 1#5 = .write 0x40000000#32 ∧
      ¬ Executes Mmu.unit (operands 0#32 0x80000000#32) .srl (decode 0x21842#32)
        (.write 0x40000000#32)) ∧
    (operands 0x80000000#32 0xffffffff#32).execute Mmu.unit (decode 0x22001a#32) =
      .error .trap := by
  refine ⟨⟨by decide, ?_⟩, ⟨by decide, ?_⟩, rfl⟩
  · rw [executes_write (v := 1#32) (by decide) (by decide)]
    decide
  · rw [executes_write (v := 0xc0000000#32) (by decide) (by decide)]
    decide

end Nachos.Machine
