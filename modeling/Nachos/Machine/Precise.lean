import Nachos.Machine.Simulator

/-! # Precise exceptions

An instruction that raises an exception has changed no register and no memory
of the user program when the kernel is entered, apart from the delayed load of
the instruction before it, so that it can be executed again.
-/

namespace Nachos.Machine

open Function VM Outcome

variable {μ V α : Type} {M : MemoryUnit μ V} {s t : Machine μ} {addr value : BitVec 32}
  {size : Size} {which : ExceptionType} {instr : Instruction}

/-- A delayed load goes to a general register, and register 0 is zero. -/
structure WellFormed (s : Machine μ) : Prop where
  load : (s.registers LoadReg).toNat < 32
  zero : s.registers R0 = 0#32

def loaded (registers : Registers) (r : Fin NumTotalRegs) : BitVec 32 :=
  if r = R0 then 0#32
  else if r.val = (registers LoadReg).toNat then registers LoadValueReg
  else registers r

/-- The kernel is entered with the general registers, HI, LO and the program counters of a state
whose delayed load has been applied, and with its memory. -/
structure Restartable (M : MemoryUnit μ V) (s t : Machine μ) : Prop where
  registers : ∀ r ≤ NextPCReg, t.registers r = loaded s.registers r
  load : t.registers LoadReg = 0#32
  valid : M.Valid t.memory
  memory : M.userMemory t.memory = M.userMemory s.memory

def Stops (M : MemoryUnit μ V) (s : Machine μ) : Stop μ → Prop
  | .exception _ t => Restartable M s t
  | .assertion => True
  | .trap => False

/-- `OneInstruction` completes, or raises an exception from which it can start again. -/
def Precise (M : MemoryUnit μ V) (s : Machine μ) : Prop :=
  Holds WellFormed (Stops M s) (s.oneInstruction M)

/-- The instruction divides the most negative number by `-1`. -/
def DivTraps (M : MemoryUnit μ V) (s : Machine μ) : Prop :=
  ∃ raw t, s.readMem M (s.registers PCReg) .word = .ok (raw, t) ∧
    (decode raw).opCode = .arith .div ∧
    s.registers (gpReg (decode raw).rs) = BitVec.intMin 32 ∧
    s.registers (gpReg (decode raw).rt) = -1#32

/-! ## The delayed load -/

theorem gpReg_ne (r : BitVec 5) {r' : Fin NumTotalRegs} (h : 32 ≤ r'.val) : gpReg r ≠ r' := by
  intro heq
  have hval := congrArg Fin.val heq
  have hlt := r.isLt
  simp only [gpReg] at hval
  omega

theorem write_registers_of_ne {r r' : Fin NumTotalRegs} (h : r ≠ r') :
    (s.write r value).registers r' = s.registers r' :=
  update_of_ne h.symm ..

theorem exists_delayedLoad (h : (s.registers LoadReg).toNat < 32) (nextReg nextValue : BitVec 32) :
    ∃ t, s.delayedLoad nextReg nextValue = .ok t ∧ t.memory = s.memory ∧
      t.registers LoadReg = nextReg ∧ ∀ r ≤ NextPCReg, t.registers r = loaded s.registers r := by
  have hlt : (s.registers LoadReg).toNat < NumTotalRegs := h.trans (by decide)
  refine ⟨_, dif_pos hlt, rfl, ?_, fun r hr => ?_⟩
  · rfl
  · have hload : r ≠ LoadReg := fun heq => absurd (heq ▸ hr) (by decide)
    have hvalue : r ≠ LoadValueReg := fun heq => absurd (heq ▸ hr) (by decide)
    simp only [write, update_apply, if_neg hload, if_neg hvalue]
    simp only [loaded, Fin.ext_iff]

theorem loaded_update {registers : Registers} {r r' : Fin NumTotalRegs} (hr : r ≤ NextPCReg)
    (h : LoadValueReg < r') :
    loaded (update registers r' value) r = loaded registers r := by
  have hload : LoadReg ≠ r' := fun heq => absurd (heq ▸ h) (by decide)
  have hself : r ≠ r' := fun heq => absurd (heq ▸ hr) (not_le.mpr (lt_trans (by decide) h))
  simp only [loaded, update_of_ne hload, update_of_ne h.ne, update_of_ne hself]

/-! ## Accesses to memory -/

structure Unchanged (M : MemoryUnit μ V) (s t : Machine μ) : Prop where
  registers : t.registers = s.registers
  valid : M.Valid t.memory
  memory : M.userMemory t.memory = M.userMemory s.memory

theorem Unchanged.refl (hm : M.Valid s.memory) : Unchanged M s s := ⟨rfl, hm, rfl⟩

theorem Unchanged.translate {writing : Bool} {r : Except ExceptionType ℕ} {m : μ}
    (h : Unchanged M s t) (hr : M.translate addr size writing t.memory = some (r, m)) :
    Unchanged M s { t with memory := m } :=
  ⟨h.registers, M.valid_translate h.valid hr, (M.userMemory_translate h.valid hr).trans h.memory⟩

section Steps

variable (hs : s.WellFormed)

include hs

theorem holds_raiseException {Q : α → Prop} (h : Unchanged M s t) :
    Holds Q (Stops M s) (t.raiseException which addr) := by
  have hload : ((t.write BadVAddrReg addr).registers LoadReg).toNat < 32 := by
    rw [write_registers_of_ne (by decide), h.registers]
    exact hs.load
  obtain ⟨u, hu, hmem, hzero, hregs⟩ := exists_delayedLoad hload 0#32 0#32
  rw [raiseException, hu]
  refine ⟨fun r hr => ?_, hzero, hmem ▸ h.valid, hmem ▸ h.memory⟩
  rw [hregs r hr, write, h.registers]
  exact loaded_update hr (by decide)

theorem holds_readMem (h : Unchanged M s t) :
    Holds (fun r => Unchanged M s r.2) (Stops M s) (t.readMem M addr size) := by
  unfold readMem
  split
  next => trivial
  next hr => exact holds_raiseException hs (h.translate hr)
  next hr => exact h.translate hr

theorem holds_writeMem (h : Unchanged M s t) :
    Holds (fun u => u.registers = s.registers) (Stops M s) (t.writeMem M addr size value) := by
  unfold writeMem
  split
  next => trivial
  next hr => exact holds_raiseException hs (h.translate hr)
  next => exact h.registers

/-! ## The switch -/

def KeepsLoad (s : Machine μ) (x : Executed μ) : Prop :=
  x.machine.registers LoadReg = s.registers LoadReg

omit hs in
theorem keepsLoad_move {op : Move} : KeepsLoad s (s.move op instr).done := by
  cases op with
  | mfhi | mflo => exact write_registers_of_ne (gpReg_ne _ (by decide))
  | mthi | mtlo => exact write_registers_of_ne (by decide)

omit hs in
theorem keepsLoad_jump {op : Jump} : KeepsLoad s (s.jump op instr) := by
  cases op with
  | bgezal | bltzal | jal => exact write_registers_of_ne (by decide)
  | jalr => exact write_registers_of_ne (gpReg_ne _ (by decide))
  | beq | bgez | bgtz | blez | bltz | bne | j | jr => rfl

theorem holds_finish {r : Result} (h : Unchanged M s t) (hr : r ≠ .trap) :
    Holds (KeepsLoad s) (Stops M s) (t.finish r) := by
  cases r with
  | write r value =>
    exact (write_registers_of_ne (gpReg_ne _ (by decide))).trans (congrFun h.registers _)
  | hiLo hi lo =>
    refine Eq.trans ?_ (congrFun h.registers LoadReg)
    exact (write_registers_of_ne (by decide)).trans (write_registers_of_ne (by decide))
  | overflow => exact holds_raiseException hs h
  | trap => exact absurd rfl hr

omit hs in
theorem holds_assertAligned {tmp : BitVec 32} :
    Holds (fun _ => True) (Stops M s) (assertAligned tmp) := by
  unfold assertAligned
  split <;> trivial

theorem holds_load {op : Load} (h : Unchanged M s t) :
    Holds (KeepsLoad s) (Stops M s) (t.load M op instr) := by
  -- a load from an address, whatever becomes of the value
  have hread : ∀ {size} {addr} {f : BitVec 32 × Machine μ → BitVec 32},
      Holds (KeepsLoad s) (Stops M s) (t.readMem M addr size >>= fun r =>
        .ok (r.2.loads instr (f r))) := fun {size addr f} =>
    (holds_readMem hs h).bind fun r hr => congrFun hr.registers LoadReg
  have hif : ∀ {c : Prop} [Decidable c] {addr} {x : Except (Stop μ) (Executed μ)},
      Holds (KeepsLoad s) (Stops M s) x → Holds (KeepsLoad s) (Stops M s)
        (if c then t.raiseException .addressError addr else x) := by
    intro c _ addr x hx
    split
    · exact holds_raiseException hs h
    · exact hx
  cases op with
  | lb | lbu => exact hread
  | lh | lhu | lw => exact hif hread
  | lwl | lwr => exact holds_assertAligned.bind fun _ _ => hread

theorem holds_store {op : Store} (h : Unchanged M s t) :
    Holds (fun u => u.registers = s.registers) (Stops M s) (t.store M op instr) := by
  cases op with
  | sb | sh | sw => exact holds_writeMem hs h
  | swl | swr =>
    refine holds_assertAligned.bind fun _ _ => ?_
    exact (holds_readMem hs h).bind fun r hr => holds_writeMem hs hr

omit hs in
theorem arithmetic_eq_trap_iff {op : Arith} {registers : Registers} :
    arithmetic op instr registers = .trap ↔ op = .div ∧
      registers (gpReg instr.rs) = BitVec.intMin 32 ∧ registers (gpReg instr.rt) = -1#32 := by
  constructor
  · intro h
    cases op with
    | div =>
      simp only [arithmetic] at h
      split_ifs at h with hzero hmin
      exact ⟨rfl, hmin⟩
    | add | addi | sub | divu =>
      simp only [arithmetic] at h
      split_ifs at h
    | _ => cases h
  · rintro ⟨rfl, hmin⟩
    have hzero : registers (gpReg instr.rt) ≠ 0#32 := by
      rw [hmin.2]
      decide
    exact (if_neg hzero).trans (if_pos hmin)

theorem holds_execute (h : Unchanged M s t)
    (hdiv : ¬ (instr.opCode = .arith .div ∧ s.registers (gpReg instr.rs) = BitVec.intMin 32 ∧
      s.registers (gpReg instr.rt) = -1#32)) :
    Holds (KeepsLoad s) (Stops M s) (t.execute M instr) := by
  unfold execute
  split
  next op hop =>
    refine holds_finish hs h fun htrap => hdiv ?_
    obtain ⟨rfl, hmin⟩ := arithmetic_eq_trap_iff.mp htrap
    exact ⟨hop, h.registers ▸ hmin⟩
  next => exact keepsLoad_move.trans (congrFun h.registers LoadReg)
  next => exact keepsLoad_jump.trans (congrFun h.registers LoadReg)
  next => exact holds_load hs h
  next => exact (holds_store hs h).bind fun u hu => congrFun hu LoadReg
  next => exact holds_raiseException hs h
  next => exact holds_raiseException hs h
  next => exact holds_raiseException hs h
  next => trivial

end Steps

/-! ## One instruction -/

theorem holds_advance {x : Executed μ} (hs : s.WellFormed) (hx : KeepsLoad s x) :
    Holds WellFormed (Stops M s) (do
      let s ← x.machine.delayedLoad (x.nextLoadReg.setWidth 32) x.nextLoadValue
      .ok (((s.write PrevPCReg (s.registers PCReg)).write PCReg (s.registers NextPCReg)).write
        NextPCReg x.pcAfter)) := by
  have hload : (x.machine.registers LoadReg).toNat < 32 := by
    rw [hx]
    exact hs.load
  obtain ⟨t, ht, -, hnext, hregs⟩ := exists_delayedLoad hload (x.nextLoadReg.setWidth 32)
    x.nextLoadValue
  rw [ht]
  constructor
  · change (t.registers LoadReg).toNat < 32
    rw [hnext, BitVec.toNat_setWidth]
    exact (Nat.mod_le _ _).trans_lt x.nextLoadReg.isLt
  · change t.registers R0 = 0#32
    rw [hregs R0 (by decide), loaded, if_pos rfl]

theorem precise_of_not_divTraps (hs : s.WellFormed) (hm : M.Valid s.memory)
    (hdiv : ¬ DivTraps M s) : Precise M s := by
  have hread : Holds (fun r => Unchanged M s r.2) (Stops M s)
      (s.readMem M (s.registers PCReg) .word) :=
    holds_readMem hs (.refl hm)
  unfold Precise oneInstruction
  cases hfetch : s.readMem M (s.registers PCReg) .word with
  | error e =>
    rw [hfetch] at hread
    exact hread
  | ok r =>
    obtain ⟨raw, t⟩ := r
    rw [hfetch] at hread
    refine (holds_execute hs hread fun hmin => hdiv ⟨raw, t, hfetch, hmin⟩).bind fun x hx => ?_
    exact holds_advance hs hx

theorem registers_of_readMem (h : s.readMem M addr size = .ok (value, t)) :
    t.registers = s.registers := by
  unfold readMem at h
  split at h
  next => cases h
  next =>
    obtain ⟨u, -, hu⟩ := bind_eq_ok.mp h
    cases hu
  next =>
    cases h
    rfl

theorem oneInstruction_of_divTraps (h : DivTraps M s) : s.oneInstruction M = .error .trap := by
  obtain ⟨raw, t, hfetch, hop, hmin⟩ := h
  rw [← registers_of_readMem hfetch] at hmin
  have hexec : t.execute M (decode raw) = .error .trap := by
    rw [execute, hop]
    exact congrArg t.finish (arithmetic_eq_trap_iff.mpr ⟨rfl, hmin⟩)
  rw [oneInstruction, hfetch, ok_bind]
  dsimp only
  rw [hexec, error_bind]

/-- `OneInstruction` completes or raises one exception from which it can start again, exactly if
it does not divide the most negative number by `-1`. -/
theorem precise_iff {M : MemoryUnit μ V} {s : Machine μ} (hs : s.WellFormed)
    (hm : M.Valid s.memory) : Precise M s ↔ ¬ DivTraps M s := by
  refine ⟨fun h hdiv => ?_, precise_of_not_divTraps hs hm⟩
  rw [Precise, oneInstruction_of_divTraps hdiv] at h
  exact h

/-- A machine with one page, of which the first word is an instruction, and with two operands in
registers 1 and 2. -/
def atWord (word r₁ r₂ : BitVec 32) : Machine Mmu where
  registers r := if r = gpReg 1#5 then r₁ else if r = gpReg 2#5 then r₂ else 0#32
  memory := ⟨valueByte word, none, some [⟨0, 0, true, false, false, false⟩]⟩

theorem wellFormed_atWord {word r₁ r₂ : BitVec 32} : (atWord word r₁ r₂).WellFormed :=
  ⟨(by decide : (0#32).toNat < 32), rfl⟩

/-- `add r3, r1, r2` with an overflow. -/
theorem precise_iff_add : Precise Mmu.unit (atWord 0x221820#32 0x7fffffff#32 1#32) := by
  refine (precise_iff wellFormed_atWord trivial).mpr ?_
  rintro ⟨raw, t, hread, hop, -⟩
  have hfetch : ((atWord 0x221820#32 0x7fffffff#32 1#32).readMem Mmu.unit 0#32 .word).toOption.map
      (fun r => (decode r.1).opCode) = some (.arith .add) := by decide +kernel
  rw [show readMem Mmu.unit 0#32 .word (atWord 0x221820#32 0x7fffffff#32 1#32) = _ from hread]
    at hfetch
  exact absurd (hop.symm.trans (Option.some.inj hfetch)) (by decide)

/-- `div r1, r2`. -/
theorem exists_not_precise : (atWord 0x22001a#32 0x80000000#32 0xffffffff#32).WellFormed ∧
    ¬ Precise Mmu.unit (atWord 0x22001a#32 0x80000000#32 0xffffffff#32) := by
  refine ⟨wellFormed_atWord, fun h => ?_⟩
  have hstop : (atWord 0x22001a#32 0x80000000#32 0xffffffff#32).oneInstruction Mmu.unit =
      .error .trap := rfl
  rwa [Precise, hstop] at h

end Nachos.Machine
