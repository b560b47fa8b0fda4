import Nachos.Machine.Precise

/-! # The load delay slot

A load reaches its register at the end of the next instruction, but an exception
or an interrupt in between applies it at once. An instruction that does not use
the register of the load that is under way has the same results either way.
-/

namespace Nachos.Machine

open Function VM Outcome

variable {μ V : Type}

/-- The general registers that an instruction reads, and those that it writes itself; a load
writes its register later. -/
def Instruction.uses (instr : Instruction) : List (BitVec 5) :=
  match instr.opCode with
  | .arith op =>
    match op with
    | .lui => [instr.rt]
    | .addi | .addiu | .andi | .ori | .slti | .sltiu | .xori | .div | .divu | .mult | .multu =>
      [instr.rs, instr.rt]
    | .or => [instr.rs, instr.rd]
    | .sll | .sra | .srl => [instr.rt, instr.rd]
    | .add | .addu | .and | .nor | .sllv | .slt | .sltu | .srav | .srlv | .sub | .subu | .xor =>
      [instr.rs, instr.rt, instr.rd]
  | .move op =>
    match op with
    | .mfhi | .mflo => [instr.rd]
    | .mthi | .mtlo => [instr.rs]
  | .jump op =>
    match op with
    | .beq | .bne => [instr.rs, instr.rt]
    | .bgez | .bgtz | .blez | .bltz | .jr => [instr.rs]
    | .bgezal | .bltzal => [instr.rs, 31#5]
    | .jal => [31#5]
    | .jalr => [instr.rs, instr.rd]
    | .j => []
  | .load _ => [instr.rs]
  | .store _ => [instr.rs, instr.rt]
  | .rfe | .syscall | .unimp | .res => []

def Free (s : Machine μ) (r : Fin NumTotalRegs) : Prop :=
  r.val = (s.registers LoadReg).toNat → r = R0

/-- The instruction at the program counter uses no register to which a load is under way. -/
def HazardFree (M : MemoryUnit μ V) (s : Machine μ) : Prop :=
  ∀ raw t, s.readMem M (s.registers PCReg) .word = .ok (raw, t) →
    ∀ r ∈ (decode raw).uses, s.Free (gpReg r)

instance {s : Machine μ} {r : Fin NumTotalRegs} : Decidable (s.Free r) :=
  inferInstanceAs (Decidable (_ → _))

instance {M : MemoryUnit μ V} {s : Machine μ} : Decidable (HazardFree M s) :=
  match h : s.readMem M (s.registers PCReg) .word with
  | .ok (raw, _) =>
    decidable_of_iff (∀ r ∈ (decode raw).uses, s.Free (gpReg r))
      ⟨fun hf raw' t' ht => by cases h.symm.trans ht; exact hf, fun hf => hf _ _ h⟩
  | .error _ => .isTrue fun raw' t' ht => by cases h.symm.trans ht

/-- The machines are the same once their delayed loads are applied. -/
structure Agree (s t : Machine μ) : Prop where
  registers : ∀ r ≤ PrevPCReg, loaded s.registers r = loaded t.registers r
  memory : s.memory = t.memory

variable {M : MemoryUnit μ V} {s t s' t' : Machine μ} {addr value : BitVec 32} {size : Size}
  {r : Fin NumTotalRegs} {instr : Instruction}

theorem Agree.refl (s : Machine μ) : Agree s s := ⟨fun _ _ => rfl, rfl⟩

theorem Agree.trans (h : Agree s t) (h' : Agree t s') : Agree s s' :=
  ⟨fun r hr => (h.registers r hr).trans (h'.registers r hr), h.memory.trans h'.memory⟩

/-! ## Registers -/

theorem WellFormed.of_registers {ν : Type} {u : Machine ν} (hs : s.WellFormed)
    (h : u.registers = s.registers) : u.WellFormed :=
  ⟨h ▸ hs.load, h ▸ hs.zero⟩

theorem WellFormed.write (hs : s.WellFormed) (hload : r ≠ LoadReg) (hzero : r ≠ R0) :
    (s.write r value).WellFormed := by
  constructor
  · rw [write_registers_of_ne hload]
    exact hs.load
  · rw [write_registers_of_ne hzero]
    exact hs.zero

theorem write_registers_self : (s.write r value).registers r = value := by simp [Machine.write]

theorem free_of_le (hs : s.WellFormed) (hr : 32 ≤ r.val) : s.Free r := by
  intro heq
  have := hs.load
  omega

theorem loaded_of_free (hr : r ≠ R0) (hf : s.Free r) : loaded s.registers r = s.registers r := by
  rw [loaded, if_neg hr, if_neg fun heq => hr (hf heq)]

theorem Agree.read (h : Agree s t) (hs : s.WellFormed) (ht : t.WellFormed) (hr : r ≤ PrevPCReg)
    (hfs : s.Free r) (hft : t.Free r) : s.registers r = t.registers r := by
  by_cases hzero : r = R0
  · rw [hzero, hs.zero, ht.zero]
  · rw [← loaded_of_free hzero hfs, ← loaded_of_free hzero hft]
    exact h.registers r hr

theorem Agree.read_special (h : Agree s t) (hs : s.WellFormed) (ht : t.WellFormed)
    (hr : r ≤ PrevPCReg) (hr' : 32 ≤ r.val) : s.registers r = t.registers r :=
  h.read hs ht hr (free_of_le hs hr') (free_of_le ht hr')

theorem loaded_write (hr : r ≤ PrevPCReg) (hf : s.Free r) {r' : Fin NumTotalRegs} :
    loaded (s.write r value).registers r' =
      if r' = R0 then 0#32 else if r' = r then value else loaded s.registers r' := by
  have hload : r ≠ LoadReg := fun heq => absurd (heq ▸ hr) (by decide)
  have hvalue : r ≠ LoadValueReg := fun heq => absurd (heq ▸ hr) (by decide)
  unfold loaded
  rw [write_registers_of_ne hload, write_registers_of_ne hvalue]
  by_cases hzero : r' = R0
  · rw [if_pos hzero, if_pos hzero]
  rw [if_neg hzero, if_neg hzero, if_neg hzero]
  by_cases heq : r' = r
  · subst heq
    rw [if_pos rfl, if_neg fun hpending => hzero (hf hpending), write_registers_self]
  · rw [if_neg heq, write_registers_of_ne (Ne.symm heq)]

theorem Agree.write (h : Agree s t) (hr : r ≤ PrevPCReg) (hfs : s.Free r) (hft : t.Free r) :
    Agree (s.write r value) (t.write r value) := by
  refine ⟨fun r' hr' => ?_, h.memory⟩
  rw [loaded_write hr hfs, loaded_write hr hft, h.registers r' hr']

/-! ## The delayed load -/

theorem exists_applied (hload : (s.registers LoadReg).toNat < 32)
    (nextReg nextValue : BitVec 32) :
    ∃ t, s.delayedLoad nextReg nextValue = .ok t ∧ t.memory = s.memory ∧
      (∀ r ≤ PrevPCReg, t.registers r = loaded s.registers r) ∧
      t.registers LoadReg = nextReg ∧ t.registers LoadValueReg = nextValue ∧
      t.registers BadVAddrReg = s.registers BadVAddrReg := by
  have hlt : (s.registers LoadReg).toNat < NumTotalRegs := hload.trans (by decide)
  have hbad : BadVAddrReg ≠ ⟨_, hlt⟩ := by
    intro heq
    exact absurd (heq ▸ hload : BadVAddrReg.val < 32) (by decide)
  refine ⟨_, dif_pos hlt, rfl, fun r hr => ?_, rfl, rfl, ?_⟩
  · have hload : r ≠ LoadReg := fun heq => absurd (heq ▸ hr) (by decide)
    have hvalue : r ≠ LoadValueReg := fun heq => absurd (heq ▸ hr) (by decide)
    simp only [Machine.write, update_apply, if_neg hload, if_neg hvalue]
    simp only [loaded, Fin.ext_iff]
  · simp only [Machine.write, update_apply, if_neg hbad]
    rfl

theorem loaded_applied {nextReg nextValue : BitVec 32}
    (hregs : ∀ r ≤ PrevPCReg, t.registers r = loaded s.registers r)
    (hload : t.registers LoadReg = nextReg) (hvalue : t.registers LoadValueReg = nextValue)
    (hr : r ≤ PrevPCReg) :
    loaded t.registers r = if r = R0 then 0#32
      else if r.val = nextReg.toNat then nextValue else loaded s.registers r := by
  rw [← hregs r hr, ← hload, ← hvalue]
  rfl

structure Synced (s t : Machine μ) : Prop extends Agree s t where
  left : s.WellFormed
  right : t.WellFormed
  load : s.registers LoadReg = t.registers LoadReg

theorem Agree.delayedLoad {nextReg nextValue nextValue' : BitVec 32} (h : Agree s t)
    (hs : (s.registers LoadReg).toNat < 32) (ht : (t.registers LoadReg).toNat < 32)
    (hlt : nextReg.toNat < 32) (hnext : nextReg ≠ 0#32 → nextValue = nextValue') :
    Alike Synced (s.delayedLoad nextReg nextValue) (t.delayedLoad nextReg nextValue') := by
  obtain ⟨s', hs', hms, hrs, hls, hvs, -⟩ := exists_applied hs nextReg nextValue
  obtain ⟨t', ht', hmt, hrt, hlt', hvt, -⟩ := exists_applied ht nextReg nextValue'
  rw [hs', ht']
  refine .ok ⟨⟨fun r hr => ?_, ?_⟩, ⟨hls ▸ hlt, ?_⟩, ⟨hlt' ▸ hlt, ?_⟩, hls.trans hlt'.symm⟩
  · rw [loaded_applied hrs hls hvs hr, loaded_applied hrt hlt' hvt hr, h.registers r hr]
    by_cases hzero : r = R0
    · rw [if_pos hzero, if_pos hzero]
    rw [if_neg hzero, if_neg hzero]
    by_cases hreg : r.val = nextReg.toNat
    · have hne : nextReg ≠ 0#32 := by
        rintro rfl
        exact hzero (Fin.ext hreg)
      rw [if_pos hreg, if_pos hreg, hnext hne]
    · rw [if_neg hreg, if_neg hreg]
  · rw [hms, hmt, h.memory]
  · rw [hrs R0 (by decide), loaded, if_pos rfl]
  · rw [hrt R0 (by decide), loaded, if_pos rfl]

theorem Synced.write (h : Synced s t) (hr : r ≤ PrevPCReg) (hr' : 32 ≤ r.val) :
    Synced (s.write r value) (t.write r value) := by
  have hload : r ≠ LoadReg := fun heq => absurd (heq ▸ hr) (by decide)
  have hzero : r ≠ R0 := fun heq => absurd (heq ▸ hr') (by decide)
  refine ⟨h.toAgree.write hr (free_of_le h.left hr') (free_of_le h.right hr'),
    h.left.write hload hzero, h.right.write hload hzero, ?_⟩
  rw [write_registers_of_ne hload, write_registers_of_ne hload, h.load]

theorem loaded_badVAddr (hr : r ≤ PrevPCReg) :
    loaded (s.write BadVAddrReg addr).registers r = loaded s.registers r := by
  have hne : BadVAddrReg ≠ r := fun heq => absurd (heq ▸ hr) (by decide)
  unfold loaded
  rw [write_registers_of_ne (by decide), write_registers_of_ne (by decide),
    write_registers_of_ne hne]

theorem reg_cases : ∀ r : Fin NumTotalRegs,
    r ≤ PrevPCReg ∨ r = LoadReg ∨ r = LoadValueReg ∨ r = BadVAddrReg := by
  decide

theorem Agree.raiseException {α : Type} {S : α → α → Prop} {which : ExceptionType}
    (h : Agree s t) (hs : s.WellFormed) (ht : t.WellFormed) :
    Alike S (s.raiseException which addr) (t.raiseException which addr) := by
  have hload : ∀ {u : Machine μ}, u.WellFormed →
      ((u.write BadVAddrReg addr).registers LoadReg).toNat < 32 := by
    intro u hu
    rw [write_registers_of_ne (by decide)]
    exact hu.load
  obtain ⟨⟨rs, ms⟩, hs', hms, hrs, hls, hvs, hbs⟩ := exists_applied (hload hs) 0#32 0#32
  obtain ⟨⟨rt, mt⟩, ht', hmt, hrt, hlt, hvt, hbt⟩ := exists_applied (hload ht) 0#32 0#32
  obtain rfl : ms = mt := hms.trans (h.memory.trans hmt.symm)
  obtain rfl : rs = rt := by
    funext r
    rcases reg_cases r with hr | rfl | rfl | rfl
    · calc rs r = loaded (s.write BadVAddrReg addr).registers r := hrs r hr
        _ = loaded s.registers r := loaded_badVAddr hr
        _ = loaded t.registers r := h.registers r hr
        _ = loaded (t.write BadVAddrReg addr).registers r := (loaded_badVAddr hr).symm
        _ = rt r := (hrt r hr).symm
    · exact hls.trans hlt.symm
    · exact hvs.trans hvt.symm
    · exact (hbs.trans write_registers_self).trans (hbt.trans write_registers_self).symm
  rw [Machine.raiseException, Machine.raiseException, hs', ht']
  exact .error _

/-! ## Accesses to memory -/

structure Keeps (s u : Machine μ) : Prop where
  load : u.registers LoadReg = s.registers LoadReg
  nextPC : u.registers NextPCReg = s.registers NextPCReg

theorem Keeps.of_registers {u : Machine μ} (h : u.registers = s.registers) : Keeps s u :=
  ⟨congrFun h _, congrFun h _⟩

theorem Keeps.write {u : Machine μ} (h : Keeps s u) (hload : r ≠ LoadReg) (hnext : r ≠ NextPCReg) :
    Keeps s (u.write r value) :=
  ⟨(write_registers_of_ne hload).trans h.load, (write_registers_of_ne hnext).trans h.nextPC⟩

theorem Keeps.free {u : Machine μ} (h : Keeps s u) (hf : s.Free r) : u.Free r := by
  rw [Free, h.load]
  exact hf

structure AgreeFrom (s t u v : Machine μ) : Prop extends Agree u v where
  left : Keeps s u
  right : Keeps t v

structure AgreeAfter (s t : Machine μ) (x y : Executed μ) : Prop extends
    Agree x.machine y.machine where
  left : KeepsLoad s x
  right : KeepsLoad t y
  pcAfter : x.pcAfter = y.pcAfter
  nextLoadReg : x.nextLoadReg = y.nextLoadReg
  nextLoadValue : x.nextLoadReg ≠ 0#5 → x.nextLoadValue = y.nextLoadValue

def BothFree (s t : Machine μ) (instr : Instruction) : Prop :=
  ∀ r ∈ instr.uses, s.Free (gpReg r) ∧ t.Free (gpReg r)

theorem gpReg_le (r : BitVec 5) : gpReg r ≤ PrevPCReg := by
  have := r.isLt
  change r.toNat ≤ 36
  omega

section Steps

variable (h : Agree s t) (hs : s.WellFormed) (ht : t.WellFormed)

include h hs ht

theorem agree_readMem :
    Alike (fun a b => a.1 = b.1 ∧ Agree a.2 b.2 ∧ a.2.registers = s.registers ∧
      b.2.registers = t.registers) (s.readMem M addr size) (t.readMem M addr size) := by
  unfold readMem
  rw [h.memory]
  split
  next => exact .error _
  next m _ =>
    exact Agree.raiseException ⟨h.registers, rfl⟩ (hs.of_registers rfl) (ht.of_registers rfl)
  next m _ => exact .ok ⟨rfl, ⟨h.registers, rfl⟩, rfl, rfl⟩

omit h in
theorem agree_writeMem {u v : Machine μ} (huv : Agree u v) (hu : u.registers = s.registers)
    (hv : v.registers = t.registers) :
    Alike (AgreeFrom s t) (u.writeMem M addr size value) (v.writeMem M addr size value) := by
  unfold writeMem
  rw [huv.memory]
  split
  next => exact .error _
  next m _ =>
    exact Agree.raiseException ⟨huv.registers, rfl⟩ (hs.of_registers hu) (ht.of_registers hv)
  next m _ => exact .ok ⟨⟨huv.registers, rfl⟩, .of_registers hu, .of_registers hv⟩

/-! ## The switch -/

theorem agree_nextPC : s.registers NextPCReg = t.registers NextPCReg :=
  h.read_special hs ht (by decide) (by decide)

theorem AgreeFrom.done {u v : Machine μ} (huv : AgreeFrom s t u v) :
    AgreeAfter s t u.done v.done where
  toAgree := huv.toAgree
  left := huv.left.load
  right := huv.right.load
  pcAfter := by
    simp only [Machine.done, Machine.pcAfter, huv.left.nextPC, huv.right.nextPC,
      agree_nextPC h hs ht]
  nextLoadReg := rfl
  nextLoadValue _ := rfl

omit hs ht in
theorem agree_write (hf : BothFree s t instr) {r : BitVec 5} (hr : r ∈ instr.uses) :
    AgreeFrom s t (s.write (gpReg r) value) (t.write (gpReg r) value) where
  toAgree := h.write (gpReg_le r) (hf r hr).1 (hf r hr).2
  left := .write ⟨rfl, rfl⟩ (gpReg_ne r (by decide)) (gpReg_ne r (by decide))
  right := .write ⟨rfl, rfl⟩ (gpReg_ne r (by decide)) (gpReg_ne r (by decide))

omit h in
theorem AgreeFrom.write {u v : Machine μ} (huv : AgreeFrom s t u v) (hr : 32 ≤ r.val)
    (hr' : r ≤ LoReg) : AgreeFrom s t (u.write r value) (v.write r value) := by
  have hload : r ≠ LoadReg := fun heq => absurd (heq ▸ hr') (by decide)
  have hnext : r ≠ NextPCReg := fun heq => absurd (heq ▸ hr') (by decide)
  exact ⟨huv.toAgree.write (hr'.trans (by decide)) (huv.left.free (free_of_le hs hr))
    (huv.right.free (free_of_le ht hr)), huv.left.write hload hnext, huv.right.write hload hnext⟩

theorem agree_read (hf : BothFree s t instr) {r : BitVec 5} (hr : r ∈ instr.uses) :
    s.registers (gpReg r) = t.registers (gpReg r) :=
  h.read hs ht (gpReg_le r) (hf r hr).1 (hf r hr).2

omit h hs ht in
theorem arithmetic_congr {op : Arith} {registers registers' : Registers}
    (hop : instr.opCode = .arith op)
    (hregs : ∀ r ∈ instr.uses, registers (gpReg r) = registers' (gpReg r)) :
    arithmetic op instr registers = arithmetic op instr registers' := by
  cases op <;> simp only [Instruction.uses, hop, List.forall_mem_cons] at hregs <;>
    simp only [arithmetic, hregs]

omit h hs ht in
theorem mem_uses_of_arithmetic {op : Arith} {registers : Registers} {r : BitVec 5}
    (hop : instr.opCode = .arith op) (hw : arithmetic op instr registers = .write r value) :
    r ∈ instr.uses := by
  cases op <;> simp only [arithmetic] at hw <;> (try split_ifs at hw) <;> cases hw <;>
    simp [Instruction.uses, hop]

theorem agree_finish {op : Arith} (hop : instr.opCode = .arith op) (hf : BothFree s t instr) :
    Alike (AgreeAfter s t) (s.finish (arithmetic op instr s.registers))
      (t.finish (arithmetic op instr t.registers)) := by
  rw [arithmetic_congr hop fun r hr => agree_read h hs ht hf hr]
  cases hresult : arithmetic op instr t.registers with
  | write r value =>
    have huv : AgreeFrom s t (s.write (gpReg r) value) (t.write (gpReg r) value) :=
      agree_write h hf (mem_uses_of_arithmetic hop hresult)
    exact .ok (huv.done h hs ht)
  | hiLo hi lo =>
    have hlo : AgreeFrom s t (s.write LoReg lo) (t.write LoReg lo) :=
      (AgreeFrom.mk h ⟨rfl, rfl⟩ ⟨rfl, rfl⟩).write hs ht (by decide) (by decide)
    have hhi : AgreeFrom s t ((s.write LoReg lo).write HiReg hi)
        ((t.write LoReg lo).write HiReg hi) :=
      hlo.write hs ht (by decide) (by decide)
    exact .ok (hhi.done h hs ht)
  | overflow => exact h.raiseException hs ht
  | trap => exact .error _

theorem agree_move {op : Move} (hop : instr.opCode = .move op) (hf : BothFree s t instr) :
    AgreeAfter s t (s.move op instr).done (t.move op instr).done := by
  apply AgreeFrom.done h hs ht
  cases op with
  | mfhi =>
    rw [Machine.move, Machine.move, h.read_special hs ht (r := HiReg) (by decide) (by decide)]
    exact agree_write h hf (by simp [Instruction.uses, hop])
  | mflo =>
    rw [Machine.move, Machine.move, h.read_special hs ht (r := LoReg) (by decide) (by decide)]
    exact agree_write h hf (by simp [Instruction.uses, hop])
  | mthi =>
    rw [Machine.move, Machine.move, agree_read h hs ht hf (by simp [Instruction.uses, hop])]
    exact AgreeFrom.write hs ht ⟨h, ⟨rfl, rfl⟩, ⟨rfl, rfl⟩⟩ (by decide) (by decide)
  | mtlo =>
    rw [Machine.move, Machine.move, agree_read h hs ht hf (by simp [Instruction.uses, hop])]
    exact AgreeFrom.write hs ht ⟨h, ⟨rfl, rfl⟩, ⟨rfl, rfl⟩⟩ (by decide) (by decide)

omit h hs ht in
theorem AgreeFrom.target {u v : Machine μ} {pc pc' : BitVec 32} (huv : AgreeFrom s t u v)
    (hpc : pc = pc') :
    AgreeAfter s t { u.done with pcAfter := pc } { v.done with pcAfter := pc' } :=
  ⟨huv.toAgree, huv.left.load, huv.right.load, hpc, rfl, fun _ => rfl⟩

theorem AgreeFrom.branch {u v : Machine μ} {taken taken' : Bool} (huv : AgreeFrom s t u v)
    (htaken : taken = taken') :
    AgreeAfter s t (u.branch taken instr) (v.branch taken' instr) := by
  refine huv.target ?_
  simp only [Machine.pcAfter, huv.left.nextPC, huv.right.nextPC, agree_nextPC h hs ht, htaken]

theorem agree_jump {op : Jump} (hop : instr.opCode = .jump op) (hf : BothFree s t instr) :
    AgreeAfter s t (s.jump op instr) (t.jump op instr) := by
  have hnext := agree_nextPC h hs ht
  have hsame : AgreeFrom s t s t := ⟨h, ⟨rfl, rfl⟩, ⟨rfl, rfl⟩⟩
  have hread := fun r hr => agree_read (r := r) h hs ht hf hr
  have hlink : ∀ r ∈ instr.uses, AgreeFrom s t (s.write (gpReg r) (s.registers NextPCReg + 4#32))
      (t.write (gpReg r) (t.registers NextPCReg + 4#32)) := fun r hr =>
    hnext ▸ agree_write h hf hr
  -- the registers are read after the link has been written
  have hlinked : ∀ r, ∀ r' ∈ instr.uses,
      (s.write (gpReg r) (s.registers NextPCReg + 4#32)).registers (gpReg r') =
        (t.write (gpReg r) (t.registers NextPCReg + 4#32)).registers (gpReg r') := by
    intro r r' hr'
    simp only [Machine.write, update_apply, hnext, hread r' hr']
  have hlinked31 : ∀ r' ∈ instr.uses,
      (s.write R31 (s.registers NextPCReg + 4#32)).registers (gpReg r') =
        (t.write R31 (t.registers NextPCReg + 4#32)).registers (gpReg r') := hlinked 31#5
  simp only [Instruction.uses, hop] at hread hlink hlinked hlinked31
  cases op with
  | beq | bne =>
    exact hsame.branch h hs ht (by rw [hread _ (by simp), hread _ (by simp)])
  | bgez | bgtz | blez | bltz =>
    exact hsame.branch h hs ht (by rw [hread _ (by simp)])
  | bgezal | bltzal =>
    exact (hlink 31#5 (by simp)).branch h hs ht (by rw [hlinked31 _ (by simp)])
  | jal =>
    have hpc : ∀ {u : Machine μ} {v}, (u.write R31 v).registers NextPCReg =
        u.registers NextPCReg := write_registers_of_ne (by decide)
    exact (hlink 31#5 (by simp)).target (by simp only [Machine.pcAfter, hpc, hnext])
  | j => exact hsame.target (by simp only [Machine.pcAfter, hnext])
  | jalr => exact (hlink instr.rd (by simp)).target (hlinked instr.rd _ (by simp))
  | jr => exact hsame.target (hread _ (by simp))

omit h hs ht in
theorem alike_assertAligned {tmp : BitVec 32} :
    Alike (fun _ _ => True) (assertAligned tmp : Except (Stop μ) Unit) (assertAligned tmp) := by
  unfold assertAligned
  split
  · exact .ok trivial
  · exact .error _

omit h hs ht in
theorem merged_eq_loaded (hrt : instr.rt ≠ 0#5) :
    s.merged instr = loaded s.registers (gpReg instr.rt) := by
  have hzero : gpReg instr.rt ≠ R0 := by
    intro heq
    have hval := congrArg Fin.val heq
    exact hrt (BitVec.eq_of_toNat_eq hval)
  have hlt : instr.rt.toNat < 2 ^ 32 := instr.rt.isLt.trans (by decide)
  have hload : s.registers LoadReg = instr.rt.setWidth 32 ↔
      (gpReg instr.rt).val = (s.registers LoadReg).toNat := by
    rw [← BitVec.toNat_inj, BitVec.toNat_setWidth, Nat.mod_eq_of_lt hlt]
    exact eq_comm
  simp only [merged, loaded, if_neg hzero, hload]

theorem agree_load {op : Load} (hop : instr.opCode = .load op) (hf : BothFree s t instr) :
    Alike (AgreeAfter s t) (s.load M op instr) (t.load M op instr) := by
  have haddr : s.address instr = t.address instr := by
    rw [address, address, agree_read h hs ht hf (by simp [Instruction.uses, hop])]
  -- a load from an address, whatever becomes of the value
  have hread : ∀ {size addr} {f g : BitVec 32 × Machine μ → BitVec 32},
      (instr.rt ≠ 0#5 → ∀ a b, a.1 = b.1 → a.2.registers = s.registers →
        b.2.registers = t.registers → f a = g b) →
      Alike (AgreeAfter s t) (s.readMem M addr size >>= fun r => .ok (r.2.loads instr (f r)))
        (t.readMem M addr size >>= fun r => .ok (r.2.loads instr (g r))) := by
    intro size addr f g hfg
    refine (agree_readMem h hs ht).bind fun a b ⟨hab, hagree, ha, hb⟩ => .ok ?_
    have hnext := agree_nextPC h hs ht
    refine ⟨hagree, congrFun ha _, congrFun hb _, ?_, rfl, fun hrt => hfg hrt a b hab ha hb⟩
    simp only [Machine.loads, Machine.pcAfter, ha, hb, hnext]
  unfold load
  rw [haddr]
  cases op with
  | lb | lbu => exact hread fun _ a b hab _ _ => by rw [hab]
  | lh | lhu | lw => exact .ite (h.raiseException hs ht) (hread fun _ a b hab _ _ => by rw [hab])
  | lwl => exact alike_assertAligned.bind fun _ _ _ => hread fun _ a b hab _ _ => hab
  | lwr =>
    refine alike_assertAligned.bind fun _ _ _ => hread fun hrt a b hab ha hb => ?_
    rw [merged_eq_loaded hrt, merged_eq_loaded hrt, ha, hb, hab,
      h.registers _ (gpReg_le instr.rt)]

theorem agree_store {op : Store} (hop : instr.opCode = .store op) (hf : BothFree s t instr) :
    Alike (AgreeFrom s t) (s.store M op instr) (t.store M op instr) := by
  have hrt : s.registers (gpReg instr.rt) = t.registers (gpReg instr.rt) :=
    agree_read h hs ht hf (by simp [Instruction.uses, hop])
  have haddr : s.address instr = t.address instr := by
    rw [address, address, agree_read h hs ht hf (by simp [Instruction.uses, hop])]
  -- a store of something that depends on the word that was there
  have hmerge : ∀ {addr} {f g : BitVec 32 × Machine μ → BitVec 32},
      (∀ a b, a.1 = b.1 → a.2.registers = s.registers → b.2.registers = t.registers → f a = g b) →
      Alike (AgreeFrom s t) (s.readMem M addr .word >>= fun r => r.2.writeMem M addr .word (f r))
        (t.readMem M addr .word >>= fun r => r.2.writeMem M addr .word (g r)) := by
    intro addr f g hfg
    refine (agree_readMem h hs ht).bind fun a b ⟨hab, hagree, ha, hb⟩ => ?_
    rw [hfg a b hab ha hb]
    exact agree_writeMem hs ht hagree ha hb
  unfold store
  rw [haddr]
  cases op with
  | sb | sh | sw =>
    simp only [hrt]
    exact agree_writeMem hs ht h rfl rfl
  | swl =>
    refine alike_assertAligned.bind fun _ _ _ => hmerge fun a b _ ha hb => ?_
    rw [ha, hb, hrt]
  | swr =>
    refine alike_assertAligned.bind fun _ _ _ => hmerge fun a b hab ha hb => ?_
    rw [hab, ha, hb, hrt]

theorem agree_execute (hf : BothFree s t instr) :
    Alike (AgreeAfter s t) (s.execute M instr) (t.execute M instr) := by
  unfold execute
  split
  next op hop => exact agree_finish h hs ht hop hf
  next op hop => exact .ok (agree_move h hs ht hop hf)
  next op hop => exact .ok (agree_jump h hs ht hop hf)
  next op hop => exact agree_load h hs ht hop hf
  next op hop =>
    exact (agree_store h hs ht hop hf).bind fun u v huv => .ok (huv.done h hs ht)
  next => exact h.raiseException hs ht
  next => exact h.raiseException hs ht
  next => exact h.raiseException hs ht
  next => exact .error _

end Steps

/-! ## One instruction -/

/-- An instruction that uses no register to which a load is under way, in either machine, fails
alike in both, or completes with the same result. -/
theorem Agree.oneInstruction (h : Agree s t) (hs : s.WellFormed) (ht : t.WellFormed)
    (hfs : HazardFree M s) (hft : HazardFree M t) :
    Alike Synced (s.oneInstruction M) (t.oneInstruction M) := by
  have hpc : s.registers PCReg = t.registers PCReg :=
    h.read_special hs ht (by decide) (by decide)
  have hfetch : Alike _ (s.readMem M (s.registers PCReg) .word)
      (t.readMem M (s.registers PCReg) .word) := agree_readMem h hs ht
  unfold HazardFree at hfs hft
  unfold Machine.oneInstruction
  rw [← hpc] at hft ⊢
  generalize s.readMem M (s.registers PCReg) .word = x at *
  generalize t.readMem M (s.registers PCReg) .word = y at *
  cases hfetch with
  | error e => exact .error e
  | @ok a b hab =>
    obtain ⟨raw, u⟩ := a
    obtain ⟨raw', v⟩ := b
    obtain ⟨rfl, huv, hu, hv⟩ := hab
    have hus := hs.of_registers hu
    have hvt := ht.of_registers hv
    have hfree : BothFree u v (decode raw) := by
      intro r hr
      constructor
      · rw [Free, hu]
        exact hfs raw u rfl r hr
      · rw [Free, hv]
        exact hft raw v rfl r hr
    refine (agree_execute huv hus hvt hfree).bind fun x y hxy => ?_
    have hxs : (x.machine.registers LoadReg).toNat < 32 := hxy.left ▸ hus.load
    have hyt : (y.machine.registers LoadReg).toNat < 32 := hxy.right ▸ hvt.load
    have hlt : (x.nextLoadReg.setWidth 32).toNat < 32 := by
      rw [BitVec.toNat_setWidth]
      exact (Nat.mod_le _ _).trans_lt x.nextLoadReg.isLt
    have hnext : x.nextLoadReg.setWidth 32 ≠ 0#32 → x.nextLoadValue = y.nextLoadValue :=
      fun hne => hxy.nextLoadValue fun hzero => hne (by rw [hzero]; rfl)
    rw [← hxy.nextLoadReg, ← hxy.pcAfter]
    refine (hxy.toAgree.delayedLoad hxs hyt hlt hnext).bind fun a b hab => .ok ?_
    rw [hab.read_special hab.left hab.right (r := PCReg) (by decide) (by decide),
      hab.read_special hab.left hab.right (r := NextPCReg) (by decide) (by decide)]
    exact ((hab.write (by decide) (by decide)).write (by decide) (by decide)).write (by decide)
      (by decide)

/-! ## Early loads -/

theorem agree_of_delayedLoad (hs : s.WellFormed) (h : s.delayedLoad 0#32 0#32 = .ok s') :
    Agree s' s ∧ s'.WellFormed ∧ s'.registers LoadReg = 0#32 := by
  obtain ⟨u, hu, hmem, hregs, hload, hvalue, -⟩ := exists_applied hs.load 0#32 0#32
  obtain rfl := Except.ok.inj (hu.symm.trans h)
  refine ⟨⟨fun r hr => ?_, hmem⟩, ⟨?_, ?_⟩, hload⟩
  · rw [loaded_applied hregs hload hvalue hr]
    by_cases hzero : r = R0
    · rw [if_pos hzero, hzero, loaded, if_pos rfl]
    · have hval : r.val ≠ (0#32).toNat := fun heq => hzero (Fin.ext heq)
      rw [if_neg hzero, if_neg hval]
  · rw [hload]
    decide
  · rw [hregs R0 (by decide), loaded, if_pos rfl]

theorem wellFormed_of_exception {which : ExceptionType} (hs : s.WellFormed)
    (hm : M.Valid s.memory) (h : s.oneInstruction M = .error (.exception which t)) :
    t.WellFormed ∧ t.registers LoadReg = 0#32 := by
  have hdiv : ¬ DivTraps M s := by
    intro hdiv
    cases h.symm.trans (oneInstruction_of_divTraps hdiv)
  have hprecise := precise_of_not_divTraps hs hm hdiv
  rw [Precise, h] at hprecise
  refine ⟨⟨?_, ?_⟩, hprecise.load⟩
  · rw [hprecise.load]
    decide
  · rw [hprecise.registers R0 (by decide), loaded, if_pos rfl]

theorem wellFormed_of_ok (hs : s.WellFormed) (hm : M.Valid s.memory)
    (h : s.oneInstruction M = .ok t) : t.WellFormed := by
  have hdiv : ¬ DivTraps M s := by
    intro hdiv
    cases h.symm.trans (oneInstruction_of_divTraps hdiv)
  have hprecise := precise_of_not_divTraps hs hm hdiv
  rw [Precise, h] at hprecise
  exact hprecise

theorem free_of_settled (h : s.registers LoadReg = 0#32) : s.Free r := by
  intro heq
  rw [h] at heq
  exact Fin.ext heq

end Nachos.Machine
