import Nachos.Library.Transition
import Nachos.Machine.Lockstep

/-! # Processes with a machine of their own

What a user program is to see: registers and a memory that no other program
changes. It executes instructions and calls the kernel, which may read and write
bytes of the memory and write a result before it resumes the program. Page faults and
interrupts have no effect but that they apply a delayed load, so a program that
keeps its load delay slots clear computes the same with and without them.
-/

namespace Nachos.Machine

open Bytes Outcome Transition VM

/-- The memory of a program that has it to itself. -/
structure Private where
  numPages : ℕ
  bytes : ℕ → UInt8

namespace Private

/-- Every address inside the memory is translated to itself. -/
def translate (addr : BitVec 32) (size : Size) (_writing : Bool) (m : Private) :
    Option (Except ExceptionType ℕ × Private) :=
  if size.bytes = 4 ∧ addr.toNat % 4 ≠ 0 ∨ size.bytes = 2 ∧ addr.toNat % 2 ≠ 0 then
    some (.error .addressError, m)
  else if m.numPages ≤ addr.toNat / PageSize then some (.error .addressError, m)
  else some (.ok addr.toNat, m)

theorem translate_eq_some {addr : BitVec 32} {size : Size} {writing : Bool} {m m' : Private}
    {r : Except ExceptionType ℕ} (h : translate addr size writing m = some (r, m')) : m' = m := by
  unfold translate at h
  split_ifs at h <;> cases h <;> rfl

def unit : MemoryUnit Private (ℕ → UInt8) where
  translate := translate
  mainMemory := bytes
  setMainMemory f m := { m with bytes := f }
  userMemory := bytes
  Valid _ := True
  valid_translate _ _ := trivial
  userMemory_translate _ h := by rw [translate_eq_some h]

def get (vAddr size : ℕ) (m : Private) : List UInt8 :=
  (List.range size).map fun i => m.bytes (vAddr + i)

def put (vAddr : ℕ) (data : List UInt8) (m : Private) : Private :=
  { m with bytes := blit m.bytes vAddr data.length fun i => data.getD i 0 }

end Private

/-! ## Registers that the kernel sets -/

def R2 : Fin NumTotalRegs := ⟨2, by decide⟩

def R4 : Fin NumTotalRegs := ⟨4, by decide⟩

def R5 : Fin NumTotalRegs := ⟨5, by decide⟩

def R6 : Fin NumTotalRegs := ⟨6, by decide⟩

def StackReg : Fin NumTotalRegs := ⟨29, by decide⟩

/-- `AddrSpace::InitRegisters`. -/
def initRegisters (numPages : ℕ) : Registers := fun r =>
  if r = NextPCReg then 4#32
  else if r = StackReg then BitVec.ofNat 32 (numPages * PageSize) - 16#32
  else 0#32

def jumpPC (newPC : BitVec 32) (registers : Registers) : Registers :=
  Function.update (Function.update registers PCReg newPC) NextPCReg (newPC + 4#32)

def incrementPC {μ : Type} (s : Machine μ) : Machine μ :=
  let s := s.write PrevPCReg (s.registers PCReg)
  let s := s.write PCReg (s.registers NextPCReg)
  s.write NextPCReg (s.registers PCReg + 4#32)

theorem Related.incrementPC {μ ν : Type} {R : μ → ν → Prop} {s : Machine μ} {t : Machine ν}
    (h : Related R s t) : Related R s.incrementPC t.incrementPC := by
  obtain ⟨registers, m⟩ := s
  obtain ⟨_, n⟩ := t
  obtain ⟨rfl, hm⟩ := h
  exact ⟨rfl, hm⟩

theorem Synced.incrementPC {μ : Type} {s t : Machine μ} (h : Synced s t) :
    Synced s.incrementPC t.incrementPC := by
  have hpc : s.registers PCReg = t.registers PCReg :=
    h.read_special h.left h.right (by decide) (by decide)
  have hnext : s.registers NextPCReg = t.registers NextPCReg :=
    h.read_special h.left h.right (by decide) (by decide)
  unfold Machine.incrementPC
  simp only [write_registers_self,
    write_registers_of_ne (show PrevPCReg ≠ NextPCReg by decide), hpc, hnext]
  exact ((h.write (by decide) (by decide)).write (by decide) (by decide)).write (by decide)
    (by decide)

structure Arguments where
  type : BitVec 32
  arg1 : BitVec 32
  arg2 : BitVec 32
  arg3 : BitVec 32
  deriving DecidableEq

def arguments (registers : Registers) : Arguments :=
  ⟨registers R2, registers R4, registers R5, registers R6⟩

/-! ## Events -/

/-- What happens to a process while it is the running one. -/
inductive Event
  /-- An instruction completes. -/
  | instruction
  | fault (addr : BitVec 32)
  | interrupt
  | call (arguments : Arguments)
  /-- The kernel writes register 2. -/
  | result (value : BitVec 32)
  /-- The kernel reads bytes of the memory. -/
  | get (vAddr : ℕ) (data : List UInt8)
  /-- The kernel writes bytes of the memory. -/
  | put (vAddr : ℕ) (data : List UInt8)
  | resume
  deriving DecidableEq

/-- The events that a program does not ask for. -/
def Event.disturbs : Event → Bool
  | .fault _ | .interrupt => true
  | .instruction | .call _ | .result _ | .get _ _ | .put _ _ | .resume => false

/-- A process executes instructions, or is in a system call. -/
structure Process where
  machine : Machine Private
  calling : Bool

namespace Process

def exec (numPages : ℕ) (bytes : ℕ → UInt8) : Process :=
  ⟨⟨initRegisters numPages, ⟨numPages, bytes⟩⟩, false⟩

/-- A copy of a process, which starts at the address in register 4. -/
def fork (p : Process) : Process :=
  ⟨⟨jumpPC (p.machine.registers R4) (initRegisters p.machine.memory.numPages), p.machine.memory⟩,
    false⟩

def step (p : Process) : Event → Option Process
  | .instruction =>
    if p.calling then none
    else match p.machine.oneInstruction Private.unit with
      | .ok s => some ⟨s, false⟩
      | .error _ => none
  | .fault addr =>
    if p.calling then none else (p.machine.trapped addr).toOption.map (⟨·, false⟩)
  | .interrupt => (p.machine.delayedLoad 0#32 0#32).toOption.map (⟨·, p.calling⟩)
  | .call args =>
    if p.calling then none
    else match p.machine.oneInstruction Private.unit with
      | .error (.exception .syscall s) =>
        if arguments s.registers = args then some ⟨s, true⟩ else none
      | _ => none
  | .result value => if p.calling then some ⟨p.machine.write R2 value, true⟩ else none
  | .get vAddr data =>
    if p.calling ∧ vAddr + data.length ≤ p.machine.memory.numPages * PageSize ∧
        p.machine.memory.get vAddr data.length = data then
      some p
    else none
  | .put vAddr data =>
    if p.calling ∧ vAddr + data.length ≤ p.machine.memory.numPages * PageSize then
      some ⟨⟨p.machine.registers, p.machine.memory.put vAddr data⟩, true⟩
    else none
  | .resume => if p.calling then some ⟨p.machine.incrementPC, false⟩ else none

/-- What a process does from some state on. -/
def system : System Process Event := .ofStep (fun p => p.machine.WellFormed) step

variable {p p' q q' : Process} {e : Event}

inductive Happens (p : Process) : Event → Process → Prop
  | instruction {s : Machine Private} : p.calling = false →
      p.machine.oneInstruction Private.unit = .ok s → Happens p .instruction ⟨s, false⟩
  | fault {addr : BitVec 32} {s : Machine Private} : p.calling = false →
      p.machine.trapped addr = .ok s → Happens p (.fault addr) ⟨s, false⟩
  | interrupt {s : Machine Private} : p.machine.delayedLoad 0#32 0#32 = .ok s →
      Happens p .interrupt ⟨s, p.calling⟩
  | call {s : Machine Private} : p.calling = false →
      p.machine.oneInstruction Private.unit = .error (.exception .syscall s) →
      Happens p (.call (arguments s.registers)) ⟨s, true⟩
  | result {value : BitVec 32} : p.calling = true →
      Happens p (.result value) ⟨p.machine.write R2 value, true⟩
  | get {vAddr : ℕ} {data : List UInt8} : p.calling = true →
      vAddr + data.length ≤ p.machine.memory.numPages * PageSize →
      p.machine.memory.get vAddr data.length = data → Happens p (.get vAddr data) p
  | put {vAddr : ℕ} {data : List UInt8} : p.calling = true →
      vAddr + data.length ≤ p.machine.memory.numPages * PageSize →
      Happens p (.put vAddr data) ⟨⟨p.machine.registers, p.machine.memory.put vAddr data⟩, true⟩
  | resume : p.calling = true → Happens p .resume ⟨p.machine.incrementPC, false⟩

theorem toOption_eq_some {ε α : Type} {x : Except ε α} {a : α} (h : x.toOption = some a) :
    x = .ok a := by
  cases x with
  | error e => cases h
  | ok b => exact congrArg Except.ok (Option.some.inj h)

theorem step_eq_some_iff : p.step e = some p' ↔ Happens p e p' := by
  constructor
  · intro h
    cases e with
    | instruction =>
      simp only [step] at h
      split_ifs at h with hc
      split at h
      next s hs =>
        cases h
        exact .instruction (by simpa using hc) hs
      next => cases h
    | fault addr =>
      simp only [step] at h
      split_ifs at h with hc
      obtain ⟨s, hs, rfl⟩ := Option.map_eq_some_iff.mp h
      exact .fault (by simpa using hc) (toOption_eq_some hs)
    | interrupt =>
      obtain ⟨s, hs, rfl⟩ := Option.map_eq_some_iff.mp h
      exact .interrupt (toOption_eq_some hs)
    | call args =>
      simp only [step] at h
      split_ifs at h with hc
      split at h
      next s hs =>
        split_ifs at h with hargs
        cases h
        exact hargs ▸ .call (by simpa using hc) hs
      next => cases h
    | result value =>
      simp only [step, Option.ite_none_right_eq_some, Option.some.injEq] at h
      exact h.2 ▸ .result h.1
    | get vAddr data =>
      simp only [step, Option.ite_none_right_eq_some, Option.some.injEq] at h
      exact h.2 ▸ .get h.1.1 h.1.2.1 h.1.2.2
    | put vAddr data =>
      simp only [step, Option.ite_none_right_eq_some, Option.some.injEq] at h
      exact h.2 ▸ .put h.1.1 h.1.2
    | resume =>
      simp only [step, Option.ite_none_right_eq_some, Option.some.injEq] at h
      exact h.2 ▸ .resume h.1
  · intro h
    cases h with
    | instruction hc hs => simp [step, hc, hs]
    | fault hc hs => simp [step, hc, hs, Except.toOption]
    | interrupt hs => simp [step, hs, Except.toOption]
    | call hc hs => simp [step, hc, hs]
    | result hc => simp [step, hc]
    | get hc hin hdata => simp [step, hc, hin, hdata]
    | put hc hin => simp [step, hc, hin]
    | resume hc => simp [step, hc]

/-! ## Interrupts and page faults -/

structure Interrupted (p q : Process) : Prop extends Agree p.machine q.machine where
  left : p.machine.WellFormed
  right : q.machine.WellFormed
  load : p.machine.registers LoadReg = 0#32 ∨
    p.machine.registers LoadReg = q.machine.registers LoadReg
  calling : p.calling = q.calling
  settled : q.calling = true → q.machine.registers LoadReg = 0#32

theorem Interrupted.settled_left (h : Interrupted p q) (hc : q.calling = true) :
    p.machine.registers LoadReg = 0#32 := by
  rcases h.load with hload | hload
  · exact hload
  · rw [hload, h.settled hc]

theorem Interrupted.hazardFree (h : Interrupted p q) (hf : HazardFree Private.unit q.machine) :
    HazardFree Private.unit p.machine := by
  intro raw u hread r hr
  have hpc : p.machine.registers PCReg = q.machine.registers PCReg :=
    h.read_special h.left h.right (by decide) (by decide)
  have hfetch : Alike _ (p.machine.readMem Private.unit (p.machine.registers PCReg) .word)
      (q.machine.readMem Private.unit (p.machine.registers PCReg) .word) :=
    agree_readMem h.toAgree h.left h.right
  rcases h.load with hload | hload
  · exact free_of_settled hload
  · rw [hread, hpc] at hfetch
    generalize hq : q.machine.readMem Private.unit (q.machine.registers PCReg) .word = y at hfetch
    cases hfetch with
    | @ok _ b hab =>
      obtain ⟨raw', v⟩ := b
      obtain ⟨rfl, -⟩ := hab
      rw [Free, hload]
      exact hf raw v hq r hr

theorem Interrupted.disturbed (h : Interrupted p q) (hs : Happens p e p')
    (he : e.disturbs = true) : Interrupted p' q := by
  have hsettle : ∀ {s : Machine Private} {b : Bool}, b = q.calling →
      Agree s p.machine ∧ s.WellFormed ∧ s.registers LoadReg = 0#32 → Interrupted ⟨s, b⟩ q :=
    fun hb ⟨hagree, hwf, hload⟩ =>
      ⟨hagree.trans h.toAgree, hwf, h.right, .inl hload, hb, h.settled⟩
  cases hs with
  | fault hc ht => exact hsettle (hc.symm.trans h.calling) (agree_of_trapped h.left ht)
  | interrupt ht => exact hsettle h.calling (agree_of_delayedLoad h.left ht)
  | instruction | call | result | get | put | resume => cases he

theorem Interrupted.matched (h : Interrupted p q) (hf : HazardFree Private.unit q.machine)
    (hs : Happens p e p') (he : e.disturbs = false) :
    ∃ q', Happens q e q' ∧ Interrupted p' q' := by
  have halike := h.toAgree.oneInstruction h.left h.right (h.hazardFree hf) hf
  cases hs with
  | fault | interrupt => cases he
  | instruction hc hone =>
    rw [hone] at halike
    generalize hq : q.machine.oneInstruction Private.unit = y at halike
    cases halike with
    | ok hab =>
      exact ⟨_, .instruction (h.calling ▸ hc) hq, hab.toAgree, hab.left, hab.right, .inr hab.load,
        rfl, nofun⟩
  | call hc hone =>
    rw [hone] at halike
    generalize hq : q.machine.oneInstruction Private.unit = y at halike
    cases halike with
    | error =>
      obtain ⟨hwf, hload⟩ := wellFormed_of_exception (M := Private.unit) h.right trivial hq
      exact ⟨_, .call (h.calling ▸ hc) hq, .refl _, hwf, hwf, .inl hload, rfl, fun _ => hload⟩
  | result hc =>
    have hcq : q.calling = true := h.calling ▸ hc
    have hp := h.settled_left hcq
    have hq := h.settled hcq
    refine ⟨_, .result hcq, h.toAgree.write (by decide) (free_of_settled hp) (free_of_settled hq),
      h.left.write (by decide) (by decide), h.right.write (by decide) (by decide),
      .inl ?_, rfl, fun _ => ?_⟩
    · rw [write_registers_of_ne (by decide), hp]
    · rw [write_registers_of_ne (by decide), hq]
  | get hc hin hdata =>
    rw [h.memory] at hin hdata
    exact ⟨q, .get (h.calling ▸ hc) hin hdata, h⟩
  | put hc hin =>
    have hcq : q.calling = true := h.calling ▸ hc
    rw [h.memory] at hin
    refine ⟨_, .put hcq hin, ⟨h.registers, ?_⟩, h.left.of_registers rfl, h.right.of_registers rfl,
      h.load, rfl, fun _ => h.settled hcq⟩
    rw [h.memory]
  | resume hc =>
    have hcq : q.calling = true := h.calling ▸ hc
    have hload := (h.settled_left hcq).trans (h.settled hcq).symm
    have hsynced := Synced.incrementPC ⟨h.toAgree, h.left, h.right, hload⟩
    exact ⟨_, .resume hcq, hsynced.toAgree, hsynced.left, hsynced.right, .inr hsynced.load, rfl,
      nofun⟩

theorem Interrupted.run {as : List Event} (h : Interrupted p q) (hr : Run system p as p')
    (hfree : ∀ bs q', bs <+: as.filter (!·.disturbs) → Run system q bs q' →
      HazardFree Private.unit q'.machine) :
    ∃ q', Run system q (as.filter (!·.disturbs)) q' ∧ Interrupted p' q' := by
  induction hr generalizing q with
  | nil p => exact ⟨q, .nil q, h⟩
  | @cons p₀ p₁ p₂ e as hs _ ih =>
    have hhappens := step_eq_some_iff.mp hs
    cases he : e.disturbs with
    | true =>
      rw [List.filter_cons_of_neg (by simp [he])] at hfree ⊢
      exact ih (h.disturbed hhappens he) hfree
    | false =>
      rw [List.filter_cons_of_pos (by simp [he])] at hfree ⊢
      have hq : HazardFree Private.unit q.machine := hfree [] q List.nil_prefix (.nil q)
      obtain ⟨q₁, hq₁, h₁⟩ := h.matched hq hhappens he
      have hstep : system.Step q e q₁ := step_eq_some_iff.mpr hq₁
      obtain ⟨q₂, hq₂, h₂⟩ := ih h₁ fun bs q' hbs hbs' =>
        hfree (e :: bs) q' (List.cons_prefix_cons.mpr ⟨rfl, hbs⟩) (.cons hstep hbs')
      exact ⟨q₂, .cons hstep hq₂, h₂⟩

/-- Interrupts and page faults do not change what a program computes, as long as no instruction
uses the register of a load in its delay slot: the events that are left when they are taken out
of a run are a run, to a state that is the same once the delayed loads are applied. -/
theorem undisturbed {p p' : Process} {as : List Event} (h : Run system p as p')
    (hp : p.machine.WellFormed) (hc : p.calling = false)
    (hfree : ∀ bs q, bs <+: as.filter (!·.disturbs) → Run system p bs q →
      HazardFree Private.unit q.machine) :
    ∃ q, Run system p (as.filter (!·.disturbs)) q ∧ Agree p'.machine q.machine ∧
      p'.calling = q.calling := by
  have hsame : Interrupted p p :=
    ⟨.refl _, hp, hp, .inr rfl, rfl, fun hcalling => absurd (hc.symm.trans hcalling) nofun⟩
  obtain ⟨q, hq, hpq⟩ := hsame.run h hfree
  exact ⟨q, hq, hpq.toAgree, hpq.calling⟩

/-- A process with one page, whose program loads a word into register 1 and does nothing after. -/
def loader : Process :=
  exec 1 fun a => [8, 0, 1, 0x8c, 0, 0, 0, 0, 42].getD a 0

/-- An interrupt in the delay slot of the load. -/
theorem undisturbed_loader : ∃ p' q,
    Run system loader [.instruction, .interrupt, .instruction] p' ∧
    Run system loader [.instruction, .instruction] q ∧ Agree p'.machine q.machine := by
  have hrun : (Transition.exec step loader [.instruction, .interrupt, .instruction]).any
      (fun _ => true) = true := by
    decide +kernel
  have hclear : ∀ bs ∈ [Event.instruction, .instruction].inits,
      (Transition.exec step loader bs).all (fun q => HazardFree Private.unit q.machine) = true := by
    decide +kernel
  obtain ⟨p', hp', -⟩ := run_of_any_exec (I := fun p => p.machine.WellFormed) hrun
  obtain ⟨q, hq, hagree, -⟩ := undisturbed hp' ⟨by decide, rfl⟩ rfl fun bs q hbs hq => by
    have hall := hclear bs ((List.mem_inits _ _).mpr hbs)
    rw [run_ofStep_iff.mp hq] at hall
    simpa using hall
  exact ⟨p', q, hp', hq, hagree⟩

end Process

end Nachos.Machine
