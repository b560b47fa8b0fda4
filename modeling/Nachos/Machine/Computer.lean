import Nachos.Machine.Process

/-! # Many processes on one machine

The machine has one set of registers and one memory. A switch to another thread
saves the registers of a user program and loads those of the next one; a new
thread sets its first registers itself. What the kernel does with address spaces
is given by a build. If the memory of the build represents private memories, as
long as the kernel uses its routines under some conditions, then every run under
these conditions is one of processes that have a machine of their own each.
-/

namespace Nachos.Machine

open Function Transition VM

variable {μ V : Type}

/-- The address spaces of a build of the kernel. A routine that fails an assertion has no
result. -/
structure Build (μ V : Type) where
  /-- The memory behind the page table of an address space. -/
  unit : ℕ → MemoryUnit μ V
  numPages : ℕ → μ → Option ℕ
  /-- `AddrSpace::AddrSpace(OpenFile*)`. -/
  create : ℕ → NoffFile → μ → Option μ
  /-- `AddrSpace::CopyAddrSpace`. -/
  copy : (id spaceDest : ℕ) → μ → Option μ
  /-- `AddrSpace::~AddrSpace`. -/
  destroy : ℕ → μ → Option μ
  /-- `myPageFaultHandler`. -/
  pageFaultHandler : ℕ → BitVec 32 → μ → Option μ
  /-- `getMemFromVAddr`. -/
  get : ℕ → (vAddr size : ℕ) → μ → Option (List UInt8 × μ)
  /-- `putMemIntoVAddr`. -/
  put : ℕ → (vAddr : ℕ) → List UInt8 → μ → Option μ

/-- Where a thread that does not run goes on: at the start of `execBridge` or `forkBridge`, or
behind `SWITCH` with the registers that it has saved. -/
inductive Context
  | execBridge
  | forkBridge (newPC : BitVec 32)
  | saved (userRegisters : Registers)

/-- The registers of the machine once the thread runs. -/
def Context.registers (numPages : ℕ) : Context → Registers
  | .execBridge => initRegisters numPages
  | .forkBridge newPC => jumpPC newPC (initRegisters numPages)
  | .saved userRegisters => userRegisters

/-- A thread with an address space, and if it is in a system call. -/
structure Thread where
  context : Context
  calling : Bool

/-- The threads have the numbers of their address spaces. -/
structure Computer (μ : Type) where
  machine : Machine μ
  current : ℕ
  threads : ℕ → Option Thread

inductive Action
  /-- Something happens to the process of the current thread. -/
  | user (e : Event)
  /-- An interrupt, when the current thread has exited. -/
  | idle
  | switch (next : ℕ)
  | exec (id : ℕ) (x : NoffFile)
  | fork (id : ℕ)
  | exit

namespace Computer

variable (B : Build μ V)

/-- The turns of the loop of `Machine::Run`, with the interrupts between them and the parts of
`ExceptionHandler`. -/
def user (c : Computer μ) (calling : Bool) : Event → Option (Machine μ × Bool)
  | .instruction =>
    if calling then none
    else match c.machine.oneInstruction (B.unit c.current) with
      | .ok s => some (s, false)
      | .error _ => none
  | .fault addr =>
    if calling then none
    else match c.machine.oneInstruction (B.unit c.current) with
      | .error (.exception .pageFault s) =>
        if s.registers BadVAddrReg = addr then
          (B.pageFaultHandler c.current addr s.memory).map fun m => (⟨s.registers, m⟩, false)
        else none
      | _ => none
  | .interrupt => (c.machine.delayedLoad 0#32 0#32).toOption.map (·, calling)
  | .call args =>
    if calling then none
    else match c.machine.oneInstruction (B.unit c.current) with
      | .error (.exception .syscall s) =>
        if arguments s.registers = args then some (s, true) else none
      | _ => none
  | .result value => if calling then some (c.machine.write R2 value, true) else none
  | .get vAddr data =>
    if calling then do
      let (bytes, m) ← B.get c.current vAddr data.length c.machine.memory
      if bytes = data then some (⟨c.machine.registers, m⟩, true) else none
    else none
  | .put vAddr data =>
    if calling then
      (B.put c.current vAddr data c.machine.memory).map fun m => (⟨c.machine.registers, m⟩, true)
    else none
  | .resume => if calling then some (c.machine.incrementPC, false) else none

/-- `Scheduler::Run`, up to `SWITCH`: the registers of a user program are saved. -/
def save (c : Computer μ) : ℕ → Option Thread :=
  match c.threads c.current with
  | some th => update c.threads c.current (some { th with context := .saved c.machine.registers })
  | none => c.threads

def step (c : Computer μ) : Action → Option (Computer μ)
  | .user e => do
    let th ← c.threads c.current
    let (s, calling) ← c.user B th.calling e
    some { c with
      machine := s
      threads := update c.threads c.current (some { th with calling := calling }) }
  | .idle =>
    if (c.threads c.current).isNone then
      (c.machine.delayedLoad 0#32 0#32).toOption.map ({ c with machine := · })
    else none
  | .switch next => do
    let th ← c.save next
    let numPages ← B.numPages next c.machine.memory
    some ⟨⟨th.context.registers numPages, c.machine.memory⟩, next, c.save⟩
  | .exec id x =>
    if (c.threads id).isNone ∧ id ≠ c.current then
      (B.create id x c.machine.memory).map fun m =>
        ⟨⟨c.machine.registers, m⟩, c.current, update c.threads id (some ⟨.execBridge, false⟩)⟩
    else none
  | .fork id => do
    let th ← c.threads c.current
    if th.calling ∧ (c.threads id).isNone then
      (B.copy c.current id c.machine.memory).map fun m =>
        ⟨⟨c.machine.registers, m⟩, c.current,
          update c.threads id (some ⟨.forkBridge (c.machine.registers R4), false⟩)⟩
    else none
  | .exit => do
    let th ← c.threads c.current
    if th.calling then
      (B.destroy c.current c.machine.memory).map fun m =>
        ⟨⟨c.machine.registers, m⟩, c.current, update c.threads c.current none⟩
    else none

def system (Init : μ → Prop) : System (Computer μ) Action :=
  .ofStep (fun c => Init c.machine.memory ∧ ∀ id, c.threads id = none) (step B)

end Computer

/-- Conditions on the memory under which the kernel uses the routines of a build. The routines do
not test them. -/
structure Guards (μ : Type) where
  create : ℕ → NoffFile → μ → Prop
  copy : ℕ → μ → Prop
  get : ℕ → (vAddr size : ℕ) → μ → Prop
  put : ℕ → (vAddr size : ℕ) → μ → Prop

def Guards.Allow (g : Guards μ) (c : Computer μ) : Action → Prop
  | .exec id x => g.create id x c.machine.memory
  | .fork _ => g.copy c.current c.machine.memory
  | .user (.get vAddr data) => g.get c.current vAddr data.length c.machine.memory
  | .user (.put vAddr data) => g.put c.current vAddr data.length c.machine.memory
  | _ => True

def Computer.guardedSystem (B : Build μ V) (g : Guards μ) (Init : μ → Prop) :
    System (Computer μ) Action :=
  (system B Init).guard g.Allow

/-! ## The processes -/

/-- Processes with a machine each, of which one runs. -/
structure Processes where
  current : ℕ
  process : ℕ → Option Process

namespace Processes

/-- A process starts with an image of its program. -/
inductive Step (Image : NoffFile → (ℕ → UInt8) → Prop) (P : Processes) : Action → Processes → Prop
  | user {e : Event} {p p' : Process} : P.process P.current = some p → p.step e = some p' →
      Step Image P (.user e) { P with process := update P.process P.current (some p') }
  | idle : P.process P.current = none → Step Image P .idle P
  | switch {next : ℕ} {p : Process} : P.process next = some p →
      Step Image P (.switch next) { P with current := next }
  | exec {id : ℕ} {x : NoffFile} {bytes : ℕ → UInt8} : P.process id = none → Image x bytes →
      Step Image P (.exec id x)
        { P with process := update P.process id (some (.exec x.numPages bytes)) }
  | fork {id : ℕ} {p : Process} : P.process P.current = some p → p.calling = true →
      P.process id = none →
      Step Image P (.fork id) { P with process := update P.process id (some p.fork) }
  | exit {p : Process} : P.process P.current = some p → p.calling = true →
      Step Image P .exit { P with process := update P.process P.current none }

def system (Image : NoffFile → (ℕ → UInt8) → Prop) : System Processes Action where
  Init P := ∀ id, P.process id = none
  Step := Step Image

def memories (P : Processes) (id : ℕ) : Option Private := (P.process id).map (·.machine.memory)

end Processes

/-! ## Builds that represent private memories -/

/-- `global` says when a memory of the build represents the memories of the processes. All that
the kernel does with it under the conditions has the effect that it should have. -/
structure Build.Represents (B : Build μ V) (g : Guards μ) (Init : μ → Prop)
    (Image : NoffFile → (ℕ → UInt8) → Prop) (global : μ → (ℕ → Option Private) → Prop) :
    Prop where
  init : ∀ m, Init m → global m fun _ => none
  numPages : ∀ m G id, global m G → B.numPages id m = (G id).map (·.numPages)
  lockstep : ∀ G id, Lockstep (B.unit id) Private.unit fun m n =>
    global m (update G id (some n))
  pageFault : ∀ m m' G id n addr, Faulting (B.unit id)
    (fun m n => global m (update G id (some n))) n addr m →
    B.pageFaultHandler id addr m = some m' → global m' (update G id (some n))
  create : ∀ m m' G id x, global m G → g.create id x m → B.create id x m = some m' →
    G id = none ∧ ∃ bytes, Image x bytes ∧ global m' (update G id (some ⟨x.numPages, bytes⟩))
  copy : ∀ m m' G id spaceDest n, global m G → g.copy id m → G id = some n → G spaceDest = none →
    B.copy id spaceDest m = some m' → global m' (update G spaceDest (some n))
  destroy : ∀ m m' G id, global m G → B.destroy id m = some m' → global m' (update G id none)
  get : ∀ m m' G id n vAddr size data, global m G → g.get id vAddr size m → G id = some n →
    B.get id vAddr size m = some (data, m') → vAddr + size ≤ n.numPages * PageSize ∧
      n.get vAddr size = data ∧ global m' G
  put : ∀ m m' G id n vAddr data, global m G → g.put id vAddr data.length m → G id = some n →
    B.put id vAddr data m = some m' → vAddr + data.length ≤ n.numPages * PageSize ∧
      global m' (update G id (some (n.put vAddr data)))

/-! ## The simulation -/

inductive Hosted (c : Computer μ) (id : ℕ) : Option Thread → Option Process → Prop
  | none : Hosted c id none none
  | some {th : Thread} {p : Process} : p.calling = th.calling → p.machine.WellFormed →
      p.machine.registers = (if id = c.current then c.machine.registers
        else th.context.registers p.machine.memory.numPages) →
      Hosted c id (some th) (some p)

theorem Hosted.of_ne {c c' : Computer μ} {id : ℕ} {o : Option Thread} {o' : Option Process}
    (h : Hosted c id o o') (hne : id ≠ c.current) (hne' : id ≠ c'.current) : Hosted c' id o o' := by
  cases h with
  | none => exact .none
  | some hc hwf hregs =>
    rw [if_neg hne] at hregs
    exact .some hc hwf (by rw [if_neg hne', hregs])

theorem Hosted.congr {c c' : Computer μ} {id : ℕ} {o : Option Thread} {o' : Option Process}
    (h : Hosted c id o o') (hcur : c'.current = c.current)
    (hregs : c'.machine.registers = c.machine.registers) : Hosted c' id o o' := by
  cases h with
  | none => exact .none
  | some hc hwf hregs' => exact .some hc hwf (by rw [hcur, hregs, hregs'])

theorem Hosted.update {c : Computer μ} {threads : ℕ → Option Thread} {process : ℕ → Option Process}
    {id : ℕ} {o : Option Thread} {o' : Option Process}
    (hothers : ∀ i ≠ id, Hosted c i (threads i) (process i)) (h : Hosted c id o o') (i : ℕ) :
    Hosted c i (update threads id o i) (update process id o' i) := by
  by_cases hi : i = id
  · subst hi
    rw [update_self, update_self]
    exact h
  · rw [update_of_ne hi, update_of_ne hi]
    exact hothers i hi

structure Computer.Runs (global : μ → (ℕ → Option Private) → Prop) (c : Computer μ)
    (P : Processes) : Prop where
  current : P.current = c.current
  memory : global c.machine.memory P.memories
  hosted : ∀ id, Hosted c id (c.threads id) (P.process id)

variable {B : Build μ V} {g : Guards μ} {Init : μ → Prop} {Image : NoffFile → (ℕ → UInt8) → Prop}
  {global : μ → (ℕ → Option Private) → Prop} {c c' : Computer μ} {P : Processes}

def Process.Follows (R : μ → Private → Prop) (p : Process) (e : Event) (s : Machine μ)
    (calling : Bool) : Prop :=
  ∃ p', p.step e = some p' ∧ p'.calling = calling ∧ p'.machine.WellFormed ∧ Related R s p'.machine

namespace Build.Represents

variable {G : ℕ → Option Private} {p : Process} {s : Machine μ} {b : Bool}

section Events

variable (hB : B.Represents g Init Image global) (hp : p.machine.WellFormed)
  (hpc : Related (fun m n => global m (update G c.current (some n))) c.machine p.machine)

include hB hp hpc

theorem instruction (hu : c.user B p.calling .instruction = some (s, b)) :
    p.Follows (fun m n => global m (update G c.current (some n))) .instruction s b := by
  have hone := (hB.lockstep G c.current).oneInstruction hpc hp
  generalize hy : p.machine.oneInstruction Private.unit = y at hone
  simp only [Computer.user] at hu
  split_ifs at hu with hc
  split at hu
  next s' hs =>
    cases hu
    rw [hs] at hone
    cases hone with
    | ok hst =>
      exact ⟨_, Process.step_eq_some_iff.mpr (.instruction (by simpa using hc) hy), rfl,
        wellFormed_of_ok (M := Private.unit) hp trivial hy, hst⟩
  next => cases hu

theorem fault {addr : BitVec 32} (hu : c.user B p.calling (.fault addr) = some (s, b)) :
    p.Follows (fun m n => global m (update G c.current (some n))) (.fault addr) s b := by
  have hone := (hB.lockstep G c.current).oneInstruction hpc hp
  generalize p.machine.oneInstruction Private.unit = y at hone
  simp only [Computer.user] at hu
  split_ifs at hu with hc
  split at hu
  next s' hs =>
    split_ifs at hu with haddr
    obtain ⟨m, hm, hmk⟩ := Option.map_eq_some_iff.mp hu
    cases hmk
    subst haddr
    rw [hs] at hone
    cases hone with
    | exception hne => exact absurd rfl hne
    | fault hfault ht hst =>
      obtain ⟨hagree, hwf, -⟩ := agree_of_trapped hp ht
      refine ⟨_, Process.step_eq_some_iff.mpr (.fault (by simpa using hc) ht), rfl, hwf,
        hst.registers, ?_⟩
      rw [hagree.memory]
      exact hB.pageFault _ _ _ _ _ _ hfault hm
  next => cases hu

omit hB in
theorem interrupt (hu : c.user B p.calling .interrupt = some (s, b)) :
    p.Follows (fun m n => global m (update G c.current (some n))) .interrupt s b := by
  obtain ⟨s', hs, hmk⟩ := Option.map_eq_some_iff.mp hu
  cases hmk
  have hload : Matches (B.unit c.current) _ p.machine _ (c.machine.delayedLoad 0#32 0#32)
      (p.machine.delayedLoad 0#32 0#32) := hpc.delayedLoad
  rw [Process.toOption_eq_some hs] at hload
  generalize ht : p.machine.delayedLoad 0#32 0#32 = z at hload
  cases hload with
  | ok hst =>
    exact ⟨_, Process.step_eq_some_iff.mpr (.interrupt ht), rfl, (agree_of_delayedLoad hp ht).2.1,
      hst⟩

theorem call {args : Arguments} (hu : c.user B p.calling (.call args) = some (s, b)) :
    p.Follows (fun m n => global m (update G c.current (some n))) (.call args) s b := by
  have hone := (hB.lockstep G c.current).oneInstruction hpc hp
  generalize hy : p.machine.oneInstruction Private.unit = y at hone
  simp only [Computer.user] at hu
  split_ifs at hu with hc
  split at hu
  next s' hs =>
    split_ifs at hu with hargs
    cases hu
    rw [hs] at hone
    cases hone with
    | exception _ hst =>
      have hcall := Process.Happens.call (p := p) (by simpa using hc) hy
      rw [← hst.registers, hargs] at hcall
      exact ⟨_, Process.step_eq_some_iff.mpr hcall, rfl,
        (wellFormed_of_exception (M := Private.unit) hp trivial hy).1, hst⟩
  next => cases hu

omit hB in
theorem result {value : BitVec 32} (hu : c.user B p.calling (.result value) = some (s, b)) :
    p.Follows (fun m n => global m (update G c.current (some n))) (.result value) s b := by
  simp only [Computer.user, Option.ite_none_right_eq_some, Option.some.injEq] at hu
  obtain ⟨hc, hmk⟩ := hu
  cases hmk
  exact ⟨_, Process.step_eq_some_iff.mpr (.result hc), rfl, hp.write (by decide) (by decide),
    hpc.write R2⟩

theorem user_get {vAddr : ℕ} {data : List UInt8}
    (hg : g.get c.current vAddr data.length c.machine.memory)
    (hu : c.user B p.calling (.get vAddr data) = some (s, b)) :
    p.Follows (fun m n => global m (update G c.current (some n))) (.get vAddr data) s b := by
  simp only [Computer.user, Option.ite_none_right_eq_some, Option.bind_eq_bind,
    Option.bind_eq_some_iff, Prod.exists] at hu
  obtain ⟨hc, bytes, m, hm, rfl, hmk⟩ := hu
  cases hmk
  obtain ⟨hin, hdata, hglobal⟩ := hB.get _ _ _ _ _ _ _ _ hpc.memory hg (update_self ..) hm
  exact ⟨p, Process.step_eq_some_iff.mpr (.get hc hin hdata), hc, hp, hpc.registers, hglobal⟩

theorem user_put {vAddr : ℕ} {data : List UInt8}
    (hg : g.put c.current vAddr data.length c.machine.memory)
    (hu : c.user B p.calling (.put vAddr data) = some (s, b)) :
    p.Follows (fun m n => global m (update G c.current (some n))) (.put vAddr data) s b := by
  simp only [Computer.user, Option.ite_none_right_eq_some] at hu
  obtain ⟨hc, hu⟩ := hu
  obtain ⟨m, hm, hmk⟩ := Option.map_eq_some_iff.mp hu
  cases hmk
  obtain ⟨hin, hglobal⟩ := hB.put _ _ _ _ _ _ _ hpc.memory hg (update_self ..) hm
  rw [update_idem] at hglobal
  exact ⟨_, Process.step_eq_some_iff.mpr (.put hc hin), rfl, hp.of_registers rfl, hpc.registers,
    hglobal⟩

omit hB in
theorem resume (hu : c.user B p.calling .resume = some (s, b)) :
    p.Follows (fun m n => global m (update G c.current (some n))) .resume s b := by
  simp only [Computer.user, Option.ite_none_right_eq_some, Option.some.injEq] at hu
  obtain ⟨hc, hmk⟩ := hu
  cases hmk
  refine ⟨_, Process.step_eq_some_iff.mpr (.resume hc), rfl, ?_, hpc.incrementPC⟩
  exact ((hp.write (by decide) (by decide)).write (by decide) (by decide)).write (by decide)
    (by decide)

theorem user {e : Event} (hg : g.Allow c (.user e)) (hu : c.user B p.calling e = some (s, b)) :
    p.Follows (fun m n => global m (update G c.current (some n))) e s b := by
  cases e with
  | instruction => exact hB.instruction hp hpc hu
  | fault addr => exact hB.fault hp hpc hu
  | interrupt => exact interrupt hp hpc hu
  | call args => exact hB.call hp hpc hu
  | result value => exact result hp hpc hu
  | get vAddr data => exact hB.user_get hp hpc hg hu
  | put vAddr data => exact hB.user_put hp hpc hg hu
  | resume => exact resume hp hpc hu

end Events

end Build.Represents

namespace Computer.Runs

theorem exists_process {id : ℕ} {th : Thread} (h : Runs global c P) (hth : c.threads id = some th) :
    ∃ p, P.process id = some p ∧ p.calling = th.calling ∧ p.machine.WellFormed ∧
      p.machine.registers = (if id = c.current then c.machine.registers
        else th.context.registers p.machine.memory.numPages) := by
  have hid := h.hosted id
  rw [hth] at hid
  generalize P.process id = o at hid
  cases hid with
  | some hc hwf hregs => exact ⟨_, rfl, hc, hwf, hregs⟩

theorem process_eq_none {id : ℕ} (h : Runs global c P) (hth : c.threads id = none) :
    P.process id = none := by
  have hid := h.hosted id
  rw [hth] at hid
  generalize P.process id = o at hid
  cases hid
  rfl

theorem registers {p : Process} (h : Runs global c P) (hp : P.process c.current = some p) :
    p.machine.WellFormed ∧ p.machine.registers = c.machine.registers := by
  have hhosted := h.hosted c.current
  rw [hp] at hhosted
  generalize c.threads c.current = o at hhosted
  cases hhosted with
  | some _ hwf hregs => exact ⟨hwf, by rw [hregs, if_pos rfl]⟩

theorem related {p : Process} (h : Runs global c P) (hp : P.process c.current = some p) :
    Related (fun m n => global m (update P.memories c.current (some n))) c.machine p.machine := by
  have hmem : P.memories c.current = some p.machine.memory := by
    rw [Processes.memories, hp, Option.map_some]
  refine ⟨(h.registers hp).2.symm, ?_⟩
  rw [← hmem, update_eq_self]
  exact h.memory

theorem memories_update {id : ℕ} {o : Option Process} :
    Processes.memories { P with process := update P.process id o } =
      update P.memories id (o.map (·.machine.memory)) := by
  funext id'
  simp only [Processes.memories, update_apply]
  split <;> rfl

theorem user_step {e : Event} (hB : B.Represents g Init Image global) (h : Runs global c P)
    (hg : g.Allow c (.user e)) (hs : c.step B (.user e) = some c') :
    ∃ P', Processes.Step Image P (.user e) P' ∧ Runs global c' P' := by
  simp only [step, Option.bind_eq_bind, Option.bind_eq_some_iff, Prod.exists] at hs
  obtain ⟨th, hth, s, b, hu, hc'⟩ := hs
  obtain rfl := Option.some.inj hc'
  obtain ⟨p, hp, hcalling, hwf, -⟩ := h.exists_process hth
  rw [← hcalling] at hu
  obtain ⟨p', hp', hb, hwf', hst⟩ := hB.user hwf (h.related hp) hg hu
  have hcur := h.current
  refine ⟨_, .user (hcur ▸ hp) hp', hcur, ?_, ?_⟩
  · rw [memories_update, hcur]
    exact hst.memory
  · rw [hcur]
    exact .update (fun id hid => (h.hosted id).of_ne hid hid)
      (.some hb hwf' (by rw [if_pos rfl, hst.registers]))

theorem save_apply {id : ℕ} : c.save id = if id = c.current then
    (c.threads id).map fun th => { th with context := .saved c.machine.registers }
    else c.threads id := by
  unfold save
  cases hth : c.threads c.current with
  | none =>
    dsimp only
    split
    next hid => rw [hid, hth, Option.map_none]
    next => rfl
  | some th =>
    dsimp only
    rw [update_apply]
    split
    next hid => rw [hid, hth, Option.map_some]
    next => rfl

theorem hosted_save {id : ℕ} {th : Thread} (h : Runs global c P) (hth : c.save id = some th) :
    ∃ p, P.process id = some p ∧ p.calling = th.calling ∧ p.machine.WellFormed ∧
      p.machine.registers = th.context.registers p.machine.memory.numPages := by
  rw [save_apply] at hth
  split at hth
  next hid =>
    obtain ⟨th', hth', rfl⟩ := Option.map_eq_some_iff.mp hth
    obtain ⟨p, hp, hc, hwf, hregs⟩ := h.exists_process hth'
    rw [if_pos hid] at hregs
    exact ⟨p, hp, hc, hwf, hregs⟩
  next hid =>
    obtain ⟨p, hp, hc, hwf, hregs⟩ := h.exists_process hth
    rw [if_neg hid] at hregs
    exact ⟨p, hp, hc, hwf, hregs⟩

theorem switch_step {next : ℕ} (hB : B.Represents g Init Image global) (h : Runs global c P)
    (hs : c.step B (.switch next) = some c') :
    ∃ P', Processes.Step Image P (.switch next) P' ∧ Runs global c' P' := by
  simp only [step, Option.bind_eq_bind, Option.bind_eq_some_iff] at hs
  obtain ⟨th, hth, n, hn, hc'⟩ := hs
  obtain rfl := Option.some.inj hc'
  obtain ⟨p, hp, -, -, -⟩ := h.hosted_save hth
  refine ⟨_, .switch hp, rfl, h.memory, fun id => ?_⟩
  dsimp only
  cases hsave : c.save id with
  | none =>
    have hnone : c.threads id = none := by
      rw [save_apply] at hsave
      split at hsave
      · exact Option.map_eq_none_iff.mp hsave
      · exact hsave
    rw [h.process_eq_none hnone]
    exact .none
  | some th' =>
    obtain ⟨p', hp', hc, hwf, hregs⟩ := h.hosted_save hsave
    rw [hp']
    refine .some hc hwf ?_
    split
    next hid =>
      subst hid
      obtain rfl := Option.some.inj (hth.symm.trans hsave)
      rw [hB.numPages _ _ _ h.memory, Processes.memories, hp', Option.map_some, Option.map_some]
        at hn
      rw [hregs, Option.some.inj hn]
    next => exact hregs

theorem wellFormed_exec {n : ℕ} {bytes : ℕ → UInt8} : (Process.exec n bytes).machine.WellFormed :=
  ⟨Nat.zero_lt_succ 31, rfl⟩

theorem wellFormed_fork {p : Process} : p.fork.machine.WellFormed :=
  ⟨Nat.zero_lt_succ 31, rfl⟩

theorem exec_step {id : ℕ} {x : NoffFile} (hB : B.Represents g Init Image global)
    (h : Runs global c P) (hg : g.create id x c.machine.memory)
    (hs : c.step B (.exec id x) = some c') :
    ∃ P', Processes.Step Image P (.exec id x) P' ∧ Runs global c' P' := by
  simp only [step, Option.ite_none_right_eq_some, Option.isNone_iff_eq_none] at hs
  obtain ⟨⟨hnone, hne⟩, hs⟩ := hs
  obtain ⟨m, hm, rfl⟩ := Option.map_eq_some_iff.mp hs
  obtain ⟨-, bytes, himage, hglobal⟩ := hB.create _ _ _ _ _ h.memory hg hm
  refine ⟨_, .exec (h.process_eq_none hnone) himage, h.current, ?_, ?_⟩
  · rw [memories_update]
    exact hglobal
  · exact .update (fun id' _ => (h.hosted id').congr rfl rfl)
      (.some rfl wellFormed_exec (by rw [if_neg hne]; rfl))

theorem fork_step {id : ℕ} (hB : B.Represents g Init Image global) (h : Runs global c P)
    (hg : g.copy c.current c.machine.memory) (hs : c.step B (.fork id) = some c') :
    ∃ P', Processes.Step Image P (.fork id) P' ∧ Runs global c' P' := by
  simp only [step, Option.bind_eq_bind, Option.bind_eq_some_iff, Option.ite_none_right_eq_some,
    Option.isNone_iff_eq_none] at hs
  obtain ⟨th, hth, ⟨hcall, hnone⟩, hs⟩ := hs
  obtain ⟨m, hm, rfl⟩ := Option.map_eq_some_iff.mp hs
  obtain ⟨p, hp, hc, hwf, hregs⟩ := h.exists_process hth
  rw [if_pos rfl] at hregs
  have hnew := h.process_eq_none hnone
  have hmem : ∀ {i o}, P.process i = o → P.memories i = o.map (·.machine.memory) := by
    rintro i o rfl
    rfl
  have hglobal := hB.copy _ _ _ _ _ _ h.memory hg (hmem hp) (hmem hnew) hm
  have hne : id ≠ c.current := by
    rintro rfl
    cases hth.symm.trans hnone
  refine ⟨_, .fork (h.current ▸ hp) (hc.trans hcall) hnew, h.current, ?_, ?_⟩
  · rw [memories_update]
    exact hglobal
  · refine .update (fun id' _ => (h.hosted id').congr rfl rfl) (.some rfl wellFormed_fork ?_)
    rw [if_neg hne, ← hregs]
    rfl

theorem exit_step (hB : B.Represents g Init Image global) (h : Runs global c P)
    (hs : c.step B .exit = some c') :
    ∃ P', Processes.Step Image P .exit P' ∧ Runs global c' P' := by
  simp only [step, Option.bind_eq_bind, Option.bind_eq_some_iff, Option.ite_none_right_eq_some]
    at hs
  obtain ⟨th, hth, hcall, hs⟩ := hs
  obtain ⟨m, hm, rfl⟩ := Option.map_eq_some_iff.mp hs
  obtain ⟨p, hp, hc, -, -⟩ := h.exists_process hth
  have hcur := h.current
  refine ⟨_, .exit (hcur ▸ hp) (hc.trans hcall), hcur, ?_, ?_⟩
  · rw [memories_update, hcur]
    exact hB.destroy _ _ _ _ h.memory hm
  · rw [hcur]
    exact .update (fun id _ => (h.hosted id).congr rfl rfl) .none

theorem idle_step (h : Runs global c P) (hs : c.step B .idle = some c') :
    ∃ P', Processes.Step Image P .idle P' ∧ Runs global c' P' := by
  simp only [step, Option.ite_none_right_eq_some, Option.isNone_iff_eq_none] at hs
  obtain ⟨hnone, hs⟩ := hs
  obtain ⟨s, hload, rfl⟩ := Option.map_eq_some_iff.mp hs
  have hmem : s.memory = c.machine.memory := by
    unfold delayedLoad at hload
    split at hload <;> cases hload
    rfl
  refine ⟨P, .idle (h.current ▸ h.process_eq_none hnone), h.current, hmem ▸ h.memory, fun id => ?_⟩
  by_cases hid : id = c.current
  · subst hid
    dsimp only
    rw [hnone, h.process_eq_none hnone]
    exact .none
  · exact (h.hosted id).of_ne hid hid

end Computer.Runs

/-- Every run of the computer under the conditions is one of the processes, with the same events. -/
theorem Computer.simulates (hB : B.Represents g Init Image global) :
    Simulates (guardedSystem B g Init) (Processes.system Image) (Runs global) := by
  constructor
  · rintro c ⟨hinit, hnone⟩
    refine ⟨⟨c.current, fun _ => none⟩, fun _ => rfl, rfl, hB.init _ hinit, fun id => ?_⟩
    rw [hnone]
    exact .none
  · rintro c P a c' h ⟨hg, hs⟩
    cases a with
    | user e => exact h.user_step hB hg hs
    | idle => exact h.idle_step hs
    | switch next => exact h.switch_step hB hs
    | exec id x => exact h.exec_step hB hg hs
    | fork id => exact h.fork_step hB hg hs
    | exit => exact h.exit_step hB hs

/-! ## One process among the others -/

def Action.next (current : ℕ) : Action → ℕ
  | .switch next => next
  | .user _ | .idle | .exec _ _ | .fork _ | .exit => current

/-- The actions, each with the thread that runs. -/
def attributed : ℕ → List Action → List (ℕ × Action)
  | _, [] => []
  | current, a :: as => (current, a) :: attributed (a.next current) as

/-- What happens to the process of a thread. -/
def eventOf (id : ℕ) : ℕ × Action → Option Event
  | (current, .user e) => if current = id then some e else none
  | (_, .idle) | (_, .switch _) | (_, .exec _ _) | (_, .fork _) | (_, .exit) => none

namespace Processes

variable {P P' : Processes} {p : Process} {id : ℕ}

theorem current_of_step {a : Action} (h : Step Image P a P') : P'.current = a.next P.current := by
  cases h with
  | user | idle | switch | exec | fork | exit => rfl

theorem project_step {a : Action} (h : Step Image P a P') (hp : P.process id = some p)
    (hlasts : (P.current, a) ≠ (id, .exit)) :
    ∃ p', P'.process id = some p' ∧
      (eventOf id (P.current, a)).elim (p' = p) fun e => p.step e = some p' := by
  have hfresh : ∀ {id'}, P.process id' = none → id ≠ id' := by
    rintro id' hnone rfl
    cases hp.symm.trans hnone
  cases h with
  | @user e q q' hq hstep =>
    by_cases hcur : P.current = id
    · subst hcur
      obtain rfl := Option.some.inj (hp.symm.trans hq)
      refine ⟨q', update_self .., ?_⟩
      rwa [eventOf, if_pos rfl]
    · refine ⟨p, (update_of_ne (Ne.symm hcur) ..).trans hp, ?_⟩
      rw [eventOf, if_neg hcur]
      rfl
  | idle => exact ⟨p, hp, rfl⟩
  | switch => exact ⟨p, hp, rfl⟩
  | exec hnone => exact ⟨p, (update_of_ne (hfresh hnone) ..).trans hp, rfl⟩
  | fork _ _ hnone => exact ⟨p, (update_of_ne (hfresh hnone) ..).trans hp, rfl⟩
  | exit =>
    have hne : id ≠ P.current := fun hid => hlasts (by rw [hid])
    exact ⟨p, (update_of_ne hne ..).trans hp, rfl⟩

/-- What happens to a process is a run of it alone, as long as it does not exit. -/
theorem project {as : List Action} (h : Run (system Image) P as P') (hp : P.process id = some p)
    (hlasts : (id, .exit) ∉ attributed P.current as) :
    ∃ p', P'.process id = some p' ∧
      Run Process.system p ((attributed P.current as).filterMap (eventOf id)) p' := by
  induction h generalizing p with
  | nil P => exact ⟨p, hp, .nil p⟩
  | @cons P P₁ P₂ a as hstep _ ih =>
    rw [attributed, List.mem_cons, not_or] at hlasts
    obtain ⟨p₁, hp₁, hevent⟩ := project_step hstep hp (Ne.symm hlasts.1)
    rw [← current_of_step hstep] at hlasts
    obtain ⟨p₂, hp₂, hrun⟩ := ih hp₁ hlasts.2
    refine ⟨p₂, hp₂, ?_⟩
    rw [attributed, ← current_of_step hstep]
    cases he : eventOf id (P.current, a) with
    | none =>
      rw [he] at hevent
      obtain rfl : p₁ = p := hevent
      rwa [List.filterMap_cons_none he]
    | some e =>
      rw [he] at hevent
      rw [List.filterMap_cons_some he]
      exact .cons hevent hrun

end Processes

/-- What happens to a process from its start on is a run from the image of its program. -/
theorem Computer.exists_alone {c₀ c₁ c₂ : Computer μ} {id : ℕ} {x : NoffFile}
    {as bs : List Action} (hB : B.Represents g Init Image global)
    (h₀ : (guardedSystem B g Init).Init c₀) (h₁ : Run (guardedSystem B g Init) c₀ as c₁)
    (hexec : (guardedSystem B g Init).Step c₁ (.exec id x) c₂)
    (h₂ : Run (guardedSystem B g Init) c₂ bs c) (hlasts : (id, .exit) ∉ attributed c₂.current bs) :
    ∃ bytes p P, Image x bytes ∧
      Run Process.system (.exec x.numPages bytes)
        ((attributed c₂.current bs).filterMap (eventOf id)) p ∧
      (c.current = id → c.machine.registers = p.machine.registers) ∧
      global c.machine.memory P ∧ P id = some p.machine.memory := by
  obtain ⟨P₀, -, hr₀⟩ := (simulates hB).init c₀ h₀
  obtain ⟨P₁, -, hr₁⟩ := (simulates hB).run h₁ hr₀
  obtain ⟨P₂, hstep, hr₂⟩ := hr₁.exec_step hB hexec.1 hexec.2
  obtain ⟨P, hrun, hr⟩ := (simulates hB).run h₂ hr₂
  cases hstep with
  | @exec _ _ bytes hnone himage =>
    rw [← hr₂.current] at hlasts ⊢
    obtain ⟨p, hp, hprocess⟩ := Processes.project hrun (update_self ..) hlasts
    refine ⟨bytes, p, P.memories, himage, hprocess, fun hcur => ?_, hr.memory, ?_⟩
    · exact (hr.registers (hcur ▸ hp)).2.symm
    · rw [Processes.memories, hp, Option.map_some]

end Nachos.Machine
