import Nachos.Machine.DelaySlot

/-! # Machines in lockstep

Two memory units under which programs find the same bytes execute every
instruction alike, except that the first may raise a page fault. The registers
are then those with which any page fault at this address enters the kernel, and
the memories are still related.
-/

namespace Nachos.Machine

open Bytes VM Outcome

variable {μ ν V W : Type} {α β γ δ : Type}

/-- The results of a translation by two units, on memories related by `R`. The second unit leaves
its memory as it is. -/
inductive Translated (M : MemoryUnit μ V) (N : MemoryUnit ν W) (R : μ → ν → Prop) (size : Size)
    (writing : Bool) (n : ν) :
    Option (Except ExceptionType ℕ × μ) → Option (Except ExceptionType ℕ × ν) → Prop
  | fault {m : μ} {r : Option (Except ExceptionType ℕ × ν)} :
      R m n → Translated M N R size writing n (some (.error .pageFault, m)) r
  | error {m : μ} {which : ExceptionType} : which ≠ .pageFault → R m n →
      Translated M N R size writing n (some (.error which, m)) (some (.error which, n))
  | ok {m : μ} {a b : ℕ} : R m n →
      (∀ i < size.bytes, M.mainMemory m (a + i) = N.mainMemory n (b + i)) →
      (writing = true → ∀ value, R
        (M.setMainMemory (blit (M.mainMemory m) a size.bytes (valueByte value)) m)
        (N.setMainMemory (blit (N.mainMemory n) b size.bytes (valueByte value)) n)) →
      Translated M N R size writing n (some (.ok a, m)) (some (.ok b, n))
  | assertion : Translated M N R size writing n none none

def Lockstep (M : MemoryUnit μ V) (N : MemoryUnit ν W) (R : μ → ν → Prop) : Prop :=
  ∀ addr size writing m n, R m n → Translated M N R size writing n
    (M.translate addr size writing m) (N.translate addr size writing n)

structure Related (R : μ → ν → Prop) (s : Machine μ) (t : Machine ν) : Prop where
  registers : s.registers = t.registers
  memory : R s.memory t.memory

def trapped (addr : BitVec 32) (s : Machine μ) : Except (Stop μ) (Machine μ) :=
  (s.write BadVAddrReg addr).delayedLoad 0#32 0#32

theorem agree_of_trapped {addr : BitVec 32} {s s' : Machine μ} (hs : s.WellFormed)
    (h : s.trapped addr = .ok s') :
    Agree s' s ∧ s'.WellFormed ∧ s'.registers LoadReg = 0#32 := by
  obtain ⟨hagree, hrest⟩ := agree_of_delayedLoad (hs.write (by decide) (by decide)) h
  exact ⟨hagree.trans ⟨fun r hr => loaded_badVAddr hr, rfl⟩, hrest⟩

def Faulting (M : MemoryUnit μ V) (R : μ → ν → Prop) (n : ν) (addr : BitVec 32) (m' : μ) : Prop :=
  ∃ size writing m, R m n ∧ M.translate addr size writing m = some (.error .pageFault, m')

/-- What two machines do from related states, of which the second is `t`. -/
inductive Matches (M : MemoryUnit μ V) (R : μ → ν → Prop) (t : Machine ν) (Q : α → β → Prop) :
    Except (Stop μ) α → Except (Stop ν) β → Prop
  | ok {a : α} {b : β} : Q a b → Matches M R t Q (.ok a) (.ok b)
  | exception {which : ExceptionType} {s' : Machine μ} {t' : Machine ν} : which ≠ .pageFault →
      Related R s' t' →
      Matches M R t Q (.error (.exception which s')) (.error (.exception which t'))
  | fault {s' : Machine μ} {t' : Machine ν} {y : Except (Stop ν) β} :
      Faulting M R t.memory (s'.registers BadVAddrReg) s'.memory →
      t.trapped (s'.registers BadVAddrReg) = .ok t' → Related R s' t' →
      Matches M R t Q (.error (.exception .pageFault s')) y
  | assertion : Matches M R t Q (.error .assertion) (.error .assertion)
  | trap : Matches M R t Q (.error .trap) (.error .trap)

variable {M : MemoryUnit μ V} {N : MemoryUnit ν W} {R : μ → ν → Prop} {s s' : Machine μ}
  {t t' : Machine ν} {Q : α → β → Prop} {Q' : γ → δ → Prop} {addr value : BitVec 32} {size : Size}
  {instr : Instruction}

theorem Matches.bind {x : Except (Stop μ) α} {y : Except (Stop ν) β} {f : α → Except (Stop μ) γ}
    {g : β → Except (Stop ν) δ} (h : Matches M R t Q x y)
    (hf : ∀ a b, Q a b → Matches M R t Q' (f a) (g b)) : Matches M R t Q' (x >>= f) (y >>= g) := by
  cases h with
  | ok hab => exact hf _ _ hab
  | exception hne hst => exact .exception hne hst
  | fault hfault ht hst => exact .fault hfault ht hst
  | assertion => exact .assertion
  | trap => exact .trap

theorem Matches.ite {c : Prop} [Decidable c] {x x' : Except (Stop μ) α}
    {y y' : Except (Stop ν) β} (h : Matches M R t Q x y) (h' : Matches M R t Q x' y') :
    Matches M R t Q (if c then x else x') (if c then y else y') := by
  split
  · exact h
  · exact h'

/-! ## Registers -/

theorem Related.write (h : Related R s t) (r : Fin NumTotalRegs) :
    Related R (s.write r value) (t.write r value) :=
  ⟨by rw [Machine.write, Machine.write, h.registers], h.memory⟩

theorem Related.delayedLoad {nextReg nextValue : BitVec 32} (h : Related R s t') :
    Matches M R t (Related R) (s.delayedLoad nextReg nextValue)
      (t'.delayedLoad nextReg nextValue) := by
  obtain ⟨registers, m⟩ := s
  obtain ⟨_, n⟩ := t'
  obtain ⟨rfl, hm⟩ := h
  unfold Machine.delayedLoad
  split
  · exact .ok ⟨rfl, hm⟩
  · exact .trap

theorem Related.raiseException {which : ExceptionType} (h : Related R s t)
    (hne : which ≠ .pageFault) :
    Matches M R t Q (s.raiseException which addr) (t.raiseException which addr) :=
  (h.write BadVAddrReg).delayedLoad.bind fun _ _ => .exception hne

theorem Related.fault {y : Except (Stop ν) β} (h : Related R s t) (ht : t.WellFormed)
    (hfault : Faulting M R t.memory addr s.memory) :
    Matches M R t Q (s.raiseException .pageFault addr) y := by
  have hloadt : ((t.write BadVAddrReg addr).registers LoadReg).toNat < 32 := by
    rw [write_registers_of_ne (by decide)]
    exact ht.load
  have hloads : ((s.write BadVAddrReg addr).registers LoadReg).toNat < 32 := by
    rw [(h.write BadVAddrReg).registers]
    exact hloadt
  obtain ⟨t', ht', -⟩ := exists_applied hloadt 0#32 0#32
  obtain ⟨s', hs', hmem, -, -, -, hbad⟩ := exists_applied hloads 0#32 0#32
  have hmatch : Matches M R t (Related R) (.ok s') (.ok t') := by
    rw [← hs', ← ht']
    exact (h.write BadVAddrReg).delayedLoad
  have haddr : s'.registers BadVAddrReg = addr := hbad.trans write_registers_self
  rw [Machine.raiseException, hs']
  cases hmatch with
  | ok hst => exact .fault (haddr.symm ▸ hmem.symm ▸ hfault) (haddr ▸ ht') hst

/-! ## Accesses to memory -/

theorem Lockstep.readMem (hM : Lockstep M N R) (h : Related R s t) (ht : t.WellFormed) :
    Matches M R t (fun a b => a.1 = b.1 ∧ Related R a.2 b.2 ∧ b.2 = t) (s.readMem M addr size)
      (t.readMem N addr size) := by
  have htrans := hM addr size false s.memory t.memory h.memory
  unfold Machine.readMem
  generalize hx : M.translate addr size false s.memory = x at htrans ⊢
  generalize N.translate addr size false t.memory = y at htrans ⊢
  cases htrans with
  | fault hm => exact Related.fault ⟨h.registers, hm⟩ ht ⟨size, _, s.memory, h.memory, hx⟩
  | error hne hm => exact Related.raiseException ⟨h.registers, hm⟩ hne
  | ok hm hbytes => exact .ok ⟨readValue_congr hbytes, ⟨h.registers, hm⟩, rfl⟩
  | assertion => exact .assertion

theorem Lockstep.writeMem (hM : Lockstep M N R) (h : Related R s t) (ht : t.WellFormed) :
    Matches M R t (Related R) (s.writeMem M addr size value) (t.writeMem N addr size value) := by
  have htrans := hM addr size true s.memory t.memory h.memory
  unfold Machine.writeMem
  generalize hx : M.translate addr size true s.memory = x at htrans ⊢
  generalize N.translate addr size true t.memory = y at htrans ⊢
  cases htrans with
  | fault hm => exact Related.fault ⟨h.registers, hm⟩ ht ⟨size, _, s.memory, h.memory, hx⟩
  | error hne hm => exact Related.raiseException ⟨h.registers, hm⟩ hne
  | ok hm _ hwrite => exact .ok ⟨h.registers, hwrite rfl value⟩
  | assertion => exact .assertion

/-! ## The switch -/

structure RelatedAfter (R : μ → ν → Prop) (x : Executed μ) (y : Executed ν) : Prop where
  machine : Related R x.machine y.machine
  pcAfter : x.pcAfter = y.pcAfter
  nextLoadReg : x.nextLoadReg = y.nextLoadReg
  nextLoadValue : x.nextLoadValue = y.nextLoadValue

theorem Related.done (h : Related R s t) : RelatedAfter R s.done t.done :=
  ⟨h, by rw [Machine.done, Machine.done, pcAfter, pcAfter, h.registers], rfl, rfl⟩

theorem Related.loads (h : Related R s t) :
    RelatedAfter R (s.loads instr value) (t.loads instr value) :=
  ⟨h, by rw [Machine.loads, Machine.loads, pcAfter, pcAfter, h.registers], rfl, rfl⟩

theorem Related.finish {r : Result} (h : Related R s t) :
    Matches M R t (RelatedAfter R) (s.finish r) (t.finish r) := by
  cases r with
  | write r value => exact .ok (h.write _).done
  | hiLo hi lo => exact .ok ((h.write LoReg).write HiReg).done
  | overflow => exact h.raiseException (by decide)
  | trap => exact .trap

theorem Related.move {op : Move} (h : Related R s t) :
    Related R (s.move op instr) (t.move op instr) := by
  cases op with
  | mfhi | mflo | mthi | mtlo =>
    simp only [Machine.move, h.registers]
    exact h.write _

theorem Related.branch {taken : Bool} (h : Related R s t) :
    RelatedAfter R (s.branch taken instr) (t.branch taken instr) :=
  ⟨h, by simp only [Machine.branch, pcAfter, h.registers], rfl, rfl⟩

theorem Related.jump {op : Jump} (h : Related R s t) :
    RelatedAfter R (s.jump op instr) (t.jump op instr) := by
  have hlink : ∀ r, Related R (s.write r (s.registers NextPCReg + 4#32))
      (t.write r (t.registers NextPCReg + 4#32)) := fun r => h.registers ▸ h.write r
  cases op with
  | beq | bne | bgez | bgtz | blez | bltz =>
    simp only [Machine.jump, h.registers]
    exact h.branch
  | bgezal | bltzal =>
    simp only [Machine.jump, (hlink R31).registers]
    exact (hlink R31).branch
  | jal => exact ⟨hlink R31, by simp only [Machine.jump, pcAfter, (hlink R31).registers], rfl, rfl⟩
  | j => exact ⟨h, by simp only [Machine.jump, pcAfter, h.registers], rfl, rfl⟩
  | jalr => exact ⟨hlink _, by simp only [Machine.jump, (hlink _).registers], rfl, rfl⟩
  | jr => exact ⟨h, by simp only [Machine.jump, h.registers], rfl, rfl⟩

theorem matches_assertAligned {tmp : BitVec 32} :
    Matches M R t (fun _ _ => True) (assertAligned tmp) (assertAligned tmp) := by
  unfold assertAligned
  split
  · exact .ok trivial
  · exact .assertion

theorem Lockstep.load {op : Load} (hM : Lockstep M N R) (h : Related R s t) (ht : t.WellFormed) :
    Matches M R t (RelatedAfter R) (s.load M op instr) (t.load N op instr) := by
  have haddr : s.address instr = t.address instr := by rw [address, address, h.registers]
  -- a load from an address, whatever becomes of the value
  have hread : ∀ {size addr} {f : BitVec 32 × Machine μ → BitVec 32}
      {g : BitVec 32 × Machine ν → BitVec 32},
      (∀ a b, a.1 = b.1 → a.2.registers = b.2.registers → f a = g b) →
      Matches M R t (RelatedAfter R)
        (s.readMem M addr size >>= fun r => .ok (r.2.loads instr (f r)))
        (t.readMem N addr size >>= fun r => .ok (r.2.loads instr (g r))) := by
    intro size addr f g hfg
    refine (hM.readMem h ht).bind fun a b hab => ?_
    rw [hfg a b hab.1 hab.2.1.registers]
    exact .ok hab.2.1.loads
  unfold Machine.load
  rw [haddr]
  cases op with
  | lb | lbu => exact hread fun a b hab _ => by rw [hab]
  | lh | lhu | lw => exact .ite (h.raiseException (by decide)) (hread fun a b hab _ => by rw [hab])
  | lwl => exact matches_assertAligned.bind fun _ _ _ => hread fun a b hab _ => hab
  | lwr =>
    refine matches_assertAligned.bind fun _ _ _ => hread fun a b hab hregs => ?_
    rw [hab, merged, merged, hregs]

theorem Lockstep.store {op : Store} (hM : Lockstep M N R) (h : Related R s t)
    (ht : t.WellFormed) : Matches M R t (Related R) (s.store M op instr) (t.store N op instr) := by
  have haddr : s.address instr = t.address instr := by rw [address, address, h.registers]
  cases op with
  | sb | sh | sw =>
    simp only [Machine.store, haddr, h.registers]
    exact hM.writeMem h ht
  | swl | swr =>
    simp only [Machine.store, haddr]
    refine matches_assertAligned.bind fun _ _ _ => (hM.readMem h ht).bind ?_
    rintro ⟨v, u⟩ ⟨_, _⟩ ⟨rfl, hu, rfl⟩
    dsimp only
    rw [hu.registers]
    exact hM.writeMem hu ht

theorem Lockstep.execute (hM : Lockstep M N R) (h : Related R s t) (ht : t.WellFormed) :
    Matches M R t (RelatedAfter R) (s.execute M instr) (t.execute N instr) := by
  unfold Machine.execute
  cases instr.opCode with
  | arith op =>
    dsimp only
    rw [h.registers]
    exact h.finish
  | move op => exact .ok h.move.done
  | jump op => exact .ok h.jump
  | load op => exact hM.load h ht
  | store op => exact (hM.store h ht).bind fun _ _ hu => .ok hu.done
  | syscall | unimp | res => exact h.raiseException (by decide)
  | rfe => exact .assertion

/-! ## One instruction -/

/-- Both machines complete the instruction, or leave it for the same reason, in related states;
or the first one has a page fault. -/
theorem Lockstep.oneInstruction (hM : Lockstep M N R) (h : Related R s t) (ht : t.WellFormed) :
    Matches M R t (Related R) (s.oneInstruction M) (t.oneInstruction N) := by
  unfold Machine.oneInstruction
  rw [h.registers]
  refine (hM.readMem h ht).bind ?_
  rintro ⟨raw, u⟩ ⟨_, _⟩ ⟨rfl, hu, rfl⟩
  refine (hM.execute hu ht).bind fun x y hxy => ?_
  rw [hxy.nextLoadReg, hxy.nextLoadValue, hxy.pcAfter]
  refine hxy.machine.delayedLoad.bind fun v w hvw => .ok ?_
  rw [hvw.registers]
  exact ((hvw.write _).write _).write _

end Nachos.Machine
