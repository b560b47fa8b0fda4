import Nachos.Machine.Virtual

/-! # Page faults in a row

A page fault brings a page in and marks it valid, and no other routine takes the
mark away. So the instruction that is executed again finds its own page, and
after that the page of its data: after two page faults there is no third one,
not even if the delayed load that the first one applied has changed the address
of the data.
-/

namespace Nachos.Machine

open Function Transition VM State Outcome

section Units

variable {μ V α : Type} {M : MemoryUnit μ V} {Present : μ → BitVec 32 → Prop} {s t : Machine μ}
  {addr value : BitVec 32} {size : Size} {instr : Instruction} {A : Set (BitVec 32)}

def Instruction.dataAddress (instr : Instruction) (registers : Registers) : Option (BitVec 32) :=
  match instr.opCode with
  | .load _ | .store .sb | .store .sh | .store .sw =>
    some (registers (gpReg instr.rs) + instr.extra)
  | .store .swl | .store .swr => some ((registers (gpReg instr.rs) + instr.extra) &&& ~~~3#32)
  | .arith _ | .move _ | .jump _ | .syscall | .unimp | .res | .rfe => none

/-- Pages that are present stay so, and an access raises a page fault only if its page is not
present. -/
structure Presence (M : MemoryUnit μ V) (Present : μ → BitVec 32 → Prop) : Prop where
  stays : ∀ {addr size writing m r m' a}, M.Valid m →
    M.translate addr size writing m = some (r, m') → Present m a → Present m' a
  found : ∀ {addr size writing m b m'}, M.translate addr size writing m = some (.ok b, m') →
    Present m addr
  missed : ∀ {addr size writing m m'},
    M.translate addr size writing m = some (.error .pageFault, m') → ¬ Present m addr

structure Reached (M : MemoryUnit μ V) (Present : μ → BitVec 32 → Prop) (s t : Machine μ) : Prop
    extends Unchanged M s t where
  present : ∀ a, Present s.memory a → Present t.memory a

/-- A page fault is at an address of `A` whose page is not present. -/
def FaultsAt (Present : μ → BitVec 32 → Prop) (s : Machine μ) (A : Set (BitVec 32)) :
    Stop μ → Prop
  | .exception .pageFault t =>
    t.registers BadVAddrReg ∈ A ∧ ¬ Present s.memory (t.registers BadVAddrReg) ∧
      ∀ a, Present s.memory a → Present t.memory a
  | _ => True

theorem faultsAt_raiseException {which : ExceptionType} {Q : α → Prop} (hne : which ≠ .pageFault) :
    Holds Q (FaultsAt Present s A) (t.raiseException which addr) := by
  unfold raiseException delayedLoad
  split
  · cases which with
    | pageFault => exact absurd rfl hne
    | _ => trivial
  · trivial

theorem faultsAt_assertAligned {tmp : BitVec 32} :
    Holds (fun _ => True) (FaultsAt Present s A) (assertAligned tmp) := by
  unfold assertAligned
  split <;> trivial

section Steps

variable (hM : Presence M Present) (hs : s.WellFormed)

include hM hs

omit hs in
theorem Reached.translate {writing : Bool} {r : Except ExceptionType ℕ} {m : μ}
    (h : Reached M Present s t) (hr : M.translate addr size writing t.memory = some (r, m)) :
    Reached M Present s { t with memory := m } :=
  ⟨h.toUnchanged.translate hr, fun a ha => hM.stays h.valid hr (h.present a ha)⟩

theorem Reached.fault {writing : Bool} {which : ExceptionType} {m : μ} {Q : α → Prop}
    (h : Reached M Present s t) (ha : addr ∈ A)
    (hr : M.translate addr size writing t.memory = some (.error which, m)) :
    Holds Q (FaultsAt Present s A) (raiseException which addr { t with memory := m }) := by
  by_cases hwhich : which = .pageFault
  · subst hwhich
    have hload :
        ((write BadVAddrReg addr { t with memory := m }).registers LoadReg).toNat < 32 := by
      rw [write_registers_of_ne (by decide), h.registers]
      exact hs.load
    obtain ⟨u, hu, hmem, -, -, -, hbad⟩ := exists_applied hload 0#32 0#32
    have hbad : u.registers BadVAddrReg = addr := hbad.trans write_registers_self
    rw [raiseException, hu]
    refine ⟨hbad.symm ▸ ha, fun hp => hM.missed hr (h.present addr (hbad ▸ hp)), fun a hp => ?_⟩
    rw [hmem]
    exact hM.stays h.valid hr (h.present a hp)
  · exact faultsAt_raiseException hwhich

theorem Reached.readMem (h : Reached M Present s t) (ha : addr ∈ A) :
    Holds (fun r => Reached M Present s r.2) (FaultsAt Present s A) (t.readMem M addr size) := by
  unfold Machine.readMem
  split
  next => trivial
  next hr => exact h.fault hM hs ha hr
  next hr => exact h.translate hM hr

theorem Reached.writeMem (h : Reached M Present s t) (ha : addr ∈ A) :
    Holds (fun _ => True) (FaultsAt Present s A) (t.writeMem M addr size value) := by
  unfold Machine.writeMem
  split
  next => trivial
  next hr => exact h.fault hM hs ha hr
  next => trivial

theorem Reached.load {op : Load} (h : Reached M Present s t) (ha : t.address instr ∈ A) :
    Holds (fun _ => True) (FaultsAt Present s A) (t.load M op instr) := by
  have hread : ∀ {size} {f : BitVec 32 × Machine μ → BitVec 32},
      Holds (fun _ => True) (FaultsAt Present s A) (t.readMem M (t.address instr) size >>= fun r =>
        .ok (r.2.loads instr (f r))) := fun {size f} =>
    (h.readMem hM hs ha).bind fun _ _ => trivial
  have hif : ∀ {c : Prop} [Decidable c] {addr} {x : Except (Stop μ) (Executed μ)},
      Holds (fun _ => True) (FaultsAt Present s A) x → Holds (fun _ => True) (FaultsAt Present s A)
        (if c then t.raiseException .addressError addr else x) := by
    intro c _ addr x hx
    split
    · exact faultsAt_raiseException (by decide)
    · exact hx
  cases op with
  | lb | lbu => exact hread
  | lh | lhu | lw => exact hif hread
  | lwl | lwr => exact faultsAt_assertAligned.bind fun _ _ => hread

theorem Reached.store {op : Store} (h : Reached M Present s t)
    (ha : (match op with
      | .sb | .sh | .sw => t.address instr
      | .swl | .swr => t.address instr &&& ~~~3#32) ∈ A) :
    Holds (fun _ => True) (FaultsAt Present s A) (t.store M op instr) := by
  cases op with
  | sb | sh | sw => exact h.writeMem hM hs ha
  | swl | swr =>
    refine faultsAt_assertAligned.bind fun _ _ => ?_
    exact (h.readMem hM hs ha).bind fun r hr => hr.writeMem hM hs ha

theorem Reached.execute (h : Reached M Present s t) :
    Holds (fun _ => True) (FaultsAt Present s {a | instr.dataAddress s.registers = some a})
      (t.execute M instr) := by
  have haddress : t.address instr = s.registers (gpReg instr.rs) + instr.extra := by
    rw [Machine.address, h.registers]
  unfold Machine.execute
  split
  next op _ =>
    cases arithmetic op instr t.registers with
    | write | hiLo | trap => trivial
    | overflow => exact faultsAt_raiseException (by decide)
  next => trivial
  next => trivial
  next op hop =>
    refine h.load hM hs ?_
    rw [haddress, Set.mem_ofPred_eq, Instruction.dataAddress, hop]
  next op hop =>
    refine Holds.bind (h.store hM hs ?_) fun _ _ => trivial
    rw [haddress, Set.mem_ofPred_eq, Instruction.dataAddress, hop]
    cases op <;> rfl
  next => exact faultsAt_raiseException (by decide)
  next => exact faultsAt_raiseException (by decide)
  next => exact faultsAt_raiseException (by decide)
  next => trivial

/-- A page fault of an instruction is at the program counter, or behind the fetch at the address
of the data. -/
theorem fault_of_oneInstruction (hm : M.Valid s.memory)
    (h : s.oneInstruction M = .error (.exception .pageFault t)) :
    ¬ Present s.memory (t.registers BadVAddrReg) ∧
      (∀ a, Present s.memory a → Present t.memory a) ∧
      (t.registers BadVAddrReg = s.registers PCReg ∨ Present s.memory (s.registers PCReg) ∧
        ∃ raw u, s.readMem M (s.registers PCReg) .word = .ok (raw, u) ∧
          (decode raw).dataAddress s.registers = some (t.registers BadVAddrReg)) := by
  have hself : Reached M Present s s := ⟨.refl hm, fun _ ha => ha⟩
  have hread : Holds _ (FaultsAt Present s {s.registers PCReg})
      (s.readMem M (s.registers PCReg) .word) := hself.readMem hM hs (Set.mem_singleton _)
  unfold oneInstruction at h
  cases hfetch : s.readMem M (s.registers PCReg) .word with
  | error e =>
    rw [hfetch] at hread h
    cases h
    exact ⟨hread.2.1, hread.2.2, .inl hread.1⟩
  | ok r =>
    obtain ⟨raw, u⟩ := r
    rw [hfetch] at hread h
    have hpc : Present s.memory (s.registers PCReg) := by
      unfold Machine.readMem at hfetch
      split at hfetch
      next => cases hfetch
      next =>
        obtain ⟨v, -, hv⟩ := bind_eq_ok.mp hfetch
        cases hv
      next hr => exact hM.found hr
    have hexec : Holds (fun _ => True)
        (FaultsAt Present s {a | (decode raw).dataAddress s.registers = some a})
        (.error (.exception .pageFault t) : Except (Stop μ) (Machine μ)) := by
      rw [← h]
      refine (Reached.execute hM hs hread).bind fun x _ => ?_
      unfold delayedLoad
      split <;> trivial
    exact ⟨hexec.2.1, hexec.2.2, .inr ⟨hpc, raw, u, rfl, hexec.1⟩⟩

end Steps

end Units

variable {σ : Type} {P : Replacement σ} {s t : State σ} {id : ℕ}

/-! ## Valid pages -/

def present (id : ℕ) (s : State σ) (addr : BitVec 32) : Prop :=
  (s.pageTable (entryPtr id addr.toNat)).valid = true

theorem presence_paging : Presence (paging P id) (present id) where
  stays {addr _ _ _ _ _ a} hm h hp := by
    obtain ⟨⟨r, u⟩, hu, hr⟩ := Option.map_eq_some_iff.mp h
    cases hr
    cases r with
    | error e => exact translate_error hm.frames hu ▸ hp
    | ok b =>
      obtain ⟨-, -, q, v, hv, -, -, -, rfl⟩ := translate_ok hu
      have hvalid := UserInv.valid_getPhysicalPage hv
      unfold present at hp ⊢
      rw [← hvalid] at hp
      by_cases heq : entryPtr id a.toNat = entryPtr id addr.toNat
      · rw [heq] at hp ⊢
        rw [touch, setEntry_pageTable_self]
        exact hp
      · rw [touch, setEntry_pageTable_of_ne heq]
        exact hp
  found h := by
    obtain ⟨⟨r, u⟩, hu, hr⟩ := Option.map_eq_some_iff.mp h
    obtain ⟨hr, rfl⟩ := Prod.mk.inj hr
    cases r with
    | error e => cases hr
    | ok b => exact (translate_ok hu).2.1
  missed h := by
    have hvalid := (translate_pageFault (translate_of_paging h)).2.1
    unfold present
    rw [hvalid]
    exact Bool.false_ne_true

theorem present_pageFaultHandler {addr a : BitVec 32}
    (h : s.pageFaultHandler P id addr.toNat = some t) (ha : a = addr ∨ present id s a) :
    present id t a := by
  obtain ⟨q, u, hu, rfl⟩ := pageFaultHandler_eq_some h
  unfold present
  by_cases heq : entryPtr id a.toNat = entryPtr id addr.toNat
  · rw [heq, setEntry_pageTable_self]
  · rcases ha with rfl | ha
    · exact absurd rfl heq
    · rw [setEntry_pageTable_of_ne heq, ((swap_flags hu).1 _).1]
      exact ha

/-! ## One page fault -/

def Process.dataAddress (p : Process) : Option (BitVec 32) :=
  (p.machine.readMem Private.unit (p.machine.registers PCReg) .word).toOption.bind fun r =>
    (decode r.1).dataAddress p.machine.registers

/-- A page fault at the address `a` changes the process from `p` to `p'`, and the state of the
paging system from `m` to `m'`. -/
structure Faulted (id : ℕ) (a : BitVec 32) (p : Process) (m : State σ) (p' : Process)
    (m' : State σ) : Prop where
  wellFormed : p.machine.WellFormed
  trapped : p.machine.trapped a = .ok p'.machine
  missed : ¬ present id m a
  stays : ∀ b, b = a ∨ present id m b → present id m' b
  address : a = p.machine.registers PCReg ∨
    present id m (p.machine.registers PCReg) ∧ p.dataAddress = some a

variable {a a₀ a₁ a₂ : BitVec 32} {p p' p₀ p₁ p₂ p₃ : Process} {m m' m₀ m₁ m₂ m₃ : State σ}

theorem Faulted.pc (h : Faulted id a p m p' m') :
    p'.machine.registers PCReg = p.machine.registers PCReg := by
  obtain ⟨hagree, hwf, -⟩ := agree_of_trapped h.wellFormed h.trapped
  exact hagree.read_special hwf h.wellFormed (by decide) (by decide)

theorem Faulted.dataAddress (h : Faulted id a p m p' m')
    (hload : p.machine.registers LoadReg = 0#32) : p'.dataAddress = p.dataAddress := by
  obtain ⟨hagree, hwf, hload'⟩ := agree_of_trapped h.wellFormed h.trapped
  have hread : Alike _ (p'.machine.readMem Private.unit (p.machine.registers PCReg) .word)
      (p.machine.readMem Private.unit (p.machine.registers PCReg) .word) :=
    agree_readMem hagree hwf h.wellFormed
  unfold Process.dataAddress
  rw [h.pc]
  generalize p'.machine.readMem Private.unit (p.machine.registers PCReg) .word = x at hread ⊢
  generalize p.machine.readMem Private.unit (p.machine.registers PCReg) .word = y at hread ⊢
  cases hread with
  | error e => rfl
  | @ok r r' hr =>
    have hrs : p'.machine.registers (gpReg (decode r.1).rs) =
        p.machine.registers (gpReg (decode r.1).rs) :=
      hagree.read hwf h.wellFormed (gpReg_le _) (free_of_settled hload') (free_of_settled hload)
    change (decode r.1).dataAddress _ = (decode r'.1).dataAddress _
    rw [← hr.1, Instruction.dataAddress, hrs, Instruction.dataAddress]

theorem Faulted.third (h₀ : Faulted id a₀ p₀ m₀ p₁ m₁) (h₁ : Faulted id a₁ p₁ m₁ p₂ m₂)
    (h₂ : Faulted id a₂ p₂ m₂ p₃ m₃) : False := by
  -- the first page fault is for the instruction, or the instruction is there
  have hpc₁ : present id m₁ (p₁.machine.registers PCReg) := by
    rw [h₀.pc]
    rcases h₀.address with haddr | ⟨hpc, -⟩
    · exact h₀.stays _ (.inl haddr.symm)
    · exact h₀.stays _ (.inr hpc)
  have hpc₂ : present id m₂ (p₂.machine.registers PCReg) := by
    rw [h₁.pc]
    exact h₁.stays _ (.inr hpc₁)
  have hdata₁ : p₁.dataAddress = some a₁ := by
    rcases h₁.address with haddr | ⟨-, hdata⟩
    · exact absurd (haddr ▸ hpc₁) h₁.missed
    · exact hdata
  have hdata₂ : p₂.dataAddress = some a₂ := by
    rcases h₂.address with haddr | ⟨-, hdata⟩
    · exact absurd (haddr ▸ hpc₂) h₂.missed
    · exact hdata
  -- the first page fault has applied the delayed load, so the data is at the same address
  have hload := (agree_of_trapped h₀.wellFormed h₀.trapped).2.2
  rw [h₁.dataAddress hload, hdata₁] at hdata₂
  obtain rfl := Option.some.inj hdata₂
  exact h₂.missed (h₁.stays _ (.inl rfl))

/-! ## Runs -/

variable {c c' : Computer (State σ)} {Q : Processes}

theorem faulted_of_step (h : Computer.Runs Paged c Q)
    (hs : c.step (virtual P) (.user (.fault a)) = some c') :
    ∃ p p' Q', Q.process c.current = some p ∧ Computer.Runs Paged c' Q' ∧
      c'.current = c.current ∧ Q'.process c.current = some p' ∧
      Faulted c.current a p c.machine.memory p' c'.machine.memory := by
  have hallow : pagingGuards.Allow c (.user (.fault a)) := trivial
  obtain ⟨Q', hstep, hr⟩ := h.user_step represents_virtual hallow hs
  simp only [Computer.step, Option.bind_eq_bind, Option.bind_eq_some_iff, Prod.exists] at hs
  obtain ⟨th, hth, s, b, hu, hc'⟩ := hs
  obtain rfl := Option.some.inj hc'
  simp only [Computer.user] at hu
  split_ifs at hu
  split at hu
  next t ht =>
    split_ifs at hu with haddr
    obtain ⟨m, hm, hmk⟩ := Option.map_eq_some_iff.mp hu
    cases hmk
    cases hstep with
    | @user _ p p' hp hp' =>
      cases Process.step_eq_some_iff.mp hp' with
      | @fault _ s' _ htrapped =>
        rw [h.current] at hp
        obtain ⟨hwf, hregs⟩ := h.registers hp
        have hwfc : c.machine.WellFormed := hwf.of_registers hregs.symm
        have hpresence : Presence (paging P c.current) (present c.current) := presence_paging
        obtain ⟨hmissed, hstays, horigin⟩ :=
          fault_of_oneInstruction hpresence hwfc h.memory.inv ht
        rw [haddr] at hmissed horigin
        refine ⟨p, ⟨s', false⟩, _, hp, hr, rfl, ?_, hwf, htrapped, hmissed, fun b hb => ?_, ?_⟩
        · rw [← h.current]
          exact update_self ..
        · exact present_pageFaultHandler hm (hb.imp_right (hstays b))
        · rw [hregs]
          rcases horigin with haddr | ⟨hpc, raw, u, hread, hdata⟩
          · exact .inl haddr
          refine .inr ⟨hpc, ?_⟩
          have hmatch : Matches (paging P c.current) _ p.machine _
              (c.machine.readMem (paging P c.current) (c.machine.registers PCReg) .word)
              (p.machine.readMem Private.unit (c.machine.registers PCReg) .word) :=
            lockstep_paging.readMem (h.related hp) hwf
          have hread : c.machine.readMem (paging P c.current) (c.machine.registers PCReg) .word =
            .ok (raw, u) := hread
          rw [hread] at hmatch
          unfold Process.dataAddress
          rw [hregs]
          generalize p.machine.readMem Private.unit (c.machine.registers PCReg) .word = y
            at hmatch ⊢
          cases hmatch with
          | @ok _ r hr =>
            rw [← hdata, show raw = r.1 from hr.1]
            rfl
  next => cases hu

def faults (fs : List (BitVec 32)) : List Action := fs.map fun a => .user (.fault a)

theorem length_faults_le {fs : List (BitVec 32)} (h : Computer.Runs Paged c Q)
    (hr : Run (Computer.system (virtual P) Initial) c (faults fs) c') : fs.length ≤ 2 := by
  rcases fs with _ | ⟨a₀, _ | ⟨a₁, _ | ⟨a₂, fs⟩⟩⟩
  · exact Nat.zero_le 2
  · exact Nat.le_succ 1
  · exact Nat.le_refl 2
  · obtain _ | ⟨h₀, _ | ⟨h₁, _ | ⟨h₂, -⟩⟩⟩ := hr
    obtain ⟨p₀, p₁, Q₁, -, hr₁, hcur₁, hp₁, hf₀⟩ := faulted_of_step h h₀
    obtain ⟨q₁, p₂, Q₂, hq₁, hr₂, hcur₂, hp₂, hf₁⟩ := faulted_of_step hr₁ h₁
    obtain ⟨q₂, p₃, Q₃, hq₂, -, -, -, hf₂⟩ := faulted_of_step hr₂ h₂
    rw [hcur₂, hcur₁] at hq₂ hf₂
    rw [hcur₁] at hq₁ hp₂ hf₁
    obtain rfl := Option.some.inj (hp₁.symm.trans hq₁)
    obtain rfl := Option.some.inj (hp₂.symm.trans hq₂)
    exact (hf₀.third hf₁ hf₂).elim

theorem exists_fault_step {th : Thread} {s : Machine (State σ)} (h : Computer.Runs Paged c Q)
    (hth : c.threads c.current = some th) (hcalling : th.calling = false)
    (hs : c.machine.oneInstruction (paging P c.current) = .error (.exception .pageFault s)) :
    ∃ c' th', c.step (virtual P) (.user (.fault (s.registers BadVAddrReg))) = some c' ∧
      c'.current = c.current ∧ c'.threads c.current = some th' ∧ th'.calling = false := by
  obtain ⟨p, hp, -, hwf, -⟩ := h.exists_process hth
  have hmatch := (lockstep_paging (P := P)).oneInstruction (h.related hp) hwf
  rw [hs] at hmatch
  generalize p.machine.oneInstruction Private.unit = y at hmatch
  cases hmatch with
  | exception hne => exact absurd rfl hne
  | fault hfault =>
    obtain ⟨size, writing, m, hm, htrans⟩ := hfault
    obtain ⟨hacc, -, hmem⟩ := translate_pageFault (translate_of_paging htrans)
    obtain ⟨q, u, hu⟩ := hm.inv.toInv.exists_swap (P := P) (fun _ hp => hp) hacc.live
    rw [← hmem] at hu
    obtain ⟨v, hv⟩ : ∃ v, s.memory.pageFaultHandler P c.current
        (s.registers BadVAddrReg).toNat = some v := ⟨_, pageFaultHandler_of_swap hu⟩
    refine ⟨⟨⟨s.registers, v⟩, c.current, update c.threads c.current (some ⟨th.context, false⟩)⟩,
      ⟨th.context, false⟩, ?_, rfl, update_self .., rfl⟩
    simp [Computer.step, hth, Computer.user, hcalling, virtual, hs, hv]

theorem faults_or_none {th : Thread} (n : ℕ) (h : Computer.Runs Paged c Q)
    (hth : c.threads c.current = some th) (hcalling : th.calling = false) :
    (∃ fs c', fs.length = n ∧ Run (Computer.system (virtual P) Initial) c (faults fs) c') ∨
      ∃ fs c', Run (Computer.system (virtual P) Initial) c (faults fs) c' ∧
        c'.current = c.current ∧
        ∀ s, c'.machine.oneInstruction (paging P c.current) ≠ .error (.exception .pageFault s) := by
  induction n generalizing c Q th with
  | zero => exact .inl ⟨[], c, rfl, .nil c⟩
  | succ n ih =>
    by_cases hfault : ∃ s,
        c.machine.oneInstruction (paging P c.current) = .error (.exception .pageFault s)
    · obtain ⟨s, hs⟩ := hfault
      obtain ⟨c₁, th₁, hstep, hcur, hth₁, hcalling₁⟩ := exists_fault_step h hth hcalling hs
      obtain ⟨-, -, Q₁, -, hr₁, -⟩ := faulted_of_step h hstep
      rw [← hcur] at hth₁
      rcases ih hr₁ hth₁ hcalling₁ with ⟨fs, c', hlen, hrun⟩ | ⟨fs, c', hrun, hcur', hnone⟩
      · exact .inl ⟨_ :: fs, c', congrArg (· + 1) hlen, .cons hstep hrun⟩
      · rw [hcur] at hcur' hnone
        exact .inr ⟨_ :: fs, c', .cons hstep hrun, hcur', hnone⟩
    · exact .inr ⟨[], c, .nil c, rfl, fun s hs => hfault ⟨s, hs⟩⟩

/-- In every state that a run reaches in which the kernel keeps to the conditions, the next
instruction of the current process raises at most two page faults in a row, all of which are
served; after them it raises none. -/
theorem at_most_two_page_faults {P : Replacement σ} {c₀ c : Computer (State σ)} {as : List Action}
    {th : Thread} (h₀ : (pagedSystem P).Init c₀) (h : Run (pagedSystem P) c₀ as c)
    (hth : c.threads c.current = some th) (hcalling : th.calling = false) :
    (∀ fs c', Run (Computer.system (virtual P) Initial) c (faults fs) c' → fs.length ≤ 2) ∧
      ∃ fs c', Run (Computer.system (virtual P) Initial) c (faults fs) c' ∧
        c'.current = c.current ∧
        ∀ s, c'.machine.oneInstruction (paging P c.current) ≠ .error (.exception .pageFault s) := by
  obtain ⟨Q₀, -, hr₀⟩ := (Computer.simulates (represents_virtual (P := P))).init c₀ h₀
  obtain ⟨Q, -, hr⟩ := (Computer.simulates represents_virtual).run h hr₀
  refine ⟨fun fs c' hrun => length_faults_le hr hrun, ?_⟩
  rcases faults_or_none (P := P) 3 hr hth hcalling with ⟨fs, c', hlen, hrun⟩ | hnone
  · exact absurd (length_faults_le hr hrun) (by omega)
  · exact hnone

def crossing : NoffFile where
  noffMagic := NOFFMAGIC
  code := ⟨0, 0, 4⟩
  initData := ⟨0, 0, 0⟩
  uninitData := ⟨0, 0, 0⟩
  content i := [0, 1, 1, 0x8c].getD i 0

/-- Two page faults, for the instruction and for its data. -/
theorem at_most_two_page_faults_crossing : ∃ c c',
    Run (pagedSystem fifo) atStart [.exec 1 crossing, .switch 1] c ∧
    Run (Computer.system (virtual fifo) Initial) c (faults [0#32, 256#32]) c' ∧
    ∀ fs c'', Run (Computer.system (virtual fifo) Initial) c (faults fs) c'' → fs.length ≤ 2 := by
  have hrun : (exec (guarded pagingGuards.Allow (Computer.step (virtual fifo))) atStart
      [.exec 1 crossing, .switch 1]).any (fun c =>
        (c.threads c.current).any (fun th => !th.calling) &&
        (exec (Computer.step (virtual fifo)) c (faults [0#32, 256#32])).any fun _ => true) =
      true := by
    decide +kernel
  obtain ⟨c, hc, htrue⟩ := pagedSystem_of_any_exec hrun
  obtain ⟨hth, hfaults⟩ := Bool.and_eq_true_iff.mp htrue
  obtain ⟨th, hth, hcalling⟩ := (Option.any_eq_true _ _).mp hth
  obtain ⟨c', hc', -⟩ := run_of_any_exec (I := fun c => Initial c.machine.memory ∧
    ∀ id, c.threads id = none) hfaults
  exact ⟨c, c', hc, hc',
    (at_most_two_page_faults init_atStart hc hth (by simpa using hcalling)).1⟩

end Nachos.Machine
