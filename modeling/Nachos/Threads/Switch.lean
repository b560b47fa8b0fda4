import Nachos.Library.I386

/-! # `SWITCH`

The code for the 80386 saves the registers of one thread in its object and loads
those of another one, whose own call of `SWITCH` then returns. The register that
points to the objects goes through a word of static storage.
-/

namespace Nachos.Threads.Switch

open Function I386 Reg

/-! ## The code -/

/-- `_ESP` to `_EDI`, the places of the registers in a thread object. -/
def offset : Reg → ℤ
  | esp => 0
  | eax => 4
  | ebx => 8
  | ecx => 12
  | edx => 16
  | ebp => 20
  | esi => 24
  | edi => 28

def pcOffset : ℤ := 32

/-- The first half of `SWITCH`, up to the pointer to the other thread. -/
def saveCode (eaxSave : ℤ) : List Instr :=
  [ .movl (.reg eax) (.static eaxSave),
    .movl (.mem 4 esp) (.reg eax),
    .movl (.reg ebx) (.mem (offset ebx) eax),
    .movl (.reg ecx) (.mem (offset ecx) eax),
    .movl (.reg edx) (.mem (offset edx) eax),
    .movl (.reg esi) (.mem (offset esi) eax),
    .movl (.reg edi) (.mem (offset edi) eax),
    .movl (.reg ebp) (.mem (offset ebp) eax),
    .movl (.reg esp) (.mem (offset esp) eax),
    .movl (.static eaxSave) (.reg ebx),
    .movl (.reg ebx) (.mem (offset eax) eax),
    .movl (.mem 0 esp) (.reg ebx),
    .movl (.reg ebx) (.mem pcOffset eax),
    .movl (.mem 8 esp) (.reg eax) ]

/-- The second half of `SWITCH`. -/
def restoreCode (eaxSave : ℤ) : List Instr :=
  [ .movl (.mem (offset eax) eax) (.reg ebx),
    .movl (.reg ebx) (.static eaxSave),
    .movl (.mem (offset ebx) eax) (.reg ebx),
    .movl (.mem (offset ecx) eax) (.reg ecx),
    .movl (.mem (offset edx) eax) (.reg edx),
    .movl (.mem (offset esi) eax) (.reg esi),
    .movl (.mem (offset edi) eax) (.reg edi),
    .movl (.mem (offset ebp) eax) (.reg ebp),
    .movl (.mem (offset esp) eax) (.reg esp),
    .movl (.mem pcOffset eax) (.reg eax),
    .movl (.reg eax) (.mem 4 esp),
    .movl (.static eaxSave) (.reg eax),
    .ret ]

/-- `SWITCH`, with the word `_eax_save`. -/
def switchCode (eaxSave : ℤ) : List Instr := saveCode eaxSave ++ restoreCode eaxSave

/-- `ThreadRoot`, up to the return of `ThreadFinish`, which does not return. The instructions behind
the calls are at `next₁`, `next₂` and `next₃`. -/
def threadRootCode (next₁ next₂ next₃ : ℤ) : List Instr :=
  [ .pushl (.reg ebp),
    .movl (.reg esp) (.reg ebp),
    .pushl (.reg edx),
    .call ecx next₁,
    .call esi next₂,
    .call edi next₃ ]

/-! ## The two halves of `SWITCH` -/

theorem offset_injective : Injective offset := by
  intro r r' h
  cases r <;> cases r' <;> first | rfl | cases h

/-- An address in the part of a thread object that `SWITCH` uses. -/
def InObject (object a : ℤ) : Prop := object ≤ a ∧ a < object + 36

theorem inObject_offset (object : ℤ) (r : Reg) : InObject object (object + offset r) := by
  unfold InObject
  cases r <;> simp only [offset] <;> omega

theorem inObject_self (object : ℤ) : InObject object object := by
  unfold InObject
  omega

theorem inObject_pcOffset (object : ℤ) : InObject object (object + pcOffset) := by
  unfold InObject pcOffset
  omega

variable {s : Cpu} {e o a : ℤ}

theorem offset_ne_pcOffset (r : Reg) : o + offset r ≠ o + pcOffset := by
  cases r <;> simp only [offset, pcOffset] <;> omega

def moved : List Reg := [ebx, ecx, edx, esi, edi, ebp, esp]

theorem mem_moved {r : Reg} : r ∈ moved ↔ r ≠ eax := by
  cases r <;> decide

/-- What follows the registers in `saveCode`: `eax`, the return address, and the pointer to the
other thread. -/
def saveEnd (e : ℤ) : List Instr :=
  [ .movl (.static e) (.reg ebx),
    .movl (.reg ebx) (.mem (offset eax) eax),
    .movl (.mem 0 esp) (.reg ebx),
    .movl (.reg ebx) (.mem pcOffset eax),
    .movl (.mem 8 esp) (.reg eax) ]

def restoreEnd (e : ℤ) : List Instr :=
  [ .movl (.mem pcOffset eax) (.reg eax),
    .movl (.reg eax) (.mem 4 esp),
    .movl (.static e) (.reg eax),
    .ret ]

theorem saveCode_eq (e : ℤ) : saveCode e =
    [.movl (.reg eax) (.static e), .movl (.mem 4 esp) (.reg eax)] ++
      (storeRegs eax offset moved ++ saveEnd e) :=
  rfl

theorem restoreCode_eq (e : ℤ) : restoreCode e =
    [.movl (.mem (offset eax) eax) (.reg ebx), .movl (.reg ebx) (.static e)] ++
      (loadRegs eax offset moved ++ restoreEnd e) :=
  rfl

theorem InObject.ne {a' : ℤ} (h : InObject o a') (ha : ¬ InObject o a) : a ≠ a' := by
  rintro rfl
  exact ha h

theorem run_saveEnd (heax : s.reg eax = o) (h₀ : ¬ InObject o (s.reg esp))
    (h₈ : ¬ InObject o (s.reg esp + 8)) : s.run (saveEnd e) =
    ⟨update (update s.reg ebx (s.mem (s.reg esp))) eax (s.mem (s.reg esp + 8)),
      update (update s.mem (o + offset eax) (s.mem e)) (o + pcOffset) (s.mem (s.reg esp)),
      s.pc⟩ := by
  have hin := inObject_offset o eax
  have hpc := inObject_pcOffset o
  simp [saveEnd, Cpu.run, Cpu.exec, Cpu.read, Cpu.write, heax, hin.ne h₀, hin.ne h₈, hpc.ne h₈]

theorem run_saveRest (heax : s.reg eax = o) (h₀ : ¬ InObject o (s.reg esp))
    (h₈ : ¬ InObject o (s.reg esp + 8)) (he : ¬ InObject o e) {s' : Cpu}
    (hs' : s' = s.run (storeRegs eax offset moved ++ saveEnd e)) :
    s'.reg eax = s.mem (s.reg esp + 8) ∧ (∀ r ≠ eax, s'.mem (o + offset r) = s.reg r) ∧
      s'.mem (o + offset eax) = s.mem e ∧ s'.mem (o + pcOffset) = s.mem (s.reg esp) ∧
      ∀ a, ¬ InObject o a → s'.mem a = s.mem a := by
  have hreg : (s.run (storeRegs eax offset moved)).reg = s.reg := reg_run_storeRegs
  have hstored : ∀ r ≠ eax, (s.run (storeRegs eax offset moved)).mem (o + offset r) = s.reg r := by
    intro r hr
    rw [← heax]
    exact mem_run_storeRegs offset_injective (mem_moved.mpr hr)
  have hother : ∀ a, ¬ InObject o a → (s.run (storeRegs eax offset moved)).mem a = s.mem a := by
    intro a ha
    refine mem_run_storeRegs_of_ne fun r _ => ?_
    rw [heax]
    exact (inObject_offset o r).ne ha
  rw [Cpu.run_append] at hs'
  generalize s.run (storeRegs eax offset moved) = s₁ at hs' hreg hstored hother
  rw [run_saveEnd (by rw [hreg, heax]) (by rwa [hreg]) (by rwa [hreg])] at hs'
  subst hs'
  dsimp only
  refine ⟨?_, fun r hr => ?_, ?_, ?_, fun a ha => ?_⟩
  · rw [update_self, hreg, hother _ h₈]
  · have hne : o + offset r ≠ o + offset eax :=
      fun h => hr (offset_injective (Int.add_left_cancel h))
    rw [update_of_ne (offset_ne_pcOffset r), update_of_ne hne, hstored r hr]
  · rw [update_of_ne (offset_ne_pcOffset eax), update_self, hother _ he]
  · rw [update_self, hreg, hother _ h₀]
  · rw [update_of_ne ((inObject_pcOffset o).ne ha), update_of_ne ((inObject_offset o eax).ne ha),
      hother a ha]

/-- The registers and the return address are in the object; the other words stay. -/
theorem run_saveCode (hobject : s.mem (s.reg esp + 4) = o) (he : ¬ InObject o e)
    (hstack : ∀ k, k = 0 ∨ k = 4 ∨ k = 8 → ¬ InObject o (s.reg esp + k) ∧ s.reg esp + k ≠ e) :
    (s.run (saveCode e)).reg eax = s.mem (s.reg esp + 8) ∧
      (∀ r, (s.run (saveCode e)).mem (o + offset r) = s.reg r) ∧
      (s.run (saveCode e)).mem (o + pcOffset) = s.mem (s.reg esp) ∧
      ∀ a, ¬ InObject o a → a ≠ e → (s.run (saveCode e)).mem a = s.mem a := by
  obtain ⟨h₀, h₀'⟩ := hstack 0 (.inl rfl)
  obtain ⟨h₈, h₈'⟩ := hstack 8 (.inr (.inr rfl))
  rw [Int.add_zero] at h₀ h₀'
  -- `_eax_save` and the pointer to the object
  obtain ⟨s₁, hs₁, hreg₁, heax₁, hsave₁, hmem₁⟩ : ∃ s₁ : Cpu,
      s.run [.movl (.reg eax) (.static e), .movl (.mem 4 esp) (.reg eax)] = s₁ ∧
      (∀ r ≠ eax, s₁.reg r = s.reg r) ∧ s₁.reg eax = o ∧ s₁.mem e = s.reg eax ∧
      ∀ a ≠ e, s₁.mem a = s.mem a := by
    refine ⟨_, rfl, fun r hr => update_of_ne hr .., ?_, update_self .., fun a ha =>
      update_of_ne ha ..⟩
    simp [Cpu.run, Cpu.exec, Cpu.read, Cpu.write, (hstack 4 (by simp)).2, hobject]
  have hesp : s₁.reg esp = s.reg esp := hreg₁ esp (by decide)
  obtain ⟨heax, hstored, hsave, hpc, hother⟩ :=
    run_saveRest heax₁ (by rwa [hesp]) (by rwa [hesp]) he rfl
  rw [saveCode_eq, Cpu.run_append, hs₁]
  rw [hesp] at heax hpc
  refine ⟨heax.trans (hmem₁ _ h₈'), fun r => ?_, hpc.trans (hmem₁ _ h₀'), fun a ha hne => ?_⟩
  · by_cases hr : r = eax
    · subst hr
      exact hsave.trans hsave₁
    · exact (hstored r hr).trans (hreg₁ r hr)
  · exact (hother a ha).trans (hmem₁ a hne)

theorem run_restoreEnd (heax : s.reg eax = o) (h₄ : s.reg esp + 4 ≠ e) :
    s.run (restoreEnd e) =
    ⟨update (update s.reg eax (s.mem e)) esp (s.reg esp + 4),
      update s.mem (s.reg esp + 4) (s.mem (o + pcOffset)), s.mem (s.reg esp)⟩ := by
  have hne : s.reg esp ≠ s.reg esp + 4 := by omega
  simp [restoreEnd, Cpu.run, Cpu.exec, Cpu.read, Cpu.write, heax, h₄.symm, hne]

theorem run_restoreRest (heax : s.reg eax = o) (h₄ : s.mem o + 4 ≠ e) {s' : Cpu}
    (hs' : s' = s.run (loadRegs eax offset moved ++ restoreEnd e)) :
    (∀ r, r ≠ eax → r ≠ esp → s'.reg r = s.mem (o + offset r)) ∧ s'.reg eax = s.mem e ∧
      s'.reg esp = s.mem o + 4 ∧ s'.pc = s.mem (s.mem o) ∧
      ∀ a, a ≠ s.mem o + 4 → s'.mem a = s.mem a := by
  have hloaded : ∀ r ≠ eax, (s.run (loadRegs eax offset moved)).reg r = s.mem (o + offset r) := by
    intro r hr
    rw [← heax]
    exact reg_run_loadRegs (by decide) (mem_moved.mpr hr)
  have hbase : (s.run (loadRegs eax offset moved)).reg eax = s.reg eax :=
    reg_run_loadRegs_of_notMem (by decide)
  have hmem : (s.run (loadRegs eax offset moved)).mem = s.mem := mem_run_loadRegs
  rw [Cpu.run_append] at hs'
  generalize s.run (loadRegs eax offset moved) = s₁ at hs' hloaded hbase hmem
  have hesp : s₁.reg esp = s.mem o := by
    rw [hloaded esp (by decide)]
    exact congrArg s.mem (Int.add_zero o)
  rw [run_restoreEnd (hbase.trans heax) (by rwa [hesp]), hesp, hmem] at hs'
  subst hs'
  dsimp only
  refine ⟨fun r hr hr' => ?_, ?_, update_self .., rfl, fun a ha => update_of_ne ha ..⟩
  · rw [update_of_ne hr', update_of_ne hr, hloaded r hr]
  · rw [update_of_ne (by decide), update_self]

/-- The registers are those of the object, and the call that saved them returns. The word above
the return address is written. -/
theorem run_restoreCode (heax : s.reg eax = o) (he : ¬ InObject o e) (h₀ : s.mem o ≠ e)
    (h₄ : s.mem o + 4 ≠ e) :
    (∀ r ≠ esp, (s.run (restoreCode e)).reg r = s.mem (o + offset r)) ∧
      (s.run (restoreCode e)).reg esp = s.mem o + 4 ∧
      (s.run (restoreCode e)).pc = s.mem (s.mem o) ∧
      ∀ a, a ≠ e → a ≠ s.mem o + 4 → (s.run (restoreCode e)).mem a = s.mem a := by
  -- the new value of `eax`
  obtain ⟨s₁, hs₁, heax₁, hsave₁, hmem₁⟩ : ∃ s₁ : Cpu,
      s.run [.movl (.mem (offset eax) eax) (.reg ebx), .movl (.reg ebx) (.static e)] = s₁ ∧
      s₁.reg eax = o ∧ s₁.mem e = s.mem (o + offset eax) ∧ ∀ a ≠ e, s₁.mem a = s.mem a := by
    refine ⟨_, rfl, ?_, ?_, fun a ha => update_of_ne ha ..⟩
    · simp [Cpu.run, Cpu.exec, Cpu.read, Cpu.write, heax]
    · simp [Cpu.run, Cpu.exec, Cpu.read, Cpu.write, heax]
  have hin : ∀ a, InObject o a → s₁.mem a = s.mem a := fun a ha => hmem₁ a (ha.ne he).symm
  have hesp := hin o (inObject_self o)
  obtain ⟨hloaded, hsave, hsp, hpc, hother⟩ := run_restoreRest heax₁ (by rwa [hesp]) rfl
  rw [hesp] at hsp hpc hother
  rw [restoreCode_eq, Cpu.run_append, hs₁]
  refine ⟨fun r hr => ?_, hsp, hpc.trans (hmem₁ _ h₀), fun a ha ha' => ?_⟩
  · by_cases hr' : r = eax
    · subst hr'
      exact hsave.trans hsave₁
    · exact (hloaded r hr' hr).trans (hin _ (inObject_offset o r))
  · exact (hother a ha').trans (hmem₁ a ha)

/-! ## The first calls of a thread -/

/-- `StartupPC` is called, then `InitialPC` with the argument, then `WhenDonePC`. -/
theorem calls_threadRootCode {body : Cpu → Cpu} (next₁ next₂ next₃ : ℤ)
    (h₁ : ∀ entry, entry.pc = s.reg ecx → Cpu.Returns 0 (s.reg esp) entry (body entry))
    (h₂ : ∀ entry, entry.pc = s.reg esi → Cpu.Returns 1 (s.reg esp) entry (body entry)) :
    ∃ e₁ e₂ e₃, s.calls body (threadRootCode next₁ next₂ next₃) = [e₁, e₂, e₃] ∧
      e₁.pc = s.reg ecx ∧ e₂.pc = s.reg esi ∧ e₂.mem (e₂.reg esp + 4) = s.reg edx ∧
      e₃.pc = s.reg edi := by
  -- the argument is on the stack
  obtain ⟨s₁, hs₁, hesp, hreg, harg⟩ : ∃ s₁ : Cpu,
      s.calls body (threadRootCode next₁ next₂ next₃) =
        s₁.calls body [.call ecx next₁, .call esi next₂, .call edi next₃] ∧
      s₁.reg esp = s.reg esp - 8 ∧ (∀ r, r ≠ esp → r ≠ ebp → s₁.reg r = s.reg r) ∧
      s₁.mem (s.reg esp - 8) = s.reg edx := by
    refine ⟨_, rfl, ?_, fun r hr hr' => ?_, ?_⟩
    · simp [Cpu.exec, Cpu.push, Cpu.read, Cpu.write]
      omega
    · simp [Cpu.exec, Cpu.push, Cpu.read, Cpu.write, hr, hr']
    · have heq : s.reg esp - 8 = s.reg esp - 4 - 4 := by omega
      simp [Cpu.exec, Cpu.push, Cpu.read, Cpu.write, heq]
  refine ⟨s₁.enter (s₁.reg ecx) next₁, _, _, hs₁, hreg ecx (by decide) (by decide), ?_⟩
  -- the first procedure keeps the argument and the other addresses
  have hr₁ := h₁ (s₁.enter (s₁.reg ecx) next₁) (hreg ecx (by decide) (by decide))
  generalize body (s₁.enter (s₁.reg ecx) next₁) = r₁ at hr₁
  have hesp₁ : r₁.reg esp = s.reg esp - 8 := by
    rw [hr₁.esp, Cpu.reg_enter_esp, hesp]
    omega
  have hesi : r₁.reg esi = s.reg esi := by
    rw [hr₁.saved esi (by decide), Cpu.reg_enter_of_ne (by decide),
      hreg esi (by decide) (by decide)]
  have hmem₁ : r₁.mem (s.reg esp - 8) = s.reg edx := by
    rw [hr₁.frame _ (by rw [Cpu.reg_enter_esp, hesp]; omega) (by omega),
      Cpu.mem_enter_of_ne (by rw [hesp]; omega), harg]
  refine ⟨hesi, ?_, ?_⟩
  · rw [Cpu.reg_enter_esp, hesp₁, Cpu.mem_enter_of_ne (by rw [hesp₁]; omega), ← hmem₁]
    congr 1
    omega
  · have hr₂ := h₂ (r₁.enter (r₁.reg esi) next₂) hesi
    refine (hr₂.saved edi (by decide)).trans ?_
    rw [Cpu.reg_enter_of_ne (by decide), hr₁.saved edi (by decide),
      Cpu.reg_enter_of_ne (by decide), hreg edi (by decide) (by decide)]

end Nachos.Threads.Switch
