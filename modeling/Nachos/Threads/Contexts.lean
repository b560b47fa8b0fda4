import Mathlib.Data.Set.Defs
import Nachos.Library.Transition
import Nachos.Threads.Switch

/-! # Contexts

There is one processor, but each thread sees its own: whatever the others do
between its call of `SWITCH` and the return from it, the thread goes on with the
registers that it had. A new thread is set up so that it returns to the start of
`ThreadRoot`.
-/

namespace Nachos.Threads.Switch

open Function Transition I386 Reg

/-! ## Threads in memory -/

/-- Where the threads and the routines are. -/
structure Layout (T : Type*) where
  object : T → ℤ
  /-- The words of the stack of a thread. -/
  stack : T → Set ℤ
  /-- `_eax_save`. -/
  eaxSave : ℤ
  threadRoot : ℤ
  interruptEnable : ℤ
  threadFinish : ℤ
  object_unique : ∀ {t u a}, InObject (object t) a → InObject (object u) a → t = u
  stack_unique : ∀ {t u a}, a ∈ stack t → a ∈ stack u → t = u
  stack_object : ∀ {t u a}, a ∈ stack t → ¬ InObject (object u) a
  eaxSave_object : ∀ t, ¬ InObject (object t) eaxSave
  eaxSave_stack : ∀ t, eaxSave ∉ stack t

/-- What a processor holds apart from the memory. -/
structure Context where
  reg : Reg → ℤ
  pc : ℤ

def context (s : Cpu) : Context := ⟨s.reg, s.pc⟩

def Context.return_ (ret : ℤ) (c : Context) : Context :=
  ⟨update c.reg esp (c.reg esp + 4), ret⟩

def StackSize : ℤ := 4 * 1024

def fencepost : ℤ := 0xdeadbeef

namespace Layout

variable {T : Type*} (L : Layout T)

/-- The context that `SWITCH` loads from a thread object. -/
def contextAt (mem : ℤ → ℤ) (t : T) : Context where
  reg r := if r = esp then mem (L.object t) + 4 else mem (L.object t + offset r)
  pc := mem (mem (L.object t))

def stackAllocate (u : T) (stack func arg : ℤ) (mem : ℤ → ℤ) : ℤ → ℤ :=
  let stackTop := stack + 4 * (StackSize - 4) - 4
  let mem := update mem stackTop L.threadRoot
  let mem := update mem (L.object u + offset esp) stackTop
  let mem := update mem stack fencepost
  let mem := update mem (L.object u + pcOffset) L.threadRoot
  let mem := update mem (L.object u + offset ecx) L.interruptEnable
  let mem := update mem (L.object u + offset esi) func
  let mem := update mem (L.object u + offset edx) arg
  update mem (L.object u + offset edi) L.threadFinish

end Layout

/-- The processor, the thread that it runs, and the threads whose context is in their object. -/
structure State (T : Type*) where
  cpu : Cpu
  current : T
  saved : T → Bool

inductive Label (T : Type*)
  /-- The current thread runs, up to this context. -/
  | work (c : Context)
  /-- The current thread calls `SWITCH`, which is to return to `ret`; the processor is left with
  this context. -/
  | switch (u : T) (ret : ℤ) (c : Context)
  | fork (u : T) (func arg : ℤ) (c : Context)
  /-- A thread is deleted. -/
  | destroy (u : T)

section Contexts

variable {T : Type*} (L : Layout T)

/-- A call `SWITCH(currentThread, u)` has been made, on the stack of the thread. -/
structure Calls (s : State T) (u : T) : Prop where
  stack : ∀ k, k = 0 ∨ k = 4 ∨ k = 8 → s.cpu.reg esp + k ∈ L.stack s.current
  first : s.cpu.mem (s.cpu.reg esp + 4) = L.object s.current
  second : s.cpu.mem (s.cpu.reg esp + 8) = L.object u

def Untouched (t : T) (mem mem' : ℤ → ℤ) : Prop :=
  (∀ a, InObject (L.object t) a → mem' a = mem a) ∧
    mem' (mem (L.object t)) = mem (mem (L.object t))

def OnStack (mem : ℤ → ℤ) (t : T) : Prop :=
  mem (L.object t) ∈ L.stack t ∧ mem (L.object t) + 4 ∈ L.stack t

/-! ## The contexts of the threads -/

variable {L} {s : State T} {t u : T} {mem mem' : ℤ → ℤ} {a : ℤ}

theorem Layout.stack_ne_object (h : a ∈ L.stack t) (u : T) {a' : ℤ}
    (ha : InObject (L.object u) a') : a ≠ a' :=
  ha.ne (L.stack_object h)

theorem Layout.stack_ne_eaxSave (h : a ∈ L.stack t) : a ≠ L.eaxSave := by
  rintro rfl
  exact L.eaxSave_stack t h

theorem Layout.inObject_unique (hne : t ≠ u) (h : InObject (L.object t) a) :
    ¬ InObject (L.object u) a :=
  fun h' => hne (L.object_unique h h')

theorem Untouched.contextAt_eq (h : Untouched L t mem mem') :
    L.contextAt mem' t = L.contextAt mem t := by
  have hesp := h.1 _ (inObject_self _)
  unfold Layout.contextAt
  congr 1
  · funext r
    rw [hesp, h.1 _ (inObject_offset _ r)]
  · rw [hesp, h.2]

theorem Untouched.onStack (h : Untouched L t mem mem') (ho : OnStack L mem t) :
    OnStack L mem' t := by
  unfold OnStack
  rw [h.1 _ (inObject_self _)]
  exact ho

/-- The first half of `SWITCH`: the calling thread waits behind the call, as the others do. -/
theorem Calls.saved (hc : Calls L s u) {s₁ : Cpu}
    (hs₁ : s₁ = s.cpu.run (saveCode L.eaxSave)) :
    s₁.reg eax = L.object u ∧ OnStack L s₁.mem s.current ∧
      L.contextAt s₁.mem s.current =
        (context s.cpu).return_ (s.cpu.mem (s.cpu.reg esp)) ∧
      ∀ t ≠ s.current, OnStack L s.cpu.mem t → Untouched L t s.cpu.mem s₁.mem := by
  subst hs₁
  have h₀ : s.cpu.reg esp ∈ L.stack s.current := by simpa using hc.stack 0 (.inl rfl)
  obtain ⟨heax, hstored, -, hother⟩ := run_saveCode hc.first (L.eaxSave_object s.current)
    fun k hk => ⟨L.stack_object (hc.stack k hk), L.stack_ne_eaxSave (hc.stack k hk)⟩
  have hesp : (s.cpu.run (saveCode L.eaxSave)).mem (L.object s.current) = s.cpu.reg esp := by
    simpa [offset] using hstored esp
  refine ⟨heax.trans hc.second, ?_, ?_, fun t ht ho => ⟨fun a ha => ?_, ?_⟩⟩
  · unfold OnStack
    rw [hesp]
    exact ⟨h₀, hc.stack 4 (.inr (.inl rfl))⟩
  · unfold Layout.contextAt Context.return_ context
    congr 1
    · funext r
      by_cases hr : r = esp
      · subst hr
        rw [if_pos rfl, update_self, hesp]
      · rw [if_neg hr, update_of_ne hr, hstored r]
    · rw [hesp, hother _ (L.stack_object h₀) (L.stack_ne_eaxSave h₀)]
  · exact hother a (L.inObject_unique ht ha) (ha.ne (L.eaxSave_object t)).symm
  · exact hother _ (L.stack_object ho.1) (L.stack_ne_eaxSave ho.1)

/-- The second half: the processor has the context of the other thread, and the rest wait as
before. -/
theorem restored {s₁ : Cpu} (heax : s₁.reg eax = L.object u) (ho : OnStack L s₁.mem u) :
    context (s₁.run (restoreCode L.eaxSave)) = L.contextAt s₁.mem u ∧
      ∀ t ≠ u, OnStack L s₁.mem t →
        Untouched L t s₁.mem (s₁.run (restoreCode L.eaxSave)).mem := by
  obtain ⟨hreg, hesp, hpc, hother⟩ := run_restoreCode heax (L.eaxSave_object u)
    (L.stack_ne_eaxSave ho.1) (L.stack_ne_eaxSave ho.2)
  refine ⟨?_, fun t ht ho' => ⟨fun a ha => ?_, ?_⟩⟩
  · unfold context Layout.contextAt
    congr 1
    funext r
    by_cases hr : r = esp
    · subst hr
      rw [if_pos rfl, hesp]
    · rw [if_neg hr, hreg r hr]
  · exact hother a (ha.ne (L.eaxSave_object t)).symm (L.stack_ne_object ho.2 t ha).symm
  · refine hother _ (L.stack_ne_eaxSave ho'.1) fun heq => ht ?_
    exact L.stack_unique ho'.1 (heq ▸ ho.2)

theorem stackAllocate_of_ne {stack func arg : ℤ} (ha : ¬ InObject (L.object u) a)
    (hs : a ∉ L.stack u)
    (hstack : ∀ a, stack ≤ a → a < stack + 4 * StackSize → a ∈ L.stack u) :
    L.stackAllocate u stack func arg mem a = mem a := by
  have htop : a ≠ stack + 4 * (StackSize - 4) - 4 := by
    rintro rfl
    exact hs (hstack _ (by unfold StackSize; omega) (by unfold StackSize; omega))
  have hbase : a ≠ stack := by
    rintro rfl
    exact hs (hstack _ (Int.le_refl _) (by unfold StackSize; omega))
  have hobject : ∀ r, a ≠ L.object u + offset r := fun r => (inObject_offset _ r).ne ha
  have hpc : a ≠ L.object u + pcOffset := (inObject_pcOffset _).ne ha
  simp only [Layout.stackAllocate, update_of_ne (hobject _), update_of_ne hpc, update_of_ne hbase,
    update_of_ne htop]

theorem contextAt_stackAllocate {stack : ℤ} (func arg : ℤ) (mem : ℤ → ℤ)
    (hstack : ∀ a, stack ≤ a → a < stack + 4 * StackSize → a ∈ L.stack u) {c : Context}
    (hc : c = L.contextAt (L.stackAllocate u stack func arg mem) u) :
    OnStack L (L.stackAllocate u stack func arg mem) u ∧ c.pc = L.threadRoot ∧
      c.reg ecx = L.interruptEnable ∧ c.reg edx = arg ∧ c.reg esi = func ∧
      c.reg edi = L.threadFinish := by
  have htop : stack + 4 * (StackSize - 4) - 4 ∈ L.stack u :=
    hstack _ (by unfold StackSize; omega) (by unfold StackSize; omega)
  have hbase : stack ∈ L.stack u := hstack _ (Int.le_refl _) (by unfold StackSize; omega)
  have hne : ∀ r r', r ≠ r' → L.object u + offset r ≠ L.object u + offset r' :=
    fun r r' hr h => hr (offset_injective (Int.add_left_cancel h))
  have hoff : ∀ r, L.object u + offset r ≠ stack :=
    fun r => (L.stack_ne_object hbase u (inObject_offset _ r)).symm
  have hself : L.object u = L.object u + offset esp := (Int.add_zero _).symm
  have hesp : L.stackAllocate u stack func arg mem (L.object u) =
      stack + 4 * (StackSize - 4) - 4 := by
    rw [hself]
    simp only [Layout.stackAllocate, update_self, update_of_ne (hne esp _ _),
      update_of_ne (offset_ne_pcOffset esp), update_of_ne (hoff esp), ne_eq, reduceCtorEq,
      not_false_eq_true]
  have hvalue : ∀ r, r = ecx ∨ r = edx ∨ r = esi ∨ r = edi →
      c.reg r = L.stackAllocate u stack func arg mem (L.object u + offset r) := by
    intro r hr
    rw [hc]
    exact if_neg (by rintro rfl; simp at hr)
  refine ⟨?_, ?_, ?_, ?_, ?_, ?_⟩
  · unfold OnStack
    rw [hesp]
    exact ⟨htop, hstack _ (by unfold StackSize; omega) (by unfold StackSize; omega)⟩
  · have hobject : ∀ r, stack + 4 * (StackSize - 4) - 4 ≠ L.object u + offset r :=
      fun r => L.stack_ne_object htop u (inObject_offset _ r)
    have hobject' : stack + 4 * (StackSize - 4) - 4 ≠ L.object u + pcOffset :=
      L.stack_ne_object htop u (inObject_pcOffset _)
    have hlow : stack + 4 * (StackSize - 4) - 4 ≠ stack := by
      unfold StackSize
      omega
    rw [hc]
    change L.stackAllocate u stack func arg mem (L.stackAllocate u stack func arg mem _) = _
    rw [hesp]
    simp only [Layout.stackAllocate, update_self, update_of_ne (hobject _), update_of_ne hobject',
      update_of_ne hlow]
  all_goals
    rw [hvalue _ (by simp)]
    simp only [Layout.stackAllocate, update_self, update_of_ne (hne _ _ _), ne_eq, reduceCtorEq,
      not_false_eq_true]

end Contexts

/-! ## One processor and many -/

@[ext] structure Processors (T : Type*) where
  current : T
  running : Context
  waiting : T → Option Context

section View

variable {T : Type*} {L : Layout T} {s : State T} {t : T}

def view (L : Layout T) (s : State T) : Processors T where
  current := s.current
  running := context s.cpu
  waiting t := if s.saved t then some (L.contextAt s.cpu.mem t) else none

theorem view_waiting (h : s.saved t = true) :
    (view L s).waiting t = some (L.contextAt s.cpu.mem t) :=
  if_pos h

theorem view_waiting_none (h : s.saved t = false) : (view L s).waiting t = none :=
  if_neg (by simp [h])

theorem view_cpu {cpu : Cpu}
    (h : ∀ u, s.saved u = true → Untouched L u s.cpu.mem cpu.mem) :
    view L { s with cpu } = { view L s with running := context cpu } := by
  refine Processors.ext rfl rfl (funext fun t => ?_)
  cases ht : s.saved t with
  | true =>
    refine (view_waiting (s := { s with cpu }) ht).trans ?_
    dsimp only
    rw [(h t ht).contextAt_eq, view_waiting ht]
  | false => exact (view_waiting_none (s := { s with cpu }) ht).trans (view_waiting_none ht).symm

end View

section Systems

variable {T : Type*} [DecidableEq T] (L : Layout T)

inductive Step (s : State T) : Label T → State T → Prop
  | work {cpu : Cpu} : (∀ u, s.saved u = true → Untouched L u s.cpu.mem cpu.mem) →
    Step s (.work (context cpu)) { s with cpu }
  | switch {u : T} : Calls L s u → s.saved u = true ∨ u = s.current →
    Step s (.switch u (s.cpu.mem (s.cpu.reg esp)) (context (s.cpu.run (switchCode L.eaxSave))))
      ⟨s.cpu.run (switchCode L.eaxSave), u, update (update s.saved s.current true) u false⟩
  | fork {u : T} {stack func arg : ℤ} : s.saved u = false → u ≠ s.current →
    (∀ a, stack ≤ a → a < stack + 4 * StackSize → a ∈ L.stack u) →
    Step s (.fork u func arg (L.contextAt (L.stackAllocate u stack func arg s.cpu.mem) u))
      { s with
        cpu := { s.cpu with mem := L.stackAllocate u stack func arg s.cpu.mem }
        saved := update s.saved u true }
  | destroy {u : T} : Step s (.destroy u) { s with saved := update s.saved u false }

def system : System (State T) (Label T) where
  Init s := ∀ t, s.saved t = false
  Step := Step L

/-- The thread waits behind its call of `SWITCH`. -/
def Processors.wait (ret : ℤ) (p : Processors T) : T → Option Context :=
  update p.waiting p.current (some (p.running.return_ ret))

/-- What a thread does changes its own processor only. -/
inductive Processors.Step (p : Processors T) : Label T → Processors T → Prop
  | work {c : Context} : Step p (.work c) { p with running := c }
  | switch {u : T} {ret : ℤ} {c : Context} : p.wait ret u = some c →
    Step p (.switch u ret c) ⟨u, c, update (p.wait ret) u none⟩
  | fork {u : T} {func arg : ℤ} {c : Context} : p.waiting u = none → u ≠ p.current →
    c.pc = L.threadRoot → c.reg ecx = L.interruptEnable → c.reg edx = arg → c.reg esi = func →
    c.reg edi = L.threadFinish →
    Step p (.fork u func arg c) { p with waiting := update p.waiting u (some c) }
  | destroy {u : T} : Step p (.destroy u) { p with waiting := update p.waiting u none }

def Processors.system : System (Processors T) (Label T) where
  Init p := ∀ t, p.waiting t = none
  Step := Processors.Step L

variable {L} {s s' : State T} {t u : T} {mem : ℤ → ℤ} {a : ℤ}

structure Inv (L : Layout T) (s : State T) : Prop where
  current : s.saved s.current = false
  onStack : ∀ t, s.saved t = true → OnStack L s.cpu.mem t

theorem inv_of_init (h : (system L).Init s) : Inv L s := by
  refine ⟨h _, fun t ht => ?_⟩
  rw [h t] at ht
  cases ht

/-- Behind the first half of `SWITCH` all threads wait, the calling one for its return. -/
theorem Inv.waits (hi : Inv L s) (hc : Calls L s u) {s₁ : Cpu}
    (hs₁ : s₁ = s.cpu.run (saveCode L.eaxSave)) (ht : s.saved t = true ∨ t = s.current) :
    OnStack L s₁.mem t ∧
      (view L s).wait (s.cpu.mem (s.cpu.reg esp)) t = some (L.contextAt s₁.mem t) := by
  obtain ⟨-, hcurrent, hreturn, hsaved⟩ := hc.saved hs₁
  by_cases hne : t = s.current
  · subst hne
    exact ⟨hcurrent, (update_self ..).trans (congrArg some hreturn.symm)⟩
  · have hsv := ht.resolve_right hne
    have hun := hsaved t hne (hi.onStack t hsv)
    refine ⟨hun.onStack (hi.onStack t hsv), (update_of_ne hne ..).trans ?_⟩
    rw [view_waiting hsv, hun.contextAt_eq]

theorem Inv.switch (hi : Inv L s) (hc : Calls L s u) (hu : s.saved u = true ∨ u = s.current)
    (hs' : s' = ⟨s.cpu.run (switchCode L.eaxSave), u,
      update (update s.saved s.current true) u false⟩) :
    Inv L s' ∧ Processors.Step L (view L s)
      (.switch u (s.cpu.mem (s.cpu.reg esp)) (context s'.cpu)) (view L s') := by
  have heax := (hc.saved rfl).1
  have hwait := fun t ht => hi.waits (t := t) hc rfl ht
  rw [switchCode, Cpu.run_append] at hs'
  generalize s.cpu.run (saveCode L.eaxSave) = s₁ at hs' heax hwait
  obtain ⟨hctx, hother⟩ := restored heax (hwait u hu).1
  have hsv : s'.saved = update (update s.saved s.current true) u false := by rw [hs']
  have hcpu : s'.cpu = s₁.run (restoreCode L.eaxSave) := by rw [hs']
  have hcur : s'.current = u := by rw [hs']
  have hwaits : ∀ t, t ≠ u → s'.saved t = true → s.saved t = true ∨ t = s.current := by
    intro t hne ht
    by_cases hcur : t = s.current
    · exact .inr hcur
    · rw [hsv, update_of_ne hne, update_of_ne hcur] at ht
      exact .inl ht
  have hgone : s'.saved u = false := by rw [hsv, update_self]
  have hview : (view L s').waiting =
      update ((view L s).wait (s.cpu.mem (s.cpu.reg esp))) u none := by
    funext t
    by_cases hne : t = u
    · subst hne
      rw [view_waiting_none hgone, update_self]
    · rw [update_of_ne hne]
      cases ht : s'.saved t with
      | true =>
        obtain ⟨hon, hw⟩ := hwait t (hwaits t hne ht)
        rw [view_waiting ht, hw, hcpu, (hother t hne hon).contextAt_eq]
      | false =>
        rw [hsv, update_of_ne hne] at ht
        have hother : t ≠ s.current := by
          rintro rfl
          rw [update_self] at ht
          cases ht
        rw [update_of_ne hother] at ht
        have hwaiting : (view L s).wait (s.cpu.mem (s.cpu.reg esp)) t = (view L s).waiting t :=
          update_of_ne hother ..
        rw [hwaiting, view_waiting_none ht, view_waiting_none]
        rw [hsv, update_of_ne hne, update_of_ne hother, ht]
  refine ⟨⟨by rw [hcur, hgone], fun t ht => ?_⟩, ?_⟩
  · have hne : t ≠ u := by
      rintro rfl
      rw [hgone] at ht
      cases ht
    obtain ⟨hon, -⟩ := hwait t (hwaits t hne ht)
    rw [hcpu]
    exact (hother t hne hon).onStack hon
  · have heq : view L s' = ⟨u, context s'.cpu,
        update ((view L s).wait (s.cpu.mem (s.cpu.reg esp))) u none⟩ :=
      Processors.ext hcur rfl hview
    rw [heq]
    refine .switch ?_
    rw [(hwait u hu).2, hcpu, hctx]

theorem Inv.work (hi : Inv L s) {cpu : Cpu}
    (h : ∀ u, s.saved u = true → Untouched L u s.cpu.mem cpu.mem) :
    Inv L { s with cpu } ∧
      Processors.Step L (view L s) (.work (context cpu)) (view L { s with cpu }) := by
  refine ⟨⟨hi.current, fun t ht => (h t ht).onStack (hi.onStack t ht)⟩, ?_⟩
  rw [view_cpu h]
  exact .work

theorem view_update (b : Bool) : (view L { s with saved := update s.saved u b }).waiting =
    update (view L s).waiting u (if b then some (L.contextAt s.cpu.mem u) else none) := by
  funext t
  by_cases hne : t = u
  · subst hne
    simp [view]
  · simp [view, update_of_ne hne]

theorem Inv.destroy (hi : Inv L s) :
    Inv L { s with saved := update s.saved u false } ∧
      Processors.Step L (view L s) (.destroy u)
        (view L { s with saved := update s.saved u false }) := by
  have hsub : ∀ t, update s.saved u false t = true → s.saved t = true := by
    intro t ht
    by_cases hne : t = u
    · subst hne
      rw [update_self] at ht
      cases ht
    · rwa [update_of_ne hne] at ht
  refine ⟨⟨?_, fun t ht => hi.onStack t (hsub t ht)⟩, ?_⟩
  · exact Bool.eq_false_iff.mpr fun h => Bool.eq_false_iff.mp hi.current (hsub _ h)
  · have hview : view L { s with saved := update s.saved u false } =
        { view L s with waiting := update (view L s).waiting u none } :=
      Processors.ext rfl rfl (view_update false)
    rw [hview]
    exact .destroy

theorem Inv.fork (hi : Inv L s) {stack func arg : ℤ} (hs : s.saved u = false)
    (hu : u ≠ s.current)
    (hstack : ∀ a, stack ≤ a → a < stack + 4 * StackSize → a ∈ L.stack u) {s' : State T}
    (hs' : s' = { s with
      cpu := { s.cpu with mem := L.stackAllocate u stack func arg s.cpu.mem }
      saved := update s.saved u true }) :
    Inv L s' ∧ Processors.Step L (view L s)
      (.fork u func arg (L.contextAt (L.stackAllocate u stack func arg s.cpu.mem) u))
      (view L s') := by
  obtain ⟨hon, hpc, hecx, hedx, hesi, hedi⟩ :=
    contextAt_stackAllocate func arg s.cpu.mem hstack rfl
  have hkeep : ∀ t, s.saved t = true →
      Untouched L t s.cpu.mem (L.stackAllocate u stack func arg s.cpu.mem) := by
    intro t ht
    have hne : t ≠ u := by
      rintro rfl
      rw [hs] at ht
      cases ht
    have ho := (hi.onStack t ht).1
    refine ⟨fun a ha => ?_, ?_⟩
    · exact stackAllocate_of_ne (L.inObject_unique hne ha) (fun h => L.stack_object h ha) hstack
    · exact stackAllocate_of_ne (L.stack_object ho) (fun h => hne (L.stack_unique ho h)) hstack
  -- the memory of the new thread is written, then the thread waits
  let s₁ : State T :=
    { s with cpu := { s.cpu with mem := L.stackAllocate u stack func arg s.cpu.mem } }
  have hview : view L s' = { view L s with
      waiting := update (view L s).waiting u (some (L.contextAt s₁.cpu.mem u)) } := by
    have h₁ : view L s₁ = view L s := view_cpu hkeep
    rw [hs', ← h₁]
    exact Processors.ext rfl rfl (view_update (s := s₁) true)
  refine ⟨⟨?_, fun t ht => ?_⟩, ?_⟩
  · rw [hs']
    exact (update_of_ne hu.symm ..).trans hi.current
  · rw [hs'] at ht ⊢
    by_cases hne : t = u
    · subst hne
      exact hon
    · have hsv : s.saved t = true := (update_of_ne hne ..).symm.trans ht
      exact (hkeep t hsv).onStack (hi.onStack t hsv)
  · rw [hview]
    exact .fork (view_waiting_none hs) hu hpc hecx hedx hesi hedi

theorem simulates_processors :
    Simulates (system L) (Processors.system L) fun s p => Inv L s ∧ p = view L s where
  init := by
    intro s hinit
    exact ⟨view L s, fun t => view_waiting_none (hinit t), inv_of_init hinit, rfl⟩
  step := by
    rintro s p a s' ⟨hi, rfl⟩ hstep
    cases hstep with
    | work h => exact ⟨_, (hi.work h).2, (hi.work h).1, rfl⟩
    | switch hc hu => exact ⟨_, (hi.switch hc hu rfl).2, (hi.switch hc hu rfl).1, rfl⟩
    | fork hs hu hstack =>
      exact ⟨_, (hi.fork hs hu hstack rfl).2, (hi.fork hs hu hstack rfl).1, rfl⟩
    | destroy => exact ⟨_, hi.destroy.2, hi.destroy.1, rfl⟩

theorem Inv.step {a : Label T} (hi : Inv L s) (h : (system L).Step s a s') :
    Inv L s' ∧ Processors.Step L (view L s) a (view L s') := by
  obtain ⟨p, hstep, hi', rfl⟩ := simulates_processors.step s _ a s' ⟨hi, rfl⟩ h
  exact ⟨hi', hstep⟩

/-- A run of the one processor, from a state in which the contexts are in order. -/
theorem Inv.run {as : List (Label T)} (hi : Inv L s) (h : Run (system L) s as s') :
    Inv L s' ∧ Run (Processors.system L) (view L s) as (view L s') := by
  obtain ⟨p, hrun, hi', rfl⟩ := simulates_processors.run h ⟨hi, rfl⟩
  exact ⟨hi', hrun⟩

theorem inv_of_reachable (h : Reachable (system L) s) : Inv L s := by
  obtain ⟨s₀, as, h₀, hrun⟩ := h
  exact ((inv_of_init h₀).run hrun).1

/-- In every run each thread has a processor of its own: whatever the others do, a thread that is
switched to goes on with the context in which its call of `SWITCH` returns, or with the one that
`Fork` has set up. -/
theorem processors_of_run {s₀ s : State T} {as : List (Label T)} (h₀ : (system L).Init s₀)
    (h : Run (system L) s₀ as s) : Run (Processors.system L) (view L s₀) as (view L s) :=
  ((inv_of_init h₀).run h).2

/-! ## The start of a thread -/

/-- Steps in which a thread is started, deleted or switched to. -/
def Label.Concerns (u : T) : Label T → Prop
  | .work _ => False
  | .switch t _ _ | .fork t _ _ _ | .destroy t => t = u

theorem Processors.waits_of_run {p q : Processors T} {as : List (Label T)} {c : Context}
    (hrun : Run (Processors.system L) p as q) (has : ∀ a ∈ as, ¬ a.Concerns u)
    (hcur : p.current ≠ u) (hp : p.waiting u = some c) :
    q.current ≠ u ∧ q.waiting u = some c := by
  induction hrun with
  | nil => exact ⟨hcur, hp⟩
  | @cons p q r a as hstep hrun ih =>
    have hquiet := has a List.mem_cons_self
    refine ih (fun b hb => has b (List.mem_cons_of_mem _ hb)) ?_ ?_
    · cases hstep with
      | work => exact hcur
      | switch => exact hquiet
      | fork => exact hcur
      | destroy => exact hcur
    · cases hstep with
      | work => exact hp
      | switch =>
        refine (update_of_ne (Ne.symm hquiet) ..).trans ?_
        exact (update_of_ne hcur.symm ..).trans hp
      | fork => exact (update_of_ne (Ne.symm hquiet) ..).trans hp
      | destroy => exact (update_of_ne (Ne.symm hquiet) ..).trans hp

theorem Processors.step_fork {p q : Processors T} {func arg : ℤ} {c : Context}
    (h : Processors.Step L p (.fork u func arg c) q) :
    q.current ≠ u ∧ q.waiting u = some c ∧ c.pc = L.threadRoot ∧
      c.reg ecx = L.interruptEnable ∧ c.reg edx = arg ∧ c.reg esi = func ∧
      c.reg edi = L.threadFinish := by
  cases h with
  | fork hwaiting hcur hpc hecx hedx hesi hedi =>
    exact ⟨hcur.symm, update_self .., hpc, hecx, hedx, hesi, hedi⟩

theorem Processors.step_switch {p q : Processors T} {ret : ℤ} {c c' : Context}
    (h : Processors.Step L p (.switch u ret c') q) (hcur : p.current ≠ u)
    (hwaiting : p.waiting u = some c) : q.running = c := by
  cases h with
  | switch hwait =>
    have hsame : p.wait ret u = p.waiting u := update_of_ne hcur.symm ..
    rw [hsame, hwaiting] at hwait
    exact (Option.some.inj hwait).symm

/-- A new thread is switched to for the first time: it calls `InterruptEnable`, then its procedure
with its argument on the stack, then `ThreadFinish`, if the first two keep to the calling
convention. -/
theorem start_of_run {s₁ s₂ s₃ s₄ : State T} {func arg ret : ℤ} {c c' : Context}
    {as : List (Label T)} {body : Cpu → Cpu} (next₁ next₂ next₃ : ℤ)
    (h₁ : Reachable (system L) s₁) (hfork : (system L).Step s₁ (.fork u func arg c) s₂)
    (hrun : Run (system L) s₂ as s₃) (has : ∀ a ∈ as, ¬ a.Concerns u)
    (hswitch : (system L).Step s₃ (.switch u ret c') s₄)
    (henable : ∀ entry, entry.pc = L.interruptEnable →
      Cpu.Returns 0 (s₄.cpu.reg esp) entry (body entry))
    (hfunc : ∀ entry, entry.pc = func → Cpu.Returns 1 (s₄.cpu.reg esp) entry (body entry)) :
    s₄.cpu.pc = L.threadRoot ∧
      ∃ e₁ e₂ e₃, s₄.cpu.calls body (threadRootCode next₁ next₂ next₃) = [e₁, e₂, e₃] ∧
        e₁.pc = L.interruptEnable ∧ e₂.pc = func ∧ e₂.mem (e₂.reg esp + 4) = arg ∧
        e₃.pc = L.threadFinish := by
  obtain ⟨hi₂, hforked⟩ := (inv_of_reachable h₁).step hfork
  obtain ⟨hi₃, hwaits⟩ := hi₂.run hrun
  obtain ⟨-, hswitched⟩ := hi₃.step hswitch
  -- the context that `Fork` has set up is there at the switch
  obtain ⟨hcur, hwaiting, hpc, hecx, hedx, hesi, hedi⟩ := Processors.step_fork hforked
  obtain ⟨hcur', hwaiting'⟩ := Processors.waits_of_run hwaits has hcur hwaiting
  have hcontext : context s₄.cpu = c := Processors.step_switch hswitched hcur' hwaiting'
  subst hcontext
  refine ⟨hpc, ?_⟩
  obtain ⟨e₁, e₂, e₃, hcalls, he₁, he₂, harg, he₃⟩ := calls_threadRootCode next₁ next₂ next₃
    (fun entry he => henable entry (he.trans hecx)) fun entry he => hfunc entry (he.trans hesi)
  exact ⟨e₁, e₂, e₃, hcalls, he₁.trans hecx, he₂.trans hesi, harg.trans hedx, he₃.trans hedi⟩

end Systems

/-! ## Two threads -/

def twoThreads : Layout Bool where
  object t := cond t 100 0
  stack t := { a | cond t 10000 1000 ≤ a ∧ a < cond t 30000 2000 }
  eaxSave := 50
  threadRoot := 200
  interruptEnable := 300
  threadFinish := 400
  object_unique := by
    rintro t u a ⟨ht, ht'⟩ ⟨hu, hu'⟩
    cases t <;> cases u <;> first | rfl | (simp only [cond_true, cond_false] at *; omega)
  stack_unique := by
    rintro t u a ⟨ht, ht'⟩ ⟨hu, hu'⟩
    cases t <;> cases u <;> first | rfl | (simp only [cond_true, cond_false] at *; omega)
  stack_object := by
    rintro t u a ⟨ht, ht'⟩ ⟨hu, hu'⟩
    cases t <;> cases u <;> simp only [cond_true, cond_false] at * <;> omega
  eaxSave_object := by
    rintro t ⟨ht, ht'⟩
    cases t <;> simp only [cond_true, cond_false] at * <;> omega
  eaxSave_stack := by
    rintro t ⟨ht, ht'⟩
    cases t <;> simp only [cond_true, cond_false] at * <;> omega

/-- The first thread is about to call `SWITCH` from before 77. -/
def firstRuns : State Bool where
  cpu :=
    { reg := fun r => if r = esp then 1500 else 0
      mem := fun a => if a = 1508 then 100 else if a = 1500 then 77 else 0
      pc := 0 }
  current := false
  saved _ := false

def secondWaits : State Bool :=
  { firstRuns with
    cpu := { firstRuns.cpu with mem := twoThreads.stackAllocate true 10000 500 6 firstRuns.cpu.mem }
    saved := update firstRuns.saved true true }

theorem step_secondWaits : ∃ c,
    (system twoThreads).Step firstRuns (.fork true 500 6 c) secondWaits :=
  ⟨_, Step.fork rfl (by decide) fun a h h' => ⟨h, by
    unfold StackSize at h'
    simp only [cond_true]
    omega⟩⟩

theorem calls_secondWaits : Calls twoThreads secondWaits true := by
  have hmem : ∀ a, 1000 ≤ a → a < 2000 → secondWaits.cpu.mem a = firstRuns.cpu.mem a := by
    intro a h h'
    refine stackAllocate_of_ne ?_ ?_ fun a h h' => ⟨h, ?_⟩
    · rintro ⟨-, ho⟩
      simp only [twoThreads, cond_true] at ho
      omega
    · rintro ⟨hs, -⟩
      simp only [cond_true] at hs
      omega
    · unfold StackSize at h'
      simp only [cond_true]
      omega
  refine ⟨?_, ?_, ?_⟩
  · rintro k (rfl | rfl | rfl)
    all_goals exact ⟨by decide, by decide⟩
  · exact (hmem 1504 (by decide) (by decide)).trans (by decide)
  · exact (hmem 1508 (by decide) (by decide)).trans (by decide)

theorem step_switch_secondWaits : ∃ ret c s,
    (system twoThreads).Step secondWaits (.switch true ret c) s :=
  ⟨_, _, _, Step.switch calls_secondWaits (.inl rfl)⟩

/-- The first thread starts the second one and switches to it. -/
theorem processors_of_run_two : ∃ as s, as.length = 2 ∧ Run (system twoThreads) firstRuns as s ∧
    Run (Processors.system twoThreads) (view twoThreads firstRuns) as (view twoThreads s) := by
  obtain ⟨c, hfork⟩ := step_secondWaits
  obtain ⟨ret, c', s, hswitch⟩ := step_switch_secondWaits
  have hrun := (Run.single hfork).append (.single hswitch)
  exact ⟨_, s, rfl, hrun, processors_of_run (fun _ => rfl) hrun⟩

def returnAtOnce (entry : Cpu) : Cpu :=
  { entry with
    reg := update entry.reg esp (entry.reg esp + 4)
    pc := entry.mem (entry.reg esp) }

theorem returns_returnAtOnce (n top : ℤ) (entry : Cpu) :
    Cpu.Returns n top entry (returnAtOnce entry) := by
  refine ⟨rfl, by simp [returnAtOnce], fun r hr => ?_, fun a _ _ => rfl⟩
  have hne : r ≠ esp := by
    rintro rfl
    revert hr
    decide
  simp [returnAtOnce, hne]

/-- The procedure at 500 is called with the argument 6. -/
theorem start_of_run_two : ∃ s e₁ e₂ e₃, Reachable (system twoThreads) s ∧
    s.cpu.calls returnAtOnce (threadRootCode 201 202 203) = [e₁, e₂, e₃] ∧ e₁.pc = 300 ∧
      e₂.pc = 500 ∧ e₂.mem (e₂.reg esp + 4) = 6 ∧ e₃.pc = 400 := by
  obtain ⟨c, hfork⟩ := step_secondWaits
  obtain ⟨ret, c', s, hswitch⟩ := step_switch_secondWaits
  have hinit : Reachable (system twoThreads) firstRuns := .init fun _ => rfl
  obtain ⟨-, e₁, e₂, e₃, hcalls⟩ := start_of_run 201 202 203 hinit hfork (.nil _)
    (fun a ha => absurd ha List.not_mem_nil) hswitch
    (fun entry _ => returns_returnAtOnce 0 _ entry) fun entry _ => returns_returnAtOnce 1 _ entry
  exact ⟨s, e₁, e₂, e₃, (hinit.step hfork).step hswitch, hcalls⟩

end Nachos.Threads.Switch
