import Nachos.Threads.Lock

/-! # The value of `Semaphore`

`V` both increments the value and wakes a thread, which then competes with
newcomers. The value counts the completed operations, and while threads sleep
on the semaphore it is at most the number of woken threads that have not
tested it again.
-/

namespace Nachos.Threads

open Function Transition Kernel

variable {k k' : Kernel} {o : Object} {p : Pc} {t : ThreadId} {s s' l c b : ℕ} {v : ℤ}

def Kernel.readyWoken (k : Kernel) (o : Object) : ℕ :=
  k.readyList.countP fun t => (k.pc t).object == some o

def Kernel.currentWoken (k : Kernel) (o : Object) : ℕ :=
  if k.IsRunning ∧ (k.pc k.currentThread).object = some o then 1 else 0

structure SemaphoreInv (s : ℕ) (v : ℤ) (k : Kernel) : Prop where
  nonneg : 0 ≤ k.value s
  count : k.value s = v + k.history.completedV s - k.history.completedP s
  woken : k.queue (.semaphore s) ≠ [] →
    k.value s ≤ k.readyWoken (.semaphore s) + k.currentWoken (.semaphore s)

theorem currentWoken_of_ne (h : (k.pc k.currentThread).object ≠ some o) :
    k.currentWoken o = 0 := by
  simp [currentWoken, h]

theorem currentWoken_of_not_isRunning (h : ¬ k.IsRunning) : k.currentWoken o = 0 := by
  simp [currentWoken, h]

theorem readyWoken_eq (hk : Placed k) (hr : k.IsRunning) (hl : k'.readyList = k.readyList)
    (hp : ∀ t, t ≠ k.currentThread → k'.pc t = k.pc t) : k'.readyWoken o = k.readyWoken o := by
  have hn : k.currentThread ∉ k.readyList := fun hm => by
    have := (hk.ready _).mp hm
    simp_all
  unfold readyWoken
  rw [hl]
  exact List.countP_congr fun t ht => by
    rw [hp t fun he => hn (he ▸ ht)]

theorem readyWoken_readyToRun :
    (readyToRun t k).readyWoken o =
      k.readyWoken o + if (k.pc t).object = some o then 1 else 0 := by
  simp [readyWoken, readyToRun, List.countP_append, List.countP_cons]

theorem readyWoken_switchTo {rest : List ThreadId} (hl : k.readyList = t :: rest) :
    (switchTo t rest k).readyWoken o + (switchTo t rest k).currentWoken o = k.readyWoken o := by
  simp [readyWoken, currentWoken, switchTo, hl, List.countP_cons, IsRunning]

namespace SemaphoreInv

theorem frame (h : SemaphoreInv s v k) (hv : k'.value s = k.value s)
    (hV : k'.history.completedV s = k.history.completedV s)
    (hP : k'.history.completedP s = k.history.completedP s)
    (hq : k'.queue (.semaphore s) = k.queue (.semaphore s))
    (hw : k.readyWoken (.semaphore s) + k.currentWoken (.semaphore s) ≤
      k'.readyWoken (.semaphore s) + k'.currentWoken (.semaphore s)) : SemaphoreInv s v k' := by
  constructor
  · rw [hv]
    exact h.nonneg
  · rw [hv, hV, hP]
    exact h.count
  · rw [hq, hv]
    intro hne
    have := h.woken hne
    omega

theorem frame_current (h : SemaphoreInv s v k) (hk : Placed k) (hr : k.IsRunning)
    (hc : (k.pc k.currentThread).object ≠ some (.semaphore s)) (hv : k'.value s = k.value s)
    (hV : k'.history.completedV s = k.history.completedV s)
    (hP : k'.history.completedP s = k.history.completedP s)
    (hq : k'.queue (.semaphore s) = k.queue (.semaphore s)) (hl : k'.readyList = k.readyList)
    (hp : ∀ t, t ≠ k.currentThread → k'.pc t = k.pc t) : SemaphoreInv s v k' := by
  refine h.frame hv hV hP hq ?_
  rw [readyWoken_eq hk hr hl hp, currentWoken_of_ne hc]
  omega

theorem sleepOn_frame (h : SemaphoreInv s v k) (hk : Placed k) (hr : k.IsRunning)
    (ho : o ≠ .semaphore s) (hc : (k.pc k.currentThread).object ≠ some (.semaphore s)) :
    SemaphoreInv s v (sleepOn p o k) :=
  h.frame_current hk hr hc rfl rfl rfl (by simp [sleepOn, update_of_ne ho.symm]) rfl
    fun t hne => by simp [sleepOn, update_of_ne hne]

theorem goTo_frame (h : SemaphoreInv s v k) (hk : Placed k) (hr : k.IsRunning)
    (hc : (k.pc k.currentThread).object ≠ some (.semaphore s)) : SemaphoreInv s v (goTo p k) :=
  h.frame_current hk hr hc rfl rfl rfl rfl rfl fun t hne => by simp [goTo, update_of_ne hne]

theorem woken_le_readyToRun :
    k.readyWoken o + k.currentWoken o ≤
      (readyToRun t k).readyWoken o + (readyToRun t k).currentWoken o := by
  rw [readyWoken_readyToRun]
  unfold currentWoken IsRunning Kernel.readyToRun
  by_cases he : k.currentThread = t
  · subst he
    simp only [update_self, reduceCtorEq, false_and, ↓reduceIte]
    split <;> split <;> simp_all
  · simp only [update_of_ne he]
    omega

theorem wakeOne_frame (h : SemaphoreInv s v k) (ho : o ≠ .semaphore s) :
    SemaphoreInv s v (wakeOne o k) := by
  unfold wakeOne
  cases hq : k.queue o with
  | nil => exact h
  | cons t rest =>
    have h' : SemaphoreInv s v { k with queue := update k.queue o rest } :=
      h.frame rfl rfl rfl (by simp [update_of_ne ho.symm]) (Nat.le_refl _)
    exact h'.frame rfl rfl rfl rfl woken_le_readyToRun

theorem woken_readyToRun_blocked (hb : k.status t = .blocked) (ho : (k.pc t).object = some o) :
    (readyToRun t k).readyWoken o + (readyToRun t k).currentWoken o =
      k.readyWoken o + k.currentWoken o + 1 := by
  rw [readyWoken_readyToRun, if_pos ho]
  have hc : (readyToRun t k).currentWoken o = k.currentWoken o := by
    unfold currentWoken IsRunning Kernel.readyToRun
    by_cases he : k.currentThread = t
    · simp [he, hb]
    · simp only [update_of_ne he]
  omega

theorem semaphoreV (hk : Placed k) (h : SemaphoreInv s v k) :
    SemaphoreInv s v (semaphoreV s' k) := by
  by_cases he : s' = s
  · subst he
    have hn := h.nonneg
    have hc := h.count
    cases hq : k.queue (.semaphore s') with
    | nil =>
      have hV : Kernel.semaphoreV s' k = { k with
          value := update k.value s' (k.value s' + 1)
          history := { k.history with
            completedV := update k.history.completedV s' (k.history.completedV s' + 1) } } := by
        simp [Kernel.semaphoreV, Kernel.wakeOne, hq]
      rw [hV]
      refine ⟨?_, ?_, fun hne => absurd hq hne⟩ <;> simp only [update_self] <;> omega
    | cons t rest =>
      obtain ⟨hb, ho⟩ := (hk.queued t (.semaphore s')).mp (by simp [hq])
      have hw := h.woken (by simp [hq])
      have hr := woken_readyToRun_blocked
        (k := { k with queue := update k.queue (.semaphore s') rest }) hb ho
      have hV : Kernel.semaphoreV s' k = { readyToRun t { k with
            queue := update k.queue (.semaphore s') rest } with
          value := update k.value s' (k.value s' + 1)
          history := { k.history with
            completedV := update k.history.completedV s' (k.history.completedV s' + 1) } } := by
        simp [Kernel.semaphoreV, Kernel.wakeOne, hq, Kernel.readyToRun]
      rw [hV]
      refine ⟨?_, ?_, fun _ => ?_⟩
      · simp only [update_self]
        omega
      · simp only [update_self]
        omega
      · have hle : k.value s' + 1 ≤
            (k.readyWoken (.semaphore s') + k.currentWoken (.semaphore s') + 1 : ℕ) := by omega
        simp only [update_self]
        exact Int.le_trans hle (Int.ofNat_le.mpr (Nat.le_of_eq hr.symm))
  · have hw := h.wakeOne_frame (o := .semaphore s') (by simpa using he)
    refine hw.frame ?_ ?_ rfl rfl (Nat.le_refl _)
    · simp [Kernel.semaphoreV, update_of_ne (Ne.symm he)]
    · simp [Kernel.semaphoreV, update_of_ne (Ne.symm he)]

theorem semaphoreP (hk : Placed k) (hr : k.IsRunning)
    (hp : k.pc k.currentThread = .outside ∨ k.pc k.currentThread = .semaphoreP s')
    (h : SemaphoreInv s v k) : SemaphoreInv s v (semaphoreP s' k) := by
  have hc : s' ≠ s → (k.pc k.currentThread).object ≠ some (.semaphore s) := by
    intro hne
    rcases hp with hp | hp <;> simp [hp, Pc.object, hne]
  unfold Kernel.semaphoreP
  split
  case isTrue hz =>
    by_cases he : s' = s
    · subst he
      -- a thread goes to sleep only on the value zero
      exact ⟨h.nonneg, h.count, fun _ => by simp only [sleepOn, hz]; omega⟩
    · exact h.sleepOn_frame hk hr (by simpa using he) (hc he)
  case isFalse hz =>
    by_cases he : s' = s
    · subst he
      have hn := h.nonneg
      have hcount := h.count
      have hready : (goOutside k).readyWoken (.semaphore s') = k.readyWoken (.semaphore s') :=
        readyWoken_eq hk hr rfl fun t hne => by simp [goOutside, update_of_ne hne]
      have hcur : k.currentWoken (.semaphore s') ≤ 1 := by
        unfold currentWoken
        split <;> omega
      refine ⟨?_, ?_, fun hne => ?_⟩
      · simp only [update_self]
        omega
      · simp only [update_self]
        omega
      · have hw := h.woken hne
        have hle : k.value s' - 1 ≤ ((goOutside k).readyWoken (.semaphore s') : ℤ) := by
          rw [hready]
          omega
        simp only [update_self]
        exact Int.le_trans hle (Int.le_add_of_nonneg_right (Int.natCast_nonneg _))
    · refine h.frame_current hk hr (hc he) ?_ rfl ?_ rfl rfl fun t hne => ?_
      · simp [update_of_ne (Ne.symm he)]
      · simp [update_of_ne (Ne.symm he)]
      · simp [goOutside, update_of_ne hne]

theorem acquire (hk : Placed k) (hr : k.IsRunning)
    (hc : (k.pc k.currentThread).object ≠ some (.semaphore s)) (h : SemaphoreInv s v k) :
    SemaphoreInv s v (acquire p l k) := by
  unfold Kernel.acquire
  split
  · exact h.sleepOn_frame hk hr (by simp) hc
  · exact h.frame_current hk hr hc rfl rfl rfl rfl rfl fun t hne => by
      simp [setHolding, goOutside, update_of_ne hne]

theorem stable : Stable (SemaphoreInv s v) where
  semaphoreP s hk hr hp h := h.semaphoreP hk hr hp
  semaphoreV s hk h := h.semaphoreV hk
  acquire l hk hr hp h := h.acquire hk hr (by rcases hp with hp | hp <;> simp [hp, Pc.object])
  reacquire c l hk hr hp h :=
    h.acquire hk hr (by rcases hp with hp | hp <;> simp [hp, Pc.object])
  release {k} l hk hr hp h := by
    have h' : SemaphoreInv s v (setHolding l false k) :=
      h.frame rfl rfl rfl rfl (Nat.le_refl _)
    unfold release
    split
    · exact h'
    · exact (h'.wakeOne_frame (o := .lock l) (by simp)).frame rfl rfl rfl rfl (Nat.le_refl _)
  wait {k} c l hk hr hp _ h := by
    have h' : SemaphoreInv s v (noteWait k) := h.frame rfl rfl rfl rfl (Nat.le_refl _)
    exact h'.sleepOn_frame hk.noteWait hr (by simp) (by simp [noteWait, hp, Pc.object])
  wakeWaiting {k} c hk hr h := by
    unfold wakeWaiting
    split
    · exact h
    · exact (h.wakeOne_frame (o := .condition c) (by simp)).frame rfl rfl rfl rfl (Nat.le_refl _)
  setBlockCount f h := h.frame rfl rfl rfl rfl (Nat.le_refl _)
  wakeBarrier b hk h := h.wakeOne_frame (by simp)
  sleepBarrier b hk hr hp h := h.sleepOn_frame hk hr (by simp) (by simp [hp, Pc.object])
  leaveRoot hk hr hp h := h.goTo_frame hk hr (by simp [hp, Pc.object])
  leaveBarrier b hk hr hp h := h.goTo_frame hk hr (by simp [hp, Pc.object])
  leaveWait c l hk hr hp h := h.goTo_frame hk hr (by simp [hp, Pc.object])
  destroy h := h.frame rfl rfl rfl rfl (Nat.le_refl _)
  switchTo hk hr hl h := by
    refine h.frame rfl rfl rfl rfl ?_
    rw [readyWoken_switchTo hl, currentWoken_of_not_isRunning hr]
    omega
  readyToRun hk ht h := h.frame rfl rfl rfl rfl woken_le_readyToRun
  finish hk hr hp h := h.frame_current hk hr (by simp [hp, Pc.object]) rfl rfl rfl rfl rfl
    fun t hne => by simp [finish, update_of_ne hne]

theorem of_initial (h : Kernel.Initial k) : SemaphoreInv s (k.value s) k :=
  ⟨h.value s, by simp [h.completedP, h.completedV], fun hq => absurd (h.queue _) hq⟩

end SemaphoreInv

/-- For any interleaving of `P` and `V`, with `V` also called by interrupt handlers: the value
of a semaphore is never negative, it is the initial value plus the completed calls of `V` minus
those of `P`, and while threads sleep on it the value is at most the number of threads that `V`
took off the queue and that have not tested the value again. This is for runs in which the value,
which is an integer here, stays in an `int`. -/
theorem semaphore_counts {k₀ : Kernel} {as : List Action} (h₀ : Kernel.Initial k₀)
    (h : Run system k₀ as k) (s : ℕ) :
    0 ≤ k.value s ∧
    k.value s = k₀.value s + k.history.completedV s - k.history.completedP s ∧
    (k.queue (.semaphore s) ≠ [] →
      k.value s ≤ (k.readyList.filter fun t => k.pc t = .semaphoreP s).length) := by
  have hr : Reachable system k := ⟨k₀, as, h₀, h⟩
  have hs : SemaphoreInv s (k₀.value s) k :=
    SemaphoreInv.stable.run h (Initial.placed h₀) (SemaphoreInv.of_initial h₀)
  refine ⟨hs.nonneg, hs.count, fun hq => ?_⟩
  have hc : k.currentWoken (.semaphore s) = 0 := by
    by_cases hrun : k.IsRunning
    · refine currentWoken_of_ne ?_
      rcases settled_of_reachable hr hrun with hp | ⟨c, l, hp⟩ <;> simp [hp, Pc.object]
    · exact currentWoken_of_not_isRunning hrun
  have hw := hs.woken hq
  have he : k.readyWoken (.semaphore s) =
      (k.readyList.filter fun t => k.pc t = .semaphoreP s).length := by
    rw [← List.countP_eq_length_filter]
    refine List.countP_congr fun t _ => ?_
    cases k.pc t <;> simp [Pc.object]
  rw [← he]
  omega

/-- A thread sleeps in `P`, an interrupt handler calls `V`, and the woken thread has not run. -/
theorem semaphore_counts_woken :
    ∃ k, exec step (boot 0) [.fork 1, .p 0, .dispatch, .fork 2, .yield, .p 0, .dispatch,
        .interruptV 0] = some k ∧
      k.queue (.semaphore 0) = [2] ∧ k.value 0 = 1 ∧
      k.value 0 ≤ (k.readyList.filter fun t => k.pc t = .semaphoreP 0).length := by
  obtain ⟨k, hk⟩ : ∃ k, exec step (boot 0) [.fork 1, .p 0, .dispatch, .fork 2, .yield, .p 0,
      .dispatch, .interruptV 0] = some k := ⟨_, rfl⟩
  have hr : Run system (boot 0) _ k := run_ofStep_iff.mpr hk
  have hq : k.queue (.semaphore 0) = [2] := by
    obtain rfl := Option.some.inj hk
    rfl
  refine ⟨k, hk, hq, ?_, (semaphore_counts (initial_boot (by decide)) hr 0).2.2 (by simp [hq])⟩
  obtain rfl := Option.some.inj hk
  rfl

end Nachos.Threads
