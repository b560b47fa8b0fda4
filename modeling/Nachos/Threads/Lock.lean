import Nachos.Threads.Placement

/-! # Mutual exclusion and wake-ups of `Lock`

`Release` does not hand the lock over: a woken thread tests the lock again and
may be overtaken. The owner of a locked lock is the only thread between a
return from `Acquire` and its next `Release`, and a free lock with sleeping
threads has a woken thread on its way.
-/

namespace Nachos.Threads

open Function Transition Kernel

variable {k k' : Kernel} {o : Object} {p : Pc} {t : ThreadId} {s l l' c b : ℕ}

def Kernel.Woken (k : Kernel) (o : Object) (t : ThreadId) : Prop :=
  (k.pc t).object = some o ∧ k.status t ≠ .blocked

structure LockInv (l : ℕ) (k : Kernel) : Prop where
  holding : ∀ t, k.history.holding l t = true ↔ k.locked l = true ∧ k.owner l = some t
  woken : k.queue (.lock l) ≠ [] → k.locked l = true ∨ ∃ t, k.Woken (.lock l) t

namespace LockInv

theorem frame (h : LockInv l k) (hh : k'.history.holding l = k.history.holding l)
    (hl : k'.locked l = k.locked l) (ho : k'.owner l = k.owner l)
    (hq : k'.queue (.lock l) = k.queue (.lock l))
    (hw : ∀ t, k.Woken (.lock l) t → k'.Woken (.lock l) t) : LockInv l k' := by
  constructor
  · rw [hh, hl, ho]
    exact h.holding
  · rw [hq, hl]
    exact fun hne => (h.woken hne).imp_right fun ⟨t, ht⟩ => ⟨t, hw t ht⟩

theorem woken_of_ne (hc : (k.pc k.currentThread).object ≠ some o)
    (hp : ∀ t, t ≠ k.currentThread → k'.pc t = k.pc t)
    (hs : ∀ t, t ≠ k.currentThread → k.status t ≠ .blocked → k'.status t ≠ .blocked)
    (ht : k.Woken o t) : k'.Woken o t := by
  have hne : t ≠ k.currentThread := fun he => hc (he ▸ ht.1)
  exact ⟨(hp t hne).symm ▸ ht.1, hs t hne ht.2⟩

theorem sleepOn_frame (h : LockInv l k) (ho : o ≠ .lock l)
    (hc : (k.pc k.currentThread).object ≠ some (.lock l)) : LockInv l (sleepOn p o k) := by
  refine h.frame rfl rfl rfl (by simp [sleepOn, update_of_ne ho.symm])
    fun t ht => woken_of_ne hc ?_ ?_ ht
  · intro t hne
    simp [sleepOn, update_of_ne hne]
  · intro t hne
    simp [sleepOn, update_of_ne hne]

theorem goTo_frame (h : LockInv l k) (hc : (k.pc k.currentThread).object ≠ some (.lock l)) :
    LockInv l (goTo p k) :=
  h.frame rfl rfl rfl rfl fun _ ht =>
    woken_of_ne hc (fun _ hne => by simp [goTo, update_of_ne hne]) (fun _ _ hb => hb) ht

theorem wakeOne_frame (h : LockInv l k) (ho : o ≠ .lock l) : LockInv l (wakeOne o k) := by
  unfold wakeOne
  cases hq : k.queue o with
  | nil => exact h
  | cons t rest =>
    refine h.frame rfl rfl rfl (by simp [readyToRun, update_of_ne ho.symm]) fun u hu => ?_
    refine ⟨hu.1, ?_⟩
    simp only [readyToRun, update_apply]
    split
    · simp
    · exact hu.2

theorem readyToRun (h : LockInv l k) : LockInv l (readyToRun t k) := by
  refine h.frame rfl rfl rfl rfl fun u hu => ⟨hu.1, ?_⟩
  simp only [Kernel.readyToRun, update_apply]
  split
  · simp
  · exact hu.2

theorem sleepOn_lock (h : LockInv l k) (hl : k.locked l = true) :
    LockInv l (sleepOn p (.lock l) k) :=
  ⟨h.holding, fun _ => .inl hl⟩

theorem acquire (h : LockInv l' k)
    (hc : ∀ m, (k.pc k.currentThread).object = some (.lock m) → m = l) :
    LockInv l' (acquire p l k) := by
  unfold Kernel.acquire
  by_cases he : l = l'
  · subst he
    split
    case isTrue hl =>
      simp only [Bool.and_eq_true] at hl
      exact h.sleepOn_lock hl.1
    case isFalse hl =>
      refine ⟨fun t => ?_, fun _ => .inl (by simp [setHolding])⟩
      have ht := h.holding t
      simp only [setHolding, goOutside, update_self, update_apply, true_and, Option.some.injEq]
      split
      · simp_all
      · simp only [isHeldByCurrentThread, Bool.and_eq_true, Bool.not_eq_true', not_and,
          beq_eq_false_iff_ne, ne_eq, not_not] at hl
        have hne : k.currentThread ≠ t := fun hc => by simp_all
        simp only [hne, iff_false]
        intro hb
        obtain ⟨h₁, h₂⟩ := ht.mp hb
        exact hne (Option.some.inj ((hl h₁).symm.trans h₂))
  · have hc' : (k.pc k.currentThread).object ≠ some (.lock l') := fun ho => he (hc _ ho).symm
    split
    · exact h.sleepOn_frame (by simpa using he) hc'
    · refine h.frame ?_ ?_ ?_ rfl fun _ ht => woken_of_ne hc' ?_ (fun _ _ hb => hb) ht
      · simp [setHolding, goOutside, update_of_ne (Ne.symm he)]
      · simp [setHolding, update_of_ne (Ne.symm he)]
      · simp [setHolding, update_of_ne (Ne.symm he)]
      · intro t hne
        simp [setHolding, goOutside, update_of_ne hne]

theorem release (hk : Placed k) (h : LockInv l' k) : LockInv l' (release l k) := by
  unfold Kernel.release
  by_cases he : l = l'
  · subst he
    split
    case isTrue hn =>
      -- a stray release finds the thread not holding the lock
      have hn' : k.owner l ≠ some k.currentThread := by simpa [isHeldByCurrentThread] using hn
      refine ⟨fun t => ?_, h.woken⟩
      have ht := h.holding t
      simp only [setHolding, update_self, update_apply]
      split
      · subst_vars
        simp [hn']
      · exact ht
    case isFalse hn =>
      have hn' : k.owner l = some k.currentThread := by simpa [isHeldByCurrentThread] using hn
      have hw : (Kernel.wakeOne (.lock l) (setHolding l false k)).history.holding l =
          update (k.history.holding l) k.currentThread false := by
        unfold Kernel.wakeOne
        split <;> simp [setHolding, Kernel.readyToRun]
      refine ⟨fun t => ?_, fun hq => .inr ?_⟩
      · have ht := h.holding t
        simp only [hw, update_self, update_apply, Bool.false_eq_true, false_and, iff_false]
        split
        · simp
        · rw [ht, hn']
          rintro ⟨-, hc⟩
          simp_all
      · -- the thread removed here is woken
        change (Kernel.wakeOne (.lock l) (setHolding l false k)).queue (.lock l) ≠ [] at hq
        cases hql : k.queue (.lock l) with
        | nil => simp [Kernel.wakeOne, setHolding, hql] at hq
        | cons t rest =>
          refine ⟨t, ?_, ?_⟩
          · simpa [setHolding] using ((hk.queued t _).mp (by simp [hql])).2
          · simp [Kernel.wakeOne, setHolding, hql, Kernel.readyToRun]
  · have h' : LockInv l' (setHolding l false k) := by
      refine h.frame ?_ rfl rfl rfl fun _ ht => ht
      simp [setHolding, update_of_ne (Ne.symm he)]
    split
    · exact h'
    · have hw := h'.wakeOne_frame (o := .lock l) (by simpa using he)
      refine hw.frame rfl ?_ ?_ rfl fun _ ht => ht
      · simp [update_of_ne (Ne.symm he)]
      · simp [update_of_ne (Ne.symm he)]

theorem stable : Stable (LockInv l) where
  semaphoreP {k} s hk hr hp h := by
    have hc : (k.pc k.currentThread).object ≠ some (.lock l) := by
      rcases hp with hp | hp <;> simp [hp, Pc.object]
    unfold semaphoreP
    split
    · exact h.sleepOn_frame (by simp) hc
    · exact (h.goTo_frame hc).frame rfl rfl rfl rfl fun _ ht => ht
  semaphoreV s hk h := (h.wakeOne_frame (by simp)).frame rfl rfl rfl rfl fun _ ht => ht
  acquire l hk hr hp h := h.acquire fun m hm => by
    rcases hp with hp | hp <;> simp_all [Pc.object]
  reacquire c l hk hr hp h := h.acquire fun m hm => by
    rcases hp with hp | hp <;> simp_all [Pc.object]
  release l hk hr hp h := h.release hk
  wait {k} c l' hk hr hp _ h := by
    have h' : LockInv l (noteWait k) := h.frame rfl rfl rfl rfl fun _ ht => ht
    exact h'.sleepOn_frame (by simp) (by simp [noteWait, hp, Pc.object])
  wakeWaiting c hk hr h := by
    unfold wakeWaiting
    split
    · exact h
    · exact (h.wakeOne_frame (by simp)).frame rfl rfl rfl rfl fun _ ht => ht
  setBlockCount f h := h.frame rfl rfl rfl rfl fun _ ht => ht
  wakeBarrier b hk h := h.wakeOne_frame (by simp)
  sleepBarrier b hk hr hp h := h.sleepOn_frame (by simp) (by simp [hp, Pc.object])
  leaveRoot hk hr hp h := h.goTo_frame (by simp [hp, Pc.object])
  leaveBarrier b hk hr hp h := h.goTo_frame (by simp [hp, Pc.object])
  leaveWait c l hk hr hp h := h.goTo_frame (by simp [hp, Pc.object])
  destroy h := h.frame rfl rfl rfl rfl fun _ ht => ht
  switchTo {k t rest} hk hr hl h := by
    refine h.frame rfl rfl rfl rfl fun u hu => ⟨hu.1, ?_⟩
    simp only [switchTo, update_apply]
    split
    · simp
    · exact hu.2
  readyToRun hk ht h := h.readyToRun
  finish hk hr hp h := by
    refine h.frame rfl rfl rfl rfl fun _ ht => woken_of_ne (by simp [hp, Pc.object]) ?_ ?_ ht
    · intro t hne
      simp [finish, update_of_ne hne]
    · intro t hne
      simp [finish, update_of_ne hne]

theorem of_initial (h : Kernel.Initial k) : LockInv l k :=
  ⟨fun t => by simp [h.holding, h.locked], fun hq => absurd (h.queue _) hq⟩

theorem of_reachable (h : Reachable system k) : LockInv l k :=
  stable.reachable (fun _ => of_initial) h

theorem holder_unique {u : ThreadId} (h : LockInv l k) (ht : k.history.holding l t = true)
    (hu : k.history.holding l u = true) : t = u := by
  have ho := ((h.holding t).mp ht).2
  rw [((h.holding u).mp hu).2] at ho
  exact (Option.some.inj ho).symm

end LockInv

def Owned (l : ℕ) (k : Kernel) : Prop := k.locked l = true → ∃ t, k.owner l = some t

namespace Owned

theorem of_eq (h : Owned l k) (hl : k'.locked l = k.locked l) (ho : k'.owner l = k.owner l) :
    Owned l k' := by
  rwa [Owned, hl, ho]

theorem wakeOne (h : Owned l k) : Owned l (wakeOne o k) := by
  unfold Kernel.wakeOne
  split
  · exact h
  · exact h.of_eq rfl rfl

theorem acquire (h : Owned l' k) : Owned l' (acquire p l k) := by
  unfold Kernel.acquire
  split
  · exact h.of_eq rfl rfl
  · intro hl
    by_cases he : l' = l
    · subst he
      exact ⟨k.currentThread, by simp [setHolding]⟩
    · simp only [setHolding, goOutside, update_of_ne he] at hl ⊢
      exact h hl

theorem release (h : Owned l' k) : Owned l' (release l k) := by
  have hs : Owned l' (setHolding l false k) := h.of_eq rfl rfl
  have h' := hs.wakeOne (o := .lock l)
  unfold Kernel.release
  split
  · exact h.of_eq rfl rfl
  · intro hl
    by_cases he : l' = l
    · simp [he] at hl
    · simp only [update_of_ne he] at hl ⊢
      exact h' hl

theorem stable : Stable (Owned l) where
  semaphoreP s hk hr hp h := by
    unfold semaphoreP
    split <;> exact h.of_eq rfl rfl
  semaphoreV s hk h := h.wakeOne.of_eq rfl rfl
  acquire l hk hr hp h := h.acquire
  reacquire c l hk hr hp h := h.acquire
  release l hk hr hp h := h.release
  wait c l hk hr hp _ h := h.of_eq rfl rfl
  wakeWaiting c hk hr h := by
    unfold wakeWaiting
    split
    · exact h
    · exact h.wakeOne.of_eq rfl rfl
  setBlockCount f h := h.of_eq rfl rfl
  wakeBarrier b hk h := h.wakeOne
  sleepBarrier b hk hr hp h := h.of_eq rfl rfl
  leaveRoot hk hr hp h := h.of_eq rfl rfl
  leaveBarrier b hk hr hp h := h.of_eq rfl rfl
  leaveWait c l hk hr hp h := h.of_eq rfl rfl
  destroy h := h.of_eq rfl rfl
  switchTo hk hr hl h := h.of_eq rfl rfl
  readyToRun hk ht h := h.of_eq rfl rfl
  finish hk hr hp h := h.of_eq rfl rfl

end Owned

theorem LockInv.holder_or_woken (h : Reachable system k) (hq : k.queue (.lock l) ≠ []) :
    (∃ t, k.history.holding l t = true) ∨ ∃ t, k.Woken (.lock l) t := by
  refine ((LockInv.of_reachable h).woken hq).imp_left fun hl => ?_
  have ho : Owned l k := Owned.stable.reachable (fun _ hk => by simp [Owned, hk.locked]) h
  obtain ⟨t, ht⟩ := ho hl
  exact ⟨t, ((LockInv.of_reachable h).holding t).mpr ⟨hl, ht⟩⟩

/-- For any interleaving of calls: a thread between a return from `Acquire` and its next
`Release` is the recorded owner of the locked lock, so there is at most one; and when threads
sleep on the lock, there is such a thread, or one that `Release` took off the queue is on the
ready list and has not tested the lock again. -/
theorem lock_mutual_exclusion_and_wakeup (h : Reachable system k) (l : ℕ) :
    (∀ t, k.history.holding l t = true → k.locked l = true ∧ k.owner l = some t) ∧
    (∀ t u, k.history.holding l t = true → k.history.holding l u = true → t = u) ∧
    (k.queue (.lock l) ≠ [] → (∃ t, k.history.holding l t = true) ∨
      ∃ t ∈ k.readyList, (k.pc t).object = some (.lock l) ∧ t ∉ k.queue (.lock l)) := by
  have hk := placed_of_reachable h
  have hl : LockInv l k := LockInv.of_reachable h
  refine ⟨fun t ht => (hl.holding t).mp ht, fun t u ht hu => hl.holder_unique ht hu, fun hq => ?_⟩
  obtain hheld | ⟨t, ho, hb⟩ := LockInv.holder_or_woken h hq
  · exact .inl hheld
  · refine .inr ⟨t, ready_of_not_blocked h ho hb, ho, ?_⟩
    rw [hk.queued]
    exact fun hm => hb hm.1

/-- Thread 0 has released the lock; thread 1 is woken and has not run yet, and thread 2 still
sleeps. -/
theorem lock_mutual_exclusion_and_wakeup_released :
    ∃ k, exec step (boot 0) [.acquire 0, .fork 1, .fork 2, .yield, .acquire 0, .dispatch,
        .acquire 0, .dispatch, .release 0] = some k ∧
      k.queue (.lock 0) = [2] ∧ k.readyList = [1] ∧ k.locked 0 = false ∧
      (k.queue (.lock 0) ≠ [] → (∃ t, k.history.holding 0 t = true) ∨
        ∃ t ∈ k.readyList, (k.pc t).object = some (.lock 0) ∧ t ∉ k.queue (.lock 0)) := by
  obtain ⟨k, hk⟩ : ∃ k, exec step (boot 0) [.acquire 0, .fork 1, .fork 2, .yield, .acquire 0,
      .dispatch, .acquire 0, .dispatch, .release 0] = some k := ⟨_, rfl⟩
  have hr : Reachable system k :=
    ⟨_, _, initial_boot (by decide), run_ofStep_iff.mpr hk⟩
  refine ⟨k, hk, ?_, ?_, ?_, (lock_mutual_exclusion_and_wakeup hr 0).2.2⟩
  all_goals
    obtain rfl := Option.some.inj hk
    rfl

end Nachos.Threads
