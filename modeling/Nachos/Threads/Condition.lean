import Nachos.Threads.Lock

/-! # Waiting on a `Condition`

`Wait` releases the lock and joins the queue in one step, so a thread inside
`Wait` is in the queue until a `Signal` or a `Broadcast` removes it. The queue
is in the order of the calls, and a `Wait` returns with the lock.
-/

namespace Nachos.Threads

open Function Transition Kernel

variable {k k' : Kernel} {o : Object} {p : Pc} {t u : ThreadId} {s l l' c c' b : ℕ}

/-- The thread is inside `Condition::Wait` and has given up the lock. -/
def Pc.InWait (c l : ℕ) : Pc → Prop
  | .conditionWait c' l' | .conditionWoken c' l' | .conditionAcquire c' l' => c' = c ∧ l' = l
  | _ => False

/-- What holds of the threads inside `Wait` and of the condition's queue. -/
structure ConditionInv (k : Kernel) : Prop where
  released : ∀ t c l, (k.pc t).InWait c l → k.history.holding l t = false
  queued : ∀ t c l, (k.pc t).InWait c l →
    (t ∈ k.queue (.condition c) ↔ k.history.signalled t = false)
  turn : ∀ c, ∀ t ∈ k.queue (.condition c), k.history.waitTurn t < k.history.turns
  sorted : ∀ c, (k.queue (.condition c)).Pairwise
    fun t u => k.history.waitTurn t < k.history.waitTurn u

namespace ConditionInv

theorem frame (h : ConditionInv k)
    (hp : ∀ t c l, (k'.pc t).InWait c l →
      (k.pc t).InWait c l ∧ k'.history.holding l t = k.history.holding l t)
    (hq : ∀ c, k'.queue (.condition c) = k.queue (.condition c))
    (hs : k'.history.signalled = k.history.signalled)
    (ht : k'.history.waitTurn = k.history.waitTurn)
    (hn : k'.history.turns = k.history.turns) : ConditionInv k' := by
  constructor
  · intro t c l hw
    rw [(hp t c l hw).2]
    exact h.released t c l (hp t c l hw).1
  · intro t c l hw
    rw [hq, hs]
    exact h.queued t c l (hp t c l hw).1
  · intro c
    rw [hq, ht, hn]
    exact h.turn c
  · intro c
    rw [hq, ht]
    exact h.sorted c

theorem frame_same (h : ConditionInv k) (hp : k'.pc = k.pc) (hh : k'.history = k.history)
    (hq : ∀ c, k'.queue (.condition c) = k.queue (.condition c)) : ConditionInv k' :=
  h.frame (fun t c l hw => ⟨hp ▸ hw, by rw [hh]⟩) hq (by rw [hh]) (by rw [hh]) (by rw [hh])

theorem goTo_frame (h : ConditionInv k)
    (hp : ∀ c l, p.InWait c l → (k.pc k.currentThread).InWait c l) :
    ConditionInv (goTo p k) := by
  refine h.frame (fun t c l hw => ⟨?_, rfl⟩) (fun _ => rfl) rfl rfl rfl
  by_cases he : t = k.currentThread
  · subst he
    exact hp c l (by simpa [goTo] using hw)
  · simpa [goTo, update_of_ne he] using hw

theorem sleepOn_frame (h : ConditionInv k) (ho : ∀ c, o ≠ .condition c)
    (hp : ∀ c l, p.InWait c l → (k.pc k.currentThread).InWait c l) :
    ConditionInv (sleepOn p o k) :=
  (h.goTo_frame hp).frame_same rfl rfl fun c => by
    simp [sleepOn, goTo, update_of_ne (ho c).symm]

theorem wakeOne_frame (h : ConditionInv k) (ho : ∀ c, o ≠ .condition c) :
    ConditionInv (wakeOne o k) := by
  refine h.frame_same (by simp) (by simp) fun c => ?_
  unfold wakeOne
  split
  · rfl
  · simp [readyToRun, update_of_ne (ho c).symm]

theorem acquire (h : ConditionInv k)
    (hp : ∀ c l, p.InWait c l → (k.pc k.currentThread).InWait c l) :
    ConditionInv (acquire p l k) := by
  unfold Kernel.acquire
  split
  · exact h.sleepOn_frame (by simp) hp
  · have h' := h.goTo_frame (p := .outside) (by simp [Pc.InWait])
    refine h'.frame (fun t c m hw => ⟨hw, ?_⟩) (fun _ => rfl) rfl rfl rfl
    -- the thread that takes the lock is outside `Wait` now
    have hne : t ≠ k.currentThread := by
      rintro rfl
      simp [setHolding, goOutside, Pc.InWait] at hw
    by_cases hm : m = l
    · subst hm
      simp [setHolding, goOutside, goTo, update_of_ne hne]
    · simp [setHolding, goOutside, goTo, update_of_ne hm]

theorem setHolding_false (h : ConditionInv k) : ConditionInv (setHolding l false k) := by
  refine ⟨fun t c m hw => ?_, h.queued, h.turn, h.sorted⟩
  have hm := h.released t c m hw
  simp only [setHolding, update_apply]
  split
  · subst_vars
    simp only [update_apply, hm, ite_self]
  · exact hm

theorem release (h : ConditionInv k) : ConditionInv (release l k) := by
  unfold Kernel.release
  split
  · exact h.setHolding_false
  · exact (h.setHolding_false.wakeOne_frame (o := .lock l) (by simp)).frame_same rfl rfl
      fun _ => rfl

theorem wait (hk : Placed k) (hr : k.IsRunning)
    (hl : k.history.holding l k.currentThread = false) (h : ConditionInv k) :
    ConditionInv (sleepOn (.conditionWait c l) (.condition c) (noteWait k)) := by
  have hn := hk.not_mem_queue hr
  have hne : ∀ {d u}, u ∈ k.queue (.condition d) → u ≠ k.currentThread := by
    rintro d u hu rfl
    exact hn _ hu
  constructor
  · intro t c' l' hw
    by_cases he : t = k.currentThread
    · subst he
      obtain ⟨rfl, rfl⟩ : c = c' ∧ l = l' := by simpa [sleepOn, noteWait, Pc.InWait] using hw
      exact hl
    · exact h.released t c' l' (by simpa [sleepOn, noteWait, update_of_ne he] using hw)
  · intro t c' l' hw
    by_cases he : t = k.currentThread
    · subst he
      obtain ⟨rfl, rfl⟩ : c = c' ∧ l = l' := by simpa [sleepOn, noteWait, Pc.InWait] using hw
      simp [sleepOn, noteWait]
    · have hq := h.queued t c' l' (by simpa [sleepOn, noteWait, update_of_ne he] using hw)
      simp only [sleepOn, noteWait, update_of_ne he, ← hq, update_apply]
      split <;> simp_all
  · intro d u hu
    have hu' : u = k.currentThread ∨ u ∈ k.queue (.condition d) := by
      simp only [sleepOn, noteWait, update_apply] at hu
      split at hu <;> simp_all [or_comm]
    by_cases he : u = k.currentThread
    · simp [sleepOn, noteWait, he]
    · have := h.turn d u (hu'.resolve_left he)
      simp only [sleepOn, noteWait, update_of_ne he]
      omega
  · intro d
    have hs : (k.queue (.condition d)).Pairwise fun t u =>
        (noteWait k).history.waitTurn t < (noteWait k).history.waitTurn u :=
      (h.sorted d).imp_of_mem fun ha hb hab => by
        simpa [noteWait, update_of_ne (hne ha), update_of_ne (hne hb)] using hab
    simp only [sleepOn, update_apply]
    split
    case isTrue hd =>
      obtain rfl : d = c := by simpa using hd
      refine List.pairwise_append.mpr ⟨hs, List.pairwise_singleton _ _, fun u hu v hv => ?_⟩
      obtain rfl : v = k.currentThread := by simpa [noteWait] using hv
      simpa [noteWait, update_of_ne (hne hu)] using h.turn d u hu
    case isFalse => exact hs

theorem wakeWaiting (hk : Placed k) (h : ConditionInv k) : ConditionInv (wakeWaiting c k) := by
  unfold Kernel.wakeWaiting
  cases hq : k.queue (.condition c) with
  | nil => exact h
  | cons t rest =>
    have hnd : t ∉ rest := by
      have := hk.queue_nodup (.condition c)
      simp_all
    have hqueue : ∀ d, ((wakeOne (.condition c) k).queue (.condition d)) =
        if d = c then rest else k.queue (.condition d) := by
      intro d
      simp [wakeOne, hq, Kernel.readyToRun, update_apply]
    have hsub : ∀ d, ((wakeOne (.condition c) k).queue (.condition d)).Sublist
        (k.queue (.condition d)) := by
      intro d
      rw [hqueue]
      split
      · subst_vars
        rw [hq]
        exact List.sublist_cons_self t rest
      · exact List.Sublist.refl _
    refine ⟨?_, ?_, ?_, ?_⟩
    · simpa using h.released
    · intro u d m hw
      have hu := h.queued u d m (by simpa using hw)
      simp only [history_wakeOne, hqueue, update_apply]
      by_cases he : u = t
      · subst he
        have hd : d = c := by
          have ht := ((hk.queued u (.condition c)).mp (by simp [hq])).2
          cases hp : k.pc u <;> simp_all [Pc.object, Pc.InWait]
        simp [hd, hnd]
      · rw [if_neg he, ← hu]
        split
        · subst_vars
          simp [hq, he]
        · rfl
    · intro d u hu
      simpa using h.turn d u ((hsub d).subset hu)
    · intro d
      simpa using (h.sorted d).sublist (hsub d)

theorem stable : Stable ConditionInv where
  semaphoreP {k} s hk hr hp h := by
    unfold semaphoreP
    split
    · exact h.sleepOn_frame (by simp) (by simp [Pc.InWait])
    · exact (h.goTo_frame (p := .outside) (by simp [Pc.InWait])).frame (fun _ _ _ hw => ⟨hw, rfl⟩)
        (fun _ => rfl) rfl rfl rfl
  semaphoreV s hk h := (h.wakeOne_frame (o := .semaphore s) (by simp)).frame
    (fun _ _ _ hw => ⟨hw, rfl⟩) (fun _ => rfl) rfl rfl rfl
  acquire l hk hr hp h := h.acquire (by simp [Pc.InWait])
  reacquire c l hk hr hp h := h.acquire fun c' l' hw => by
    rcases hp with hp | hp <;> simpa [hp, Pc.InWait] using hw
  release l hk hr hp h := h.release
  wait c l hk hr hp hl h := h.wait hk hr hl
  wakeWaiting c hk hr h := h.wakeWaiting hk
  setBlockCount f h := h.frame_same rfl rfl fun _ => rfl
  wakeBarrier b hk h := h.wakeOne_frame (by simp)
  sleepBarrier b hk hr hp h := h.sleepOn_frame (by simp) (by simp [Pc.InWait])
  leaveRoot hk hr hp h := h.goTo_frame (by simp [Pc.InWait])
  leaveBarrier b hk hr hp h := h.goTo_frame (by simp [Pc.InWait])
  leaveWait c l hk hr hp h := h.goTo_frame fun c' l' hw => by
    simpa [hp, Pc.InWait] using hw
  destroy h := h.frame_same rfl rfl fun _ => rfl
  switchTo hk hr hl h := h.frame_same rfl rfl fun _ => rfl
  readyToRun hk ht h := h.frame_same rfl rfl fun _ => rfl
  finish {k} hk hr hp h := (h.goTo_frame (p := .finished) (by simp [Pc.InWait])).frame_same rfl rfl
    fun _ => rfl

theorem of_initial (h : Kernel.Initial k) : ConditionInv k := by
  have hw : ∀ t c l, ¬ (k.pc t).InWait c l := by
    intro t c l
    rw [h.pc]
    split <;> simp [Pc.InWait]
  exact ⟨fun t c l ht => absurd ht (hw t c l), fun t c l ht => absurd ht (hw t c l),
    fun c => by simp [h.queue], fun c => by simp [h.queue]⟩

end ConditionInv

/-! ## The calls -/

@[simp] theorem pc_wakeWaiting : (wakeWaiting c k).pc = k.pc := by
  unfold wakeWaiting
  split <;> simp

@[simp] theorem pc_wakeWaiting_iterate (n : ℕ) : ((wakeWaiting c)^[n] k).pc = k.pc := by
  induction n generalizing k with
  | zero => rfl
  | succ n ih => rw [iterate_succ_apply, ih, pc_wakeWaiting]

@[simp] theorem pc_barrierRelease_iterate (n : ℕ) : ((barrierRelease b)^[n] k).pc = k.pc := by
  induction n generalizing k with
  | zero => rfl
  | succ n ih => rw [iterate_succ_apply, ih, barrierRelease, pc_wakeOne]

theorem pc_semaphoreP (hne : t ≠ k.currentThread) : (semaphoreP s k).pc t = k.pc t := by
  unfold semaphoreP
  split <;> simp [sleepOn, goOutside, update_of_ne hne]

theorem pc_acquire (hne : t ≠ k.currentThread) : (acquire p l k).pc t = k.pc t := by
  unfold acquire
  split <;> simp [sleepOn, setHolding, goOutside, update_of_ne hne]

theorem pc_resume (hne : t ≠ k.currentThread) : (resume k).pc t = k.pc t := by
  unfold resume
  split
  case h_2 => exact pc_semaphoreP (k := destroy k) hne
  case h_3 | h_5 => exact pc_acquire (k := destroy k) hne
  all_goals simp [goOutside, destroy, update_of_ne hne]

theorem pc_call {a : Action} {f : Kernel → Kernel} (hf : call a = some f)
    (hne : t ≠ k.currentThread) : (f k).pc t = k.pc t := by
  cases a <;> simp only [call, Option.some.injEq, reduceCtorEq] at hf <;> subst hf
  case p => exact pc_semaphoreP hne
  case v => simp [semaphoreV]
  case acquire => exact pc_acquire hne
  case release => simp
  case wait =>
    unfold wait
    split <;> simp [sleepOn, noteWait, update_of_ne hne]
  case signal => unfold signal; split <;> simp
  case broadcast => unfold broadcast; split <;> simp
  case block =>
    unfold block
    dsimp only
    split <;> simp [sleepOn, update_of_ne hne]
  case finish => simp [finish, update_of_ne hne]

theorem acquire_of_returned (hw : p.InWait c l)
    (hn : ¬ ((acquire p l k).pc k.currentThread).InWait c l) :
    (acquire p l k).history.holding l k.currentThread = true ∧
      (acquire p l k).locked l = true ∧ (acquire p l k).owner l = some k.currentThread := by
  revert hn
  unfold acquire
  split
  · intro hn
    exact absurd (by simpa [sleepOn] using hw) hn
  · simp [setHolding, goOutside]

theorem resume_of_returned (hw : (k.pc t).InWait c l) (hn : ¬ ((resume k).pc t).InWait c l) :
    k.pc t ≠ .conditionWait c l ∧ (resume k).history.holding l t = true ∧
      (resume k).locked l = true ∧
      (resume k).owner l = some t := by
  by_cases he : t = k.currentThread
  · subst he
    revert hn
    unfold resume
    cases hp : k.pc k.currentThread with
    | conditionAcquire c' l' =>
      obtain ⟨rfl, rfl⟩ : c' = c ∧ l' = l := by simpa [hp, Pc.InWait] using hw
      exact fun hn => ⟨by simp, acquire_of_returned (k := destroy k) ⟨rfl, rfl⟩ hn⟩
    | _ => simp_all [destroy, Pc.InWait]
  · exact absurd (pc_resume he ▸ hw) hn

/-- A step by which a thread leaves `Wait` is not one from its `Sleep` there, and ends with
this thread holding the lock. -/
theorem wait_returned {a : Action} (hs : step k a = some k') (hw : (k.pc t).InWait c l)
    (hn : ¬ (k'.pc t).InWait c l) :
    k.pc t ≠ .conditionWait c l ∧ k'.history.holding l t = true ∧ k'.locked l = true ∧
      k'.owner l = some t := by
  cases a with
  | fork u =>
    simp only [step, Option.ite_none_right_eq_some, Option.some.injEq] at hs
    obtain ⟨-, rfl⟩ := hs
    exact absurd hw hn
  | yield =>
    simp only [step, Option.ite_none_right_eq_some, Option.some.injEq] at hs
    obtain ⟨-, rfl⟩ := hs
    cases hl : k.readyList with
    | nil =>
      rw [yield, hl] at hn
      exact absurd hw hn
    | cons u rest =>
      rw [yield_eq hl] at hn ⊢
      exact resume_of_returned (k := switchTo u _ (readyToRun k.currentThread k)) hw hn
  | reacquire =>
    simp only [step] at hs
    split at hs
    case h_1 c' l' hp =>
      simp only [Option.ite_none_right_eq_some, Option.some.injEq] at hs
      obtain ⟨-, rfl⟩ := hs
      by_cases he : t = k.currentThread
      · subst he
        obtain ⟨rfl, rfl⟩ : c' = c ∧ l' = l := by simpa [hp, Pc.InWait] using hw
        exact ⟨by simp [hp], acquire_of_returned ⟨rfl, rfl⟩ hn⟩
      · exact absurd (pc_acquire he ▸ hw) hn
    case h_2 => cases hs
  | dispatch =>
    simp only [step, Option.ite_none_left_eq_some] at hs
    cases hl : k.readyList with
    | nil => simp [dispatch, hl] at hs
    | cons u rest =>
      rw [dispatch_eq hl, Option.some.injEq] at hs
      obtain ⟨-, rfl⟩ := hs
      exact resume_of_returned (k := switchTo u rest k) hw hn
  | interruptV s =>
    simp only [step, Option.some.injEq] at hs
    subst hs
    exact absurd (by simpa [semaphoreV] using hw) hn
  | _ =>
    -- a thread that calls a routine is not inside `Wait`
    simp only [step, Option.ite_none_right_eq_some, Option.map_eq_some_iff] at hs
    obtain ⟨⟨-, hp⟩, f, hf, rfl⟩ := hs
    refine absurd ?_ hn
    rw [pc_call hf fun he => by simp [he, hp, Pc.InWait] at hw]
    exact hw

theorem wakeWaiting_iterate (n : ℕ) :
    ((wakeWaiting c)^[n] k).queue (.condition c) = (k.queue (.condition c)).drop n ∧
    ((wakeWaiting c)^[n] k).readyList = k.readyList ++ (k.queue (.condition c)).take n ∧
    (∀ t, ((wakeWaiting c)^[n] k).history.signalled t = true ↔
      k.history.signalled t = true ∨ t ∈ (k.queue (.condition c)).take n) ∧
    (∀ o, o ≠ .condition c → ((wakeWaiting c)^[n] k).queue o = k.queue o) := by
  induction n generalizing k with
  | zero => simp
  | succ n ih =>
    rw [iterate_succ_apply]
    obtain ⟨h₁, h₂, h₃, h₄⟩ := ih (k := wakeWaiting c k)
    rw [h₁, h₂]
    cases hq : k.queue (.condition c) with
    | nil =>
      have hk : wakeWaiting c k = k := by simp [wakeWaiting, hq]
      simp_all
    | cons t rest =>
      have hk : wakeWaiting c k = { wakeOne (.condition c) k with
          history := { k.history with signalled := update k.history.signalled t true } } := by
        simp [wakeWaiting, hq]
      have hw : wakeOne (.condition c) k =
          readyToRun t { k with queue := update k.queue (.condition c) rest } := by
        simp [wakeOne, hq]
      rw [hk, hw] at h₃ h₄ ⊢
      refine ⟨by simp [readyToRun], by simp [readyToRun], fun u => ?_, fun o ho => ?_⟩
      · rw [h₃ u]
        simp only [readyToRun, update_self, update_apply, List.take_succ_cons, List.mem_cons]
        split <;> simp_all
      · rw [h₄ o ho]
        simp [readyToRun, update_of_ne ho]

theorem isHeldByCurrentThread_of_holding (h : LockInv l k)
    (hl : k.history.holding l k.currentThread = true) : k.isHeldByCurrentThread l = true := by
  simp [isHeldByCurrentThread, ((h.holding _).mp hl).2]

theorem queue_release (c l : ℕ) : (release l k).queue (.condition c) = k.queue (.condition c) := by
  unfold release
  split
  · rfl
  · unfold wakeOne
    split <;> simp [setHolding, readyToRun]

theorem wait_call (h : LockInv l k) (hl : k.history.holding l k.currentThread = true)
    (hs : step k (.wait c l) = some k') :
    k'.pc k.currentThread = .conditionWait c l ∧ k'.history.holding l k.currentThread = false ∧
    k'.history.signalled k.currentThread = false ∧
    k'.queue (.condition c) = k.queue (.condition c) ++ [k.currentThread] := by
  simp only [step, Option.ite_none_right_eq_some, call, Option.map_some, Option.some.injEq] at hs
  obtain ⟨-, rfl⟩ := hs
  have hr := holding_release (l := l) (k := k)
  rw [currentThread_release] at hr
  have hq := queue_release (k := k) c l
  simp [wait, isHeldByCurrentThread_of_holding h hl, sleepOn, noteWait, hr, hq]

theorem signal_call (hi : ConditionInv k) (h : LockInv l k)
    (hl : k.history.holding l k.currentThread = true) (hs : step k (.signal c l) = some k') :
    (k.queue (.condition c) = [] → k' = k) ∧
    ∀ t rest, k.queue (.condition c) = t :: rest →
      (∀ u ∈ rest, k.history.waitTurn t < k.history.waitTurn u) ∧
      k'.queue = update k.queue (.condition c) rest ∧ k'.readyList = k.readyList ++ [t] ∧
      k'.history.signalled = update k.history.signalled t true := by
  simp only [step, Option.ite_none_right_eq_some, call, Option.map_some, Option.some.injEq] at hs
  obtain ⟨-, rfl⟩ := hs
  have hheld := isHeldByCurrentThread_of_holding h hl
  refine ⟨fun hq => by simp [signal, wakeWaiting, hheld, hq], fun t rest hq => ⟨?_, ?_⟩⟩
  · have hs := hi.sorted c
    rw [hq, List.pairwise_cons] at hs
    exact hs.1
  · simp [signal, wakeWaiting, wakeOne, readyToRun, hheld, hq]

theorem broadcast_call (h : LockInv l k) (hl : k.history.holding l k.currentThread = true)
    (hs : step k (.broadcast c l) = some k') :
    k'.queue = update k.queue (.condition c) [] ∧
    k'.readyList = k.readyList ++ k.queue (.condition c) ∧
    ∀ t, k'.history.signalled t = true ↔
      k.history.signalled t = true ∨ t ∈ k.queue (.condition c) := by
  simp only [step, Option.ite_none_right_eq_some, call, Option.map_some, Option.some.injEq] at hs
  obtain ⟨-, rfl⟩ := hs
  have hb : broadcast c l k = (wakeWaiting c)^[(k.queue (.condition c)).length] k := by
    simp [broadcast, isHeldByCurrentThread_of_holding h hl]
  obtain ⟨h₁, h₂, h₃, h₄⟩ := wakeWaiting_iterate (c := c) (k := k) (k.queue (.condition c)).length
  rw [hb]
  refine ⟨?_, by simpa using h₂, by simpa using h₃⟩
  funext o
  by_cases ho : o = .condition c
  · subst ho
    simpa using h₁
  · rw [h₄ o ho, update_of_ne ho]

/-- For any interleaving of the calls by threads that hold the lock: a thread inside `Wait` does
not hold the lock and is in the queue until a `Signal` or a `Broadcast` removes it; a call of
`Wait` joins the queue and gives up the lock in one step; a `Wait` returns only after such a
removal, and with the lock; `Signal` removes the thread that waits longest, if there is one, and
`Broadcast` removes each waiting thread once. -/
theorem condition_monitor (h : Reachable system k) (c l : ℕ) :
    (∀ t, (k.pc t).InWait c l → k.history.holding l t = false ∧
      (t ∈ k.queue (.condition c) ↔ k.history.signalled t = false)) ∧
    (∀ k', step k (.wait c l) = some k' → k.history.holding l k.currentThread = true →
      k'.pc k.currentThread = .conditionWait c l ∧
      k'.history.holding l k.currentThread = false ∧
      k'.history.signalled k.currentThread = false ∧
      k'.queue (.condition c) = k.queue (.condition c) ++ [k.currentThread]) ∧
    (∀ a k' t, step k a = some k' → (k.pc t).InWait c l → ¬ (k'.pc t).InWait c l →
      k.history.signalled t = true ∧ k'.history.holding l t = true ∧ k'.locked l = true ∧
      k'.owner l = some t) ∧
    (∀ k', step k (.signal c l) = some k' → k.history.holding l k.currentThread = true →
      (k.queue (.condition c) = [] → k' = k) ∧
      ∀ t rest, k.queue (.condition c) = t :: rest →
        (∀ u ∈ rest, k.history.waitTurn t < k.history.waitTurn u) ∧
        k'.queue = update k.queue (.condition c) rest ∧ k'.readyList = k.readyList ++ [t] ∧
        k'.history.signalled = update k.history.signalled t true) ∧
    (∀ k', step k (.broadcast c l) = some k' → k.history.holding l k.currentThread = true →
      k'.queue = update k.queue (.condition c) [] ∧
      k'.readyList = k.readyList ++ k.queue (.condition c) ∧ k'.readyList.Nodup ∧
      ∀ t, k'.history.signalled t = true ↔
        k.history.signalled t = true ∨ t ∈ k.queue (.condition c)) := by
  have hk := placed_of_reachable h
  have hi : ConditionInv k := ConditionInv.stable.reachable (fun _ => ConditionInv.of_initial) h
  have hl : LockInv l k := LockInv.of_reachable h
  refine ⟨fun t hw => ⟨hi.released t c l hw, hi.queued t c l hw⟩,
    fun k' hs hh => wait_call hl hh hs, fun a k' t hs hw hn => ?_,
    fun k' hs hh => signal_call hi hl hh hs, fun k' hs hh => ?_⟩
  · obtain ⟨hp, hr⟩ := wait_returned hs hw hn
    refine ⟨?_, hr⟩
    -- a thread in the queue is at the `Sleep` of `Wait`
    by_contra hf
    have ho := ((hk.queued t _).mp ((hi.queued t c l hw).mpr (by simpa using hf))).2
    cases hpt : k.pc t <;> simp_all [Pc.object, Pc.InWait]
  · obtain ⟨h₁, h₂, h₃⟩ := broadcast_call hl hh hs
    exact ⟨h₁, h₂, (placed_of_reachable (h.step hs)).readyList_nodup, h₃⟩

/-- Threads 0 and 1 wait and thread 2 signals: the first returns with the lock, the second stays. -/
theorem condition_monitor_signalled :
    ∃ k k', exec step (boot 0) [.fork 1, .fork 2, .acquire 0, .wait 0 0, .dispatch, .acquire 0,
        .wait 0 0, .dispatch, .acquire 0, .signal 0 0, .release 0, .yield] = some k ∧
      k.queue (.condition 0) = [1] ∧ step k .reacquire = some k' ∧
      k'.history.holding 0 0 = true := by
  obtain ⟨k, hk⟩ : ∃ k, exec step (boot 0) [.fork 1, .fork 2, .acquire 0, .wait 0 0, .dispatch,
      .acquire 0, .wait 0 0, .dispatch, .acquire 0, .signal 0 0, .release 0, .yield] = some k :=
    ⟨_, rfl⟩
  obtain ⟨k', hk'⟩ : ∃ k', step k .reacquire = some k' := by
    obtain rfl := Option.some.inj hk
    exact ⟨_, rfl⟩
  have hr : Reachable system k := ⟨_, _, initial_boot (by decide), run_ofStep_iff.mpr hk⟩
  have hw : (k.pc 0).InWait 0 0 ∧ k.queue (.condition 0) = [1] := by
    obtain rfl := Option.some.inj hk
    exact ⟨⟨rfl, rfl⟩, rfl⟩
  have hn : ¬ (k'.pc 0).InWait 0 0 := by
    obtain rfl := Option.some.inj hk
    obtain rfl := Option.some.inj hk'
    exact id
  exact ⟨k, k', hk, hw.2, hk',
    ((condition_monitor hr 0 0).2.2.1 .reacquire k' 0 hk' hw.1 hn).2.1⟩

end Nachos.Threads
