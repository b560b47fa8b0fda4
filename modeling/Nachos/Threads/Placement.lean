import Mathlib.Data.List.Nodup
import Mathlib.Tactic.Common
import Nachos.Threads.Kernel

/-! # Where the threads are

In every reachable state the status of a thread says on which list it is: a
ready thread is once on the ready list, a blocked one once in the queue of the
object it sleeps on, and only the current thread runs. An invariant that each
routine preserves on its own is preserved by every step.
-/

namespace Nachos.Threads

open Function Transition

structure Placed (k : Kernel) : Prop where
  ready : ∀ t, t ∈ k.readyList ↔ k.status t = .ready
  queued : ∀ t o, t ∈ k.queue o ↔ k.status t = .blocked ∧ (k.pc t).object = some o
  running : ∀ t, k.status t = .running → t = k.currentThread
  finished : ∀ t, k.pc t = .finished → k.status t = .blocked
  created : ∀ t, k.status t = .justCreated → k.pc t = .root
  readyList_nodup : k.readyList.Nodup
  queue_nodup : ∀ o, (k.queue o).Nodup

/-- Between two steps a running thread is outside the routines, or about to take the lock
again at the end of `Condition::Wait`. -/
def Settled (k : Kernel) : Prop :=
  k.status k.currentThread = .running →
    k.pc k.currentThread = .outside ∨ ∃ c l, k.pc k.currentThread = .conditionWoken c l

namespace Kernel

abbrev IsRunning (k : Kernel) : Prop := k.status k.currentThread = .running

def goTo (p : Pc) (k : Kernel) : Kernel := { k with pc := update k.pc k.currentThread p }

/-- `FindNextToRun` has returned the head of the ready list and `Run` switches to it. -/
def switchTo (t : ThreadId) (rest : List ThreadId) (k : Kernel) : Kernel :=
  { k with readyList := rest, currentThread := t, status := update k.status t .running }

end Kernel

open Kernel

variable {k k' : Kernel} {o : Object} {p : Pc} {t : ThreadId} {s l c b : ℕ}

theorem Placed.of_eq (h : Placed k) (hr : k'.readyList = k.readyList) (hq : k'.queue = k.queue)
    (hs : k'.status = k.status) (hc : k'.currentThread = k.currentThread)
    (hp : k'.pc = k.pc) : Placed k' := by
  obtain ⟨h₁, h₂, h₃, h₄, h₅, h₆, h₇⟩ := h
  constructor <;> simp only [hr, hq, hs, hc, hp] <;> assumption

theorem Placed.not_mem_queue (h : Placed k) (hr : k.IsRunning) (o : Object) :
    k.currentThread ∉ k.queue o := fun hm => by
  have := ((h.queued _ _).mp hm).1
  simp_all

theorem Placed.goTo (h : Placed k) (hr : k.IsRunning) (hp : p ≠ .finished) :
    Placed (k.goTo p) := by
  constructor
  · exact h.ready
  · intro t o
    have := h.queued t o
    simp only [Kernel.goTo, update_apply]
    split <;> simp_all
  · exact h.running
  · intro t
    have := h.finished t
    simp only [Kernel.goTo, update_apply]
    split <;> simp_all
  · intro t ht
    have hne : t ≠ k.currentThread := fun he => by simp_all [Kernel.goTo]
    simpa [Kernel.goTo, update_of_ne hne] using h.created t ht
  · exact h.readyList_nodup
  · exact h.queue_nodup

theorem Placed.sleepOn (h : Placed k) (hr : k.IsRunning) (hp : p.object = some o) :
    Placed (sleepOn p o k) := by
  have hq := h.not_mem_queue hr
  constructor
  · intro t
    simp only [Kernel.sleepOn, update_apply, h.ready]
    split <;> simp_all
  · intro t o'
    have := h.queued t o'
    simp only [Kernel.sleepOn, update_apply]
    grind
  · intro t
    simp only [Kernel.sleepOn, update_apply]
    split
    · simp
    · exact h.running t
  · intro t
    simp only [Kernel.sleepOn, update_apply]
    split
    · simp
    · exact h.finished t
  · intro t
    simp only [Kernel.sleepOn, update_apply]
    split
    · simp
    · exact h.created t
  · exact h.readyList_nodup
  · intro o'
    simp only [Kernel.sleepOn, update_apply]
    split
    · exact List.nodup_append_comm.mp (by simpa using ⟨hq o, h.queue_nodup o⟩)
    · exact h.queue_nodup o'

theorem Placed.wakeOne (h : Placed k) : Placed (wakeOne o k) := by
  unfold Kernel.wakeOne
  cases hq : k.queue o with
  | nil => exact h
  | cons t rest =>
    have hnd : t ∉ rest ∧ rest.Nodup := by simpa [hq] using h.queue_nodup o
    have ht : k.status t = .blocked ∧ (k.pc t).object = some o :=
      (h.queued t o).mp (by simp [hq])
    have hready : t ∉ k.readyList := fun hm => by simp [(h.ready t).mp hm] at ht
    constructor
    · intro u
      simp only [readyToRun, List.mem_append, List.mem_singleton, h.ready, update_apply]
      split <;> simp_all
    · intro u o'
      have hu := h.queued u o'
      simp only [readyToRun, update_apply]
      grind
    · intro u
      simp only [readyToRun, update_apply]
      split
      · simp
      · exact h.running u
    · intro u hu
      have hne : u ≠ t := by
        rintro rfl
        simp_all [readyToRun, Pc.object]
      simpa [readyToRun, update_of_ne hne] using h.finished u hu
    · intro u
      simp only [readyToRun, update_apply]
      split
      · simp
      · exact h.created u
    · exact List.nodup_append_comm.mp (by simpa [readyToRun] using ⟨hready, h.readyList_nodup⟩)
    · intro o'
      simp only [readyToRun, update_apply]
      split
      · exact hnd.2
      · exact h.queue_nodup o'

theorem Placed.readyToRun (h : Placed k)
    (ht : k.status t = .running ∨ k.status t = .justCreated) : Placed (readyToRun t k) := by
  have hready : t ∉ k.readyList := fun hm => by simp [(h.ready t).mp hm] at ht
  constructor
  · intro u
    simp only [Kernel.readyToRun, List.mem_append, List.mem_singleton, h.ready, update_apply]
    split <;> simp_all
  · intro u o
    have := h.queued u o
    simp only [Kernel.readyToRun, update_apply]
    split
    · rcases ht with ht | ht <;> simp_all
    · exact this
  · intro u
    simp only [Kernel.readyToRun, update_apply]
    split
    · simp
    · exact h.running u
  · intro u hu
    have hb := h.finished u hu
    have hne : u ≠ t := by
      rintro rfl
      simp_all
    simpa [Kernel.readyToRun, update_of_ne hne] using hb
  · intro u
    simp only [Kernel.readyToRun, update_apply]
    split
    · simp
    · exact h.created u
  · exact List.nodup_append_comm.mp
      (by simpa [Kernel.readyToRun] using ⟨hready, h.readyList_nodup⟩)
  · exact h.queue_nodup

theorem Placed.switchTo {rest : List ThreadId} (h : Placed k) (hr : ¬ k.IsRunning)
    (hl : k.readyList = t :: rest) : Placed (switchTo t rest k) := by
  have ht : k.status t = .ready := (h.ready t).mp (by simp [hl])
  have hnd : t ∉ rest ∧ rest.Nodup := by simpa [hl] using h.readyList_nodup
  constructor
  · intro u
    have := h.ready u
    simp only [Kernel.switchTo, update_apply]
    split <;> simp_all
  · intro u o
    have := h.queued u o
    simp only [Kernel.switchTo, update_apply]
    split <;> simp_all
  · intro u hu
    by_contra hne
    have hu' : k.status u = .running := by
      simpa [Kernel.switchTo, update_of_ne (show u ≠ t from hne)] using hu
    rw [h.running u hu'] at hu'
    exact hr hu'
  · intro u hu
    have hb := h.finished u hu
    have hne : u ≠ t := by
      rintro rfl
      simp_all
    simpa [Kernel.switchTo, update_of_ne hne] using hb
  · intro u
    simp only [Kernel.switchTo, update_apply]
    split
    · simp
    · exact h.created u
  · exact hnd.2
  · exact h.queue_nodup

theorem Placed.finish (h : Placed k) (hr : k.IsRunning) : Placed (finish k) := by
  have hq := h.not_mem_queue hr
  constructor
  · intro t
    simp only [Kernel.finish, update_apply, h.ready]
    split <;> simp_all
  · intro t o
    have := h.queued t o
    simp only [Kernel.finish, update_apply]
    split <;> simp_all [Pc.object]
  · intro t
    simp only [Kernel.finish, update_apply]
    split
    · simp
    · exact h.running t
  · intro t
    simp only [Kernel.finish, update_apply]
    split
    · simp
    · exact h.finished t
  · intro t
    simp only [Kernel.finish, update_apply]
    split
    · simp
    · exact h.created t
  · exact h.readyList_nodup
  · exact h.queue_nodup

/-! ## The routines -/

@[simp] theorem currentThread_wakeOne : (wakeOne o k).currentThread = k.currentThread := by
  unfold wakeOne; split <;> rfl

@[simp] theorem pc_wakeOne : (wakeOne o k).pc = k.pc := by
  unfold wakeOne; split <;> rfl

theorem Placed.isRunning_wakeOne (h : Placed k) (hr : k.IsRunning) :
    (Kernel.wakeOne o k).IsRunning := by
  have hq := h.not_mem_queue hr o
  unfold Kernel.wakeOne
  cases he : k.queue o with
  | nil => exact hr
  | cons t rest =>
    have hne : k.currentThread ≠ t := fun hc => hq (by simp [he, hc])
    simpa [IsRunning, Kernel.readyToRun, update_of_ne hne] using hr

theorem Placed.semaphoreP (h : Placed k) (hr : k.IsRunning) : Placed (semaphoreP s k) := by
  unfold Kernel.semaphoreP
  split
  · exact h.sleepOn hr rfl
  · exact (h.goTo (p := .outside) hr (by simp)).of_eq rfl rfl rfl rfl rfl

theorem Placed.semaphoreV (h : Placed k) : Placed (semaphoreV s k) :=
  h.wakeOne.of_eq rfl rfl rfl rfl rfl

theorem Placed.acquire (h : Placed k) (hr : k.IsRunning) (hp : p.object = some (.lock l)) :
    Placed (acquire p l k) := by
  unfold Kernel.acquire
  split
  · exact h.sleepOn hr hp
  · exact (h.goTo (p := .outside) hr (by simp)).of_eq rfl rfl rfl rfl rfl

theorem Placed.setHolding {v : Bool} (h : Placed k) : Placed (setHolding l v k) :=
  h.of_eq rfl rfl rfl rfl rfl

theorem Placed.release (h : Placed k) : Placed (release l k) := by
  unfold Kernel.release
  split
  · exact h.setHolding
  · exact h.setHolding.wakeOne.of_eq rfl rfl rfl rfl rfl

theorem Placed.isRunning_release (h : Placed k) (hr : k.IsRunning) :
    (Kernel.release l k).IsRunning := by
  unfold Kernel.release
  split
  · exact hr
  · exact h.setHolding.isRunning_wakeOne hr

@[simp] theorem currentThread_release : (release l k).currentThread = k.currentThread := by
  unfold release
  split
  · rfl
  · simp [setHolding]

@[simp] theorem pc_release : (release l k).pc = k.pc := by
  unfold release
  split
  · rfl
  · simp [setHolding]

@[simp] theorem history_wakeOne : (wakeOne o k).history = k.history := by
  unfold wakeOne; split <;> rfl

/-- After `Release` the current thread does not hold the lock, whether it did before or not. -/
theorem holding_release :
    (release l k).history.holding l (release l k).currentThread = false := by
  rw [currentThread_release]
  unfold release
  split <;> simp [setHolding]

theorem Placed.noteWait (h : Placed k) : Placed (noteWait k) := h.of_eq rfl rfl rfl rfl rfl

theorem Placed.wakeWaiting (h : Placed k) : Placed (wakeWaiting c k) := by
  unfold Kernel.wakeWaiting
  split
  · exact h
  · exact h.wakeOne.of_eq rfl rfl rfl rfl rfl

theorem Placed.isRunning_wakeWaiting (h : Placed k) (hr : k.IsRunning) :
    (Kernel.wakeWaiting c k).IsRunning := by
  unfold Kernel.wakeWaiting
  split
  · exact hr
  · exact h.isRunning_wakeOne hr

theorem Placed.setBlockCount {f : ℕ → ℤ} (h : Placed k) : Placed { k with blockCount := f } :=
  h.of_eq rfl rfl rfl rfl rfl

theorem Placed.destroy (h : Placed k) : Placed (destroy k) := h.of_eq rfl rfl rfl rfl rfl

/-- `Yield` puts the current thread at the end of the ready list and switches to its head. -/
theorem yield_eq {rest : List ThreadId} (hl : k.readyList = t :: rest) :
    yield k = resume (switchTo t (rest ++ [k.currentThread]) (readyToRun k.currentThread k)) := by
  simp [yield, hl, run, switchTo, readyToRun]

theorem dispatch_eq {rest : List ThreadId} (hl : k.readyList = t :: rest) :
    dispatch k = some (resume (switchTo t rest k)) := by
  simp [dispatch, hl, run, switchTo]

/-! ## Invariants of the steps -/

/-- A property that each routine preserves on its own, at the places from which it is
called or resumed. -/
structure Stable (I : Kernel → Prop) : Prop where
  semaphoreP : ∀ {k} s, Placed k → k.IsRunning →
    k.pc k.currentThread = .outside ∨ k.pc k.currentThread = .semaphoreP s →
    I k → I (semaphoreP s k)
  semaphoreV : ∀ {k} s, Placed k → I k → I (semaphoreV s k)
  acquire : ∀ {k} l, Placed k → k.IsRunning →
    k.pc k.currentThread = .outside ∨ k.pc k.currentThread = .lockAcquire l →
    I k → I (Kernel.acquire (.lockAcquire l) l k)
  reacquire : ∀ {k} c l, Placed k → k.IsRunning →
    k.pc k.currentThread = .conditionWoken c l ∨ k.pc k.currentThread = .conditionAcquire c l →
    I k → I (Kernel.acquire (.conditionAcquire c l) l k)
  release : ∀ {k} l, Placed k → k.IsRunning → k.pc k.currentThread = .outside →
    I k → I (release l k)
  wait : ∀ {k} c l, Placed k → k.IsRunning → k.pc k.currentThread = .outside →
    k.history.holding l k.currentThread = false → I k →
    I (sleepOn (.conditionWait c l) (.condition c) (noteWait k))
  wakeWaiting : ∀ {k} c, Placed k → k.IsRunning → I k → I (wakeWaiting c k)
  setBlockCount : ∀ {k} f, I k → I { k with blockCount := f }
  wakeBarrier : ∀ {k} b, Placed k → I k → I (wakeOne (.barrier b) k)
  sleepBarrier : ∀ {k} b, Placed k → k.IsRunning → k.pc k.currentThread = .outside → I k →
    I (sleepOn (.barrierBlock b) (.barrier b) k)
  leaveRoot : ∀ {k}, Placed k → k.IsRunning → k.pc k.currentThread = .root → I k →
    I (goTo .outside k)
  leaveBarrier : ∀ {k} b, Placed k → k.IsRunning → k.pc k.currentThread = .barrierBlock b → I k →
    I (goTo .outside k)
  leaveWait : ∀ {k} c l, Placed k → k.IsRunning → k.pc k.currentThread = .conditionWait c l →
    I k → I (goTo (.conditionWoken c l) k)
  destroy : ∀ {k}, I k → I (destroy k)
  switchTo : ∀ {k t rest}, Placed k → ¬ k.IsRunning → k.readyList = t :: rest → I k →
    I (switchTo t rest k)
  readyToRun : ∀ {k t}, Placed k → k.status t = .running ∨ k.status t = .justCreated → I k →
    I (readyToRun t k)
  finish : ∀ {k}, Placed k → k.IsRunning → k.pc k.currentThread = .outside → I k →
    I (finish k)

theorem Placed.stable : Stable Placed where
  semaphoreP _ h hr _ _ := h.semaphoreP hr
  semaphoreV _ h _ := h.semaphoreV
  acquire _ h hr _ _ := h.acquire hr rfl
  reacquire _ _ h hr _ _ := h.acquire hr rfl
  release _ h _ _ _ := h.release
  wait _ _ h hr _ _ _ := h.noteWait.sleepOn hr rfl
  wakeWaiting _ h _ _ := h.wakeWaiting
  setBlockCount _ h := h.setBlockCount
  wakeBarrier _ h _ := h.wakeOne
  sleepBarrier _ h hr _ _ := h.sleepOn hr rfl
  leaveRoot h hr _ _ := h.goTo hr (by simp)
  leaveBarrier _ h hr _ _ := h.goTo hr (by simp)
  leaveWait _ _ h hr _ _ := h.goTo hr (by simp)
  destroy h := h.destroy
  switchTo h hr hl _ := h.switchTo hr hl
  readyToRun h ht _ := h.readyToRun ht
  finish h hr _ _ := h.finish hr

namespace Stable

variable {I : Kernel → Prop}

theorem resume (hI : Stable I) (hk : Placed k) (hr : k.IsRunning) (h : I k) :
    I (resume k) := by
  have hd := hk.destroy
  unfold Kernel.resume
  split
  case h_1 hp => exact hI.leaveRoot hk hr hp h
  case h_2 hp => exact hI.semaphoreP _ hd hr (.inr hp) (hI.destroy h)
  case h_3 hp => exact hI.acquire _ hd hr (.inr hp) (hI.destroy h)
  case h_4 hp => exact hI.leaveWait _ _ hd hr hp (hI.destroy h)
  case h_5 hp => exact hI.reacquire _ _ hd hr (.inr hp) (hI.destroy h)
  case h_6 hp => exact hI.leaveBarrier _ hd hr hp (hI.destroy h)
  all_goals exact hI.destroy h

theorem waitCall (hI : Stable I) (hk : Placed k) (hr : k.IsRunning)
    (hp : k.pc k.currentThread = .outside) (h : I k) : I (Kernel.wait c l k) := by
  unfold Kernel.wait
  split
  · exact h
  · exact hI.wait _ _ hk.release (hk.isRunning_release hr) (by simpa using hp) holding_release
      (hI.release _ hk hr hp h)

theorem signalCall (hI : Stable I) (hk : Placed k) (hr : k.IsRunning) (h : I k) :
    I (Kernel.signal c l k) := by
  unfold Kernel.signal
  split
  · exact h
  · exact hI.wakeWaiting _ hk hr h

theorem wakeWaiting_iterate (hI : Stable I) (hk : Placed k) (hr : k.IsRunning) (h : I k)
    (n : ℕ) : I ((Kernel.wakeWaiting c)^[n] k) := by
  induction n generalizing k with
  | zero => exact h
  | succ n ih =>
    exact ih hk.wakeWaiting (hk.isRunning_wakeWaiting hr) (hI.wakeWaiting _ hk hr h)

theorem broadcastCall (hI : Stable I) (hk : Placed k) (hr : k.IsRunning) (h : I k) :
    I (Kernel.broadcast c l k) := by
  unfold Kernel.broadcast
  split
  · exact h
  · exact hI.wakeWaiting_iterate hk hr h _

theorem barrierRelease_iterate (hI : Stable I) (hk : Placed k) (h : I k) (n : ℕ) :
    I ((barrierRelease b)^[n] k) := by
  induction n generalizing k with
  | zero => exact h
  | succ n ih =>
    have hk' : Placed { k with blockCount := update k.blockCount b (k.blockCount b - 1) } :=
      hk.setBlockCount
    exact ih hk'.wakeOne (hI.wakeBarrier _ hk' (hI.setBlockCount _ h))

theorem blockCall (hI : Stable I) (hk : Placed k) (hr : k.IsRunning)
    (hp : k.pc k.currentThread = .outside) (h : I k) : I (block b k) := by
  have hk' : Placed { k with blockCount := update k.blockCount b (k.blockCount b + 1) } :=
    hk.setBlockCount
  unfold block
  dsimp only
  split
  · exact hI.barrierRelease_iterate hk' (hI.setBlockCount _ h) _
  · exact hI.sleepBarrier _ hk' hr hp (hI.setBlockCount _ h)

theorem yieldCall (hI : Stable I) (hk : Placed k) (hr : k.IsRunning) (h : I k) :
    I (yield k) := by
  cases hl : k.readyList with
  | nil => simpa [yield, hl] using h
  | cons t rest =>
    rw [yield_eq hl]
    have hk' := hk.readyToRun (.inl hr)
    have hr' : ¬ (Kernel.readyToRun k.currentThread k).IsRunning := by
      simp [IsRunning, Kernel.readyToRun]
    have hl' : (Kernel.readyToRun k.currentThread k).readyList =
        t :: (rest ++ [k.currentThread]) := by
      simp [Kernel.readyToRun, hl]
    exact hI.resume (hk'.switchTo hr' hl') (by simp [IsRunning, Kernel.switchTo])
      (hI.switchTo hk' hr' hl' (hI.readyToRun hk (.inl hr) h))

theorem dispatchCall (hI : Stable I) (hk : Placed k) (hr : ¬ k.IsRunning) (h : I k)
    (hd : dispatch k = some k') : I k' := by
  cases hl : k.readyList with
  | nil => simp [dispatch, hl] at hd
  | cons t rest =>
    rw [dispatch_eq hl] at hd
    obtain rfl := Option.some.inj hd
    exact hI.resume (hk.switchTo hr hl) (by simp [IsRunning, Kernel.switchTo])
      (hI.switchTo hk hr hl h)

theorem step {a : Action} (hI : Stable I) (hk : Placed k) (h : I k)
    (hs : k.step a = some k') : I k' := by
  cases a with
  | fork t =>
    simp only [Kernel.step, Option.ite_none_right_eq_some, Option.some.injEq] at hs
    obtain ⟨⟨-, ht⟩, rfl⟩ := hs
    exact hI.readyToRun hk (.inr ht) h
  | yield =>
    simp only [Kernel.step, Option.ite_none_right_eq_some, Option.some.injEq] at hs
    obtain ⟨hr, rfl⟩ := hs
    exact hI.yieldCall hk hr h
  | reacquire =>
    simp only [Kernel.step] at hs
    split at hs
    case h_1 c l hp =>
      simp only [Option.ite_none_right_eq_some, Option.some.injEq] at hs
      obtain ⟨hr, rfl⟩ := hs
      exact hI.reacquire _ _ hk hr (.inl hp) h
    case h_2 => cases hs
  | dispatch =>
    simp only [Kernel.step, Option.ite_none_left_eq_some] at hs
    exact hI.dispatchCall hk hs.1 h hs.2
  | interruptV s =>
    simp only [Kernel.step, Option.some.injEq] at hs
    subst hs
    exact hI.semaphoreV _ hk h
  | _ =>
    -- the remaining actions are calls by the running thread
    simp only [Kernel.step, Option.ite_none_right_eq_some, call, Option.map_some,
      Option.some.injEq] at hs
    obtain ⟨⟨hr, hp⟩, rfl⟩ := hs
    first
    | exact hI.semaphoreP _ hk hr (.inl hp) h
    | exact hI.semaphoreV _ hk h
    | exact hI.acquire _ hk hr (.inl hp) h
    | exact hI.release _ hk hr hp h
    | exact hI.waitCall hk hr hp h
    | exact hI.signalCall hk hr h
    | exact hI.broadcastCall hk hr h
    | exact hI.blockCall hk hr hp h
    | exact hI.finish hk hr hp h

end Stable

theorem Initial.placed (h : Kernel.Initial k) : Placed k := by
  have hs := h.status
  have hp := h.pc
  constructor
  · intro t; rw [h.readyList, hs]; split <;> simp
  · intro t o; rw [h.queue, hs]; split <;> simp
  · intro t; rw [hs]; split <;> simp_all
  · intro t; rw [hp]; split <;> simp
  · intro t; rw [hs, hp]; split <;> simp
  · simp [h.readyList]
  · intro o; simp [h.queue]

/-- In every reachable state the status of each thread agrees with the lists it is on. -/
theorem placed_of_reachable (h : Reachable system k) : Placed k :=
  h.invariant (P := Placed) (fun _ hk => Initial.placed hk)
    fun _ _ _ hk hs => Placed.stable.step hk hk hs

/-- An invariant of the routines is preserved by every run. -/
theorem Stable.run {I : Kernel → Prop} {as : List Action} (hI : Stable I)
    (h : Run system k as k') (hk : Placed k) (h₀ : I k) : I k' :=
  (h.preserves (P := fun k => Placed k ∧ I k)
    (fun _ _ _ hk hs => ⟨Placed.stable.step hk.1 hk.1 hs, hI.step hk.1 hk.2 hs⟩) ⟨hk, h₀⟩).2

/-- An invariant of the routines that holds initially holds in every reachable state. -/
theorem Stable.reachable {I : Kernel → Prop} (hI : Stable I) (h₀ : ∀ k, Initial k → I k)
    (h : Reachable system k) : I k := by
  obtain ⟨k₀, as, hi, hr⟩ := h
  exact hI.run hr (Initial.placed hi) (h₀ k₀ hi)

/-! ## A running thread is outside the routines -/

theorem settled_sleepOn : Settled (sleepOn p o k) := by simp [Settled, sleepOn]

theorem settled_goOutside : Settled (goOutside k) := by simp [Settled, goOutside]

theorem settled_semaphoreP : Settled (semaphoreP s k) := by
  unfold semaphoreP
  split
  · exact settled_sleepOn
  · simp [Settled, goOutside]

theorem settled_acquire : Settled (acquire p l k) := by
  unfold acquire
  split
  · exact settled_sleepOn
  · simp [Settled, goOutside, setHolding]

theorem settled_resume (hk : Placed k) (hr : k.IsRunning) : Settled (resume k) := by
  unfold resume
  split
  · exact settled_goOutside
  · exact settled_semaphoreP
  · exact settled_acquire
  · simp [Settled, destroy]
  · exact settled_acquire
  · exact settled_goOutside
  · simp_all [Settled, destroy]
  · simp_all [Settled, destroy]
  · have := hk.finished _ ‹_›
    simp_all

theorem Settled.of_pc (h : Settled k) (hc : k'.currentThread = k.currentThread)
    (hp : k'.pc = k.pc) (hr : k'.IsRunning → k.IsRunning) : Settled k' := by
  intro hk
  rw [hc, hp]
  exact h (hr hk)

theorem isRunning_of_wakeOne (h : (wakeOne o k).IsRunning) : k.IsRunning := by
  unfold wakeOne at h
  split at h
  · exact h
  · simp only [IsRunning, readyToRun, update_apply] at h
    split at h
    · cases h
    · exact h

theorem Settled.wakeOne (h : Settled k) : Settled (wakeOne o k) :=
  h.of_pc (by simp) (by simp) isRunning_of_wakeOne

theorem Settled.semaphoreV (h : Settled k) : Settled (semaphoreV s k) :=
  (h.wakeOne (o := .semaphore s)).of_pc rfl rfl id

theorem Settled.release (h : Settled k) : Settled (release l k) := by
  have h' : Settled (setHolding l false k) := h
  unfold Kernel.release
  split
  · exact h'
  · exact (h'.wakeOne (o := .lock l)).of_pc rfl rfl id

theorem Settled.wakeWaiting (h : Settled k) : Settled (wakeWaiting c k) := by
  unfold Kernel.wakeWaiting
  split
  · exact h
  · exact (h.wakeOne (o := .condition c)).of_pc rfl rfl id

theorem Settled.wakeWaiting_iterate (h : Settled k) (n : ℕ) :
    Settled ((Kernel.wakeWaiting c)^[n] k) := by
  induction n generalizing k with
  | zero => exact h
  | succ n ih => exact ih h.wakeWaiting

theorem Settled.barrierRelease_iterate (h : Settled k) (n : ℕ) :
    Settled ((barrierRelease b)^[n] k) := by
  induction n generalizing k with
  | zero => exact h
  | succ n ih =>
    have h' : Settled { k with blockCount := update k.blockCount b (k.blockCount b - 1) } := h
    exact ih h'.wakeOne

theorem Settled.block (h : Settled k) : Settled (block b k) := by
  have h' : Settled { k with blockCount := update k.blockCount b (k.blockCount b + 1) } := h
  unfold Kernel.block
  dsimp only
  split
  · exact h'.barrierRelease_iterate _
  · exact settled_sleepOn

theorem Settled.step {a : Action} (h : Settled k) (hk : Placed k) (hs : k.step a = some k') :
    Settled k' := by
  have hsw : ∀ {k : Kernel} {t rest}, Placed k → ¬ k.IsRunning → k.readyList = t :: rest →
      Settled (resume (switchTo t rest k)) := fun hk hr hl =>
    settled_resume (hk.switchTo hr hl) (by simp [IsRunning, switchTo])
  cases a with
  | fork t =>
    simp only [Kernel.step, Option.ite_none_right_eq_some, Option.some.injEq] at hs
    obtain ⟨⟨-, ht⟩, rfl⟩ := hs
    refine h.of_pc rfl rfl fun hr => ?_
    simp only [IsRunning, readyToRun, update_apply] at hr
    split at hr
    · cases hr
    · exact hr
  | yield =>
    simp only [Kernel.step, Option.ite_none_right_eq_some, Option.some.injEq] at hs
    obtain ⟨hr, rfl⟩ := hs
    cases hl : k.readyList with
    | nil => simpa [yield, hl] using h
    | cons t rest =>
      rw [yield_eq hl]
      exact hsw (hk.readyToRun (.inl hr)) (by simp [IsRunning, readyToRun])
        (by simp [readyToRun, hl])
  | reacquire =>
    simp only [Kernel.step] at hs
    split at hs
    case h_1 c l hp =>
      simp only [Option.ite_none_right_eq_some, Option.some.injEq] at hs
      obtain ⟨-, rfl⟩ := hs
      exact settled_acquire
    case h_2 => cases hs
  | dispatch =>
    simp only [Kernel.step, Option.ite_none_left_eq_some] at hs
    cases hl : k.readyList with
    | nil => simp [dispatch, hl] at hs
    | cons t rest =>
      rw [dispatch_eq hl, Option.some.injEq] at hs
      exact hs.2 ▸ hsw hk hs.1 hl
  | interruptV s =>
    simp only [Kernel.step, Option.some.injEq] at hs
    subst hs
    exact h.semaphoreV
  | _ =>
    simp only [Kernel.step, Option.ite_none_right_eq_some, call, Option.map_some,
      Option.some.injEq] at hs
    obtain ⟨-, rfl⟩ := hs
    first
    | exact settled_semaphoreP
    | exact h.semaphoreV
    | exact settled_acquire
    | exact h.release
    | (unfold wait; split; exacts [h, settled_sleepOn])
    | (unfold signal; split; exacts [h, h.wakeWaiting])
    | (unfold broadcast; split; exacts [h, h.wakeWaiting_iterate _])
    | exact h.block
    | simp [Settled, finish]

theorem settled_of_reachable (h : Reachable system k) : Settled k :=
  (h.invariant (P := fun k => Placed k ∧ Settled k)
    (fun k hk => ⟨Initial.placed hk, fun _ => .inl (by simp [hk.pc])⟩)
    fun _ _ _ hk hs => ⟨Placed.stable.step hk.1 hk.1 hs, hk.2.step hk.1 hs⟩).2

/-- A thread in the loop of a routine that is not blocked has been taken off the queue and
waits on the ready list to test again. -/
theorem ready_of_not_blocked (h : Reachable system k) (ho : (k.pc t).object = some o)
    (hb : k.status t ≠ .blocked) : t ∈ k.readyList := by
  have hk := placed_of_reachable h
  rw [hk.ready]
  cases hs : k.status t with
  | justCreated => simp [hk.created t hs, Pc.object] at ho
  | running =>
    have he := hk.running t hs
    subst he
    rcases settled_of_reachable h hs with hp | ⟨c, l, hp⟩ <;> simp [hp, Pc.object] at ho
  | ready => rfl
  | blocked => exact absurd hs hb

end Nachos.Threads
