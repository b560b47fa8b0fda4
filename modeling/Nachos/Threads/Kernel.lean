import Mathlib.Logic.Function.Basic
import Mathlib.Logic.Function.Iterate
import Mathlib.Data.Int.Notation
import Nachos.Library.Transition

/-! # Threads, the scheduler and the synchronisation routines

The kernel runs one thread at a time. Simulated time advances, and with it the
running thread can be preempted, only where `Interrupt::SetLevel` turns the
interrupts back on, so the code from one such point to the next is one step.
A step also ends at `Thread::Sleep`; the rest of the routine is run when the
scheduler dispatches the thread again. Interrupt handlers run between steps,
or while `Sleep` idles because no thread is ready.
-/

namespace Nachos.Threads

open Function

abbrev ThreadId := ℕ

inductive ThreadStatus | justCreated | running | ready | blocked
  deriving DecidableEq, Repr

inductive Object
  | semaphore (s : ℕ)
  | lock (l : ℕ)
  | condition (c : ℕ)
  | barrier (b : ℕ)
  deriving DecidableEq, Repr

inductive Pc
  /-- In `ThreadRoot`: the thread has not run yet. -/
  | root
  /-- In the code of the thread, outside the routines below. -/
  | outside
  /-- At the `Sleep` in `Semaphore::P`. -/
  | semaphoreP (s : ℕ)
  /-- At the `Sleep` in `Lock::Acquire`. -/
  | lockAcquire (l : ℕ)
  /-- At the `Sleep` in `Condition::Wait`. -/
  | conditionWait (c l : ℕ)
  /-- Back from that `Sleep`, before `conditionLock->Acquire()`. -/
  | conditionWoken (c l : ℕ)
  /-- At the `Sleep` in the `Acquire` that `Condition::Wait` ends with. -/
  | conditionAcquire (c l : ℕ)
  /-- At the `Sleep` in `Barrier::block`. -/
  | barrierBlock (b : ℕ)
  /-- At the `Sleep` in `Thread::Finish`. -/
  | finished
  deriving DecidableEq, Repr

/-- The object whose queue a thread joins before it sleeps at this place. -/
def Pc.object : Pc → Option Object
  | .semaphoreP s => some (.semaphore s)
  | .lockAcquire l => some (.lock l)
  | .conditionWait c _ => some (.condition c)
  | .conditionAcquire _ l => some (.lock l)
  | .barrierBlock b => some (.barrier b)
  | _ => none

structure Lock where
  locked : Bool
  owner : Option ThreadId
  deriving DecidableEq

namespace Lock

/-- A call of `Acquire` by the thread does not sleep. -/
def admits (t : ThreadId) (lock : Lock) : Bool := !lock.locked || lock.owner == some t

def acquired (t : ThreadId) : Lock := ⟨true, some t⟩

/-- `Release`, which does nothing unless the thread is the owner. -/
def release (t : ThreadId) (lock : Lock) : Lock :=
  if lock.owner == some t then ⟨false, none⟩ else lock

end Lock

structure History where
  /-- The thread is between a return from `Acquire` and its next `Release` of the lock. -/
  holding : ℕ → ThreadId → Bool
  completedP : ℕ → ℕ
  completedV : ℕ → ℕ
  /-- A `Signal` or `Broadcast` removed the thread since it last joined a condition's queue. -/
  signalled : ThreadId → Bool
  /-- The turn in which the thread last joined a condition's queue. -/
  waitTurn : ThreadId → ℕ
  turns : ℕ

structure Kernel where
  currentThread : ThreadId
  status : ThreadId → ThreadStatus
  pc : ThreadId → Pc
  readyList : List ThreadId
  /-- The `queue` of each synchronisation object. -/
  queue : Object → List ThreadId
  /-- `Semaphore::value`. -/
  value : ℕ → ℤ
  locked : ℕ → Bool
  owner : ℕ → Option ThreadId
  blockUntil : ℕ → ℤ
  blockCount : ℕ → ℤ
  threadToBeDestroyed : Option ThreadId
  history : History

namespace Kernel

/-- `Scheduler::ReadyToRun`. -/
def readyToRun (t : ThreadId) (k : Kernel) : Kernel :=
  { k with status := update k.status t .ready, readyList := k.readyList ++ [t] }

/-- Join the queue of an object and call `Thread::Sleep`, up to the loop in it. -/
def sleepOn (p : Pc) (o : Object) (k : Kernel) : Kernel :=
  { k with
    queue := update k.queue o (k.queue o ++ [k.currentThread])
    status := update k.status k.currentThread .blocked
    pc := update k.pc k.currentThread p }

def wakeOne (o : Object) (k : Kernel) : Kernel :=
  match k.queue o with
  | [] => k
  | t :: rest => readyToRun t { k with queue := update k.queue o rest }

def goOutside (k : Kernel) : Kernel :=
  { k with pc := update k.pc k.currentThread .outside }

/-! ## Semaphores -/

/-- The loop test of `Semaphore::P` and what follows it. -/
def semaphoreP (s : ℕ) (k : Kernel) : Kernel :=
  if k.value s = 0 then sleepOn (.semaphoreP s) (.semaphore s) k
  else
    { goOutside k with
      value := update k.value s (k.value s - 1)
      history := { k.history with
        completedP := update k.history.completedP s (k.history.completedP s + 1) } }

def semaphoreV (s : ℕ) (k : Kernel) : Kernel :=
  let k' := wakeOne (.semaphore s) k
  { k' with
    value := update k'.value s (k'.value s + 1)
    history := { k'.history with
      completedV := update k'.history.completedV s (k'.history.completedV s + 1) } }

/-! ## Locks -/

/-- `Lock::isHeldByCurrentThread`: it compares the owner and does not look at `locked`. -/
def isHeldByCurrentThread (l : ℕ) (k : Kernel) : Bool :=
  k.owner l == some k.currentThread

def setHolding (l : ℕ) (b : Bool) (k : Kernel) : Kernel :=
  { k with history := { k.history with
      holding := update k.history.holding l (update (k.history.holding l) k.currentThread b) } }

/-- The loop test of `Lock::Acquire` and what follows it; `p` is the place of its `Sleep`. -/
def acquire (p : Pc) (l : ℕ) (k : Kernel) : Kernel :=
  if k.locked l && !k.isHeldByCurrentThread l then sleepOn p (.lock l) k
  else
    setHolding l true
      { goOutside k with
        locked := update k.locked l true
        owner := update k.owner l (some k.currentThread) }

def release (l : ℕ) (k : Kernel) : Kernel :=
  if !k.isHeldByCurrentThread l then setHolding l false k
  else
    let k' := wakeOne (.lock l) (setHolding l false k)
    { k' with locked := update k'.locked l false, owner := update k'.owner l none }

def lock (l : ℕ) (k : Kernel) : Lock := ⟨k.locked l, k.owner l⟩

theorem lock_acquire {p : Pc} {l : ℕ} {k : Kernel} : (k.acquire p l).lock l =
    if (k.lock l).admits k.currentThread then .acquired k.currentThread else k.lock l := by
  have htest : (k.locked l && !k.isHeldByCurrentThread l) =
      !(k.lock l).admits k.currentThread := by
    simp [Lock.admits, lock, isHeldByCurrentThread]
  rw [acquire, htest]
  cases (k.lock l).admits k.currentThread
  · rfl
  · simp [lock, setHolding, Lock.acquired]

theorem lock_release {l : ℕ} {k : Kernel} :
    (k.release l).lock l = (k.lock l).release k.currentThread := by
  by_cases h : k.isHeldByCurrentThread l = true
  · simp [release, h, lock, Lock.release, show (k.owner l == some k.currentThread) = true from h]
  · rw [Bool.not_eq_true] at h
    simp [release, h, lock, Lock.release, setHolding,
      show (k.owner l == some k.currentThread) = false from h]

/-! ## Condition variables -/

def noteWait (k : Kernel) : Kernel :=
  { k with history := { k.history with
      signalled := update k.history.signalled k.currentThread false
      waitTurn := update k.history.waitTurn k.currentThread k.history.turns
      turns := k.history.turns + 1 } }

/-- `Condition::Wait`, up to its `Sleep`. -/
def wait (c l : ℕ) (k : Kernel) : Kernel :=
  if k.isHeldByCurrentThread l = false then k
  else sleepOn (.conditionWait c l) (.condition c) (noteWait (release l k))

def wakeWaiting (c : ℕ) (k : Kernel) : Kernel :=
  match k.queue (.condition c) with
  | [] => k
  | t :: _ =>
    let k' := wakeOne (.condition c) k
    { k' with history := { k'.history with signalled := update k'.history.signalled t true } }

/-- `Condition::Signal`. -/
def signal (c l : ℕ) (k : Kernel) : Kernel :=
  if !k.isHeldByCurrentThread l then k else wakeWaiting c k

/-- `Condition::Broadcast`: its loop runs once for each thread of the queue. -/
def broadcast (c l : ℕ) (k : Kernel) : Kernel :=
  if k.isHeldByCurrentThread l = false then k
  else (wakeWaiting c)^[(k.queue (.condition c)).length] k

/-! ## Barriers -/

/-- One turn of the releasing loop of `Barrier::block`. -/
def barrierRelease (b : ℕ) (k : Kernel) : Kernel :=
  wakeOne (.barrier b) { k with blockCount := update k.blockCount b (k.blockCount b - 1) }

/-- `Barrier::block`. -/
def block (b : ℕ) (k : Kernel) : Kernel :=
  let k' := { k with blockCount := update k.blockCount b (k.blockCount b + 1) }
  if k'.blockCount b ≥ k'.blockUntil b then
    (barrierRelease b)^[(k'.blockCount b).toNat] k'
  else sleepOn (.barrierBlock b) (.barrier b) k'

/-! ## Dispatching -/

/-- `delete threadToBeDestroyed`, after `SWITCH` has returned. -/
def destroy (k : Kernel) : Kernel := { k with threadToBeDestroyed := none }

/-- The dispatched thread goes on, up to the end of its step. A thread that runs for the
first time starts in `ThreadRoot` and not behind `SWITCH`. -/
def resume (k : Kernel) : Kernel :=
  match k.pc k.currentThread with
  | .root => goOutside k
  | .semaphoreP s => semaphoreP s (destroy k)
  | .lockAcquire l => acquire (.lockAcquire l) l (destroy k)
  | .conditionWait c l =>
    { destroy k with pc := update k.pc k.currentThread (.conditionWoken c l) }
  | .conditionAcquire c l => acquire (.conditionAcquire c l) l (destroy k)
  | .barrierBlock _ => goOutside (destroy k)
  | .outside | .conditionWoken _ _ | .finished => destroy k

/-- `Scheduler::Run`, and the code of the dispatched thread. -/
def run (t : ThreadId) (k : Kernel) : Kernel :=
  resume { k with currentThread := t, status := update k.status t .running }

/-- The loop of `Thread::Sleep`, once a thread is ready. -/
def dispatch (k : Kernel) : Option Kernel :=
  match k.readyList with
  | [] => none
  | t :: rest => some (run t { k with readyList := rest })

def yield (k : Kernel) : Kernel :=
  match k.readyList with
  | [] => k
  | t :: rest => run t (readyToRun k.currentThread { k with readyList := rest })

/-- `Thread::Finish`, up to the loop in `Sleep`. -/
def finish (k : Kernel) : Kernel :=
  { k with
    threadToBeDestroyed := some k.currentThread
    status := update k.status k.currentThread .blocked
    pc := update k.pc k.currentThread .finished }

end Kernel

inductive Action
  | p (s : ℕ)
  | v (s : ℕ)
  | acquire (l : ℕ)
  | release (l : ℕ)
  | wait (c l : ℕ)
  | signal (c l : ℕ)
  | broadcast (c l : ℕ)
  | block (b : ℕ)
  | fork (t : ThreadId)
  | finish
  /-- `Thread::Yield`, called by the thread or on return from the timer interrupt. -/
  | yield
  /-- `Condition::Wait` goes on with `conditionLock->Acquire()`. -/
  | reacquire
  /-- The loop of `Thread::Sleep` finds a ready thread. -/
  | dispatch
  /-- An interrupt handler calls `Semaphore::V`. -/
  | interruptV (s : ℕ)
  deriving DecidableEq, Repr

namespace Kernel

/-- The current thread runs and can call a routine. -/
def AtCall (k : Kernel) : Prop :=
  k.status k.currentThread = .running ∧ k.pc k.currentThread = .outside

instance (k : Kernel) : Decidable k.AtCall :=
  inferInstanceAs (Decidable (_ ∧ _))

/-- The routine that a thread calls, for the actions that are calls. -/
def call : Action → Option (Kernel → Kernel)
  | .p s => some (semaphoreP s)
  | .v s => some (semaphoreV s)
  | .acquire l => some (Kernel.acquire (.lockAcquire l) l)
  | .release l => some (Kernel.release l)
  | .wait c l => some (Kernel.wait c l)
  | .signal c l => some (Kernel.signal c l)
  | .broadcast c l => some (Kernel.broadcast c l)
  | .block b => some (Kernel.block b)
  | .finish => some Kernel.finish
  | _ => none

/-- The effect of an action, where it is possible. -/
def step (k : Kernel) (a : Action) : Option Kernel :=
  match a with
  | .fork t => if k.AtCall ∧ k.status t = .justCreated then some (readyToRun t k) else none
  | .yield => if k.status k.currentThread = .running then some (Kernel.yield k) else none
  | .reacquire =>
    match k.pc k.currentThread with
    | .conditionWoken c l =>
      if k.status k.currentThread = .running then
        some (Kernel.acquire (.conditionAcquire c l) l k)
      else none
    | _ => none
  | .dispatch => if k.status k.currentThread = .running then none else Kernel.dispatch k
  -- one `Idle` may call several handlers, so a thread can be ready already when it idles
  | .interruptV s => some (semaphoreV s k)
  | a => if k.AtCall then (call a).map (· k) else none

/-- The kernel after start-up: only the main thread runs. The owner of a lock is whatever
the memory held, since the constructor of `Lock` does not set it. -/
structure Initial (k : Kernel) : Prop where
  status : ∀ t, k.status t = if t = k.currentThread then .running else .justCreated
  pc : ∀ t, k.pc t = if t = k.currentThread then .outside else .root
  readyList : k.readyList = []
  queue : ∀ o, k.queue o = []
  value : ∀ s, 0 ≤ k.value s
  locked : ∀ l, k.locked l = false
  blockCount : ∀ b, k.blockCount b = 0
  threadToBeDestroyed : k.threadToBeDestroyed = none
  holding : ∀ l t, k.history.holding l t = false
  completedP : ∀ s, k.history.completedP s = 0
  completedV : ∀ s, k.history.completedV s = 0

def system : Transition.System Kernel Action := .ofStep Initial step

def boot (value : ℤ) : Kernel where
  currentThread := 0
  status t := if t = 0 then .running else .justCreated
  pc t := if t = 0 then .outside else .root
  readyList := []
  queue _ := []
  value _ := value
  locked _ := false
  owner _ := none
  blockUntil _ := 1
  blockCount _ := 0
  threadToBeDestroyed := none
  history :=
    { holding := fun _ _ => false
      completedP := fun _ => 0
      completedV := fun _ => 0
      signalled := fun _ => false
      waitTurn := fun _ => 0
      turns := 0 }

theorem initial_boot {value : ℤ} (h : 0 ≤ value) : Initial (boot value) := by
  constructor
  case value => exact fun _ => h
  all_goals first | exact fun _ => rfl | exact fun _ _ => rfl | rfl

end Kernel

end Nachos.Threads
