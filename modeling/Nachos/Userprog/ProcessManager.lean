import Nachos.Threads.Observed
import Nachos.Userprog.BitMap

/-! # Process ids, exit and join

`getPID` makes a lock and a condition for a new process and puts them into
tables under its id. A process that exits frees its id and wakes the threads
that wait on its condition; `join` waits on it in any case. The routines look
into the tables again at every statement. Between two statements other threads
may run, also where the kernel has turned interrupts off.
-/

namespace Nachos.Userprog

open Function Transition Threads

def MAX_PROCS : ℕ := 10

namespace ProcessManager

/-- The statement that a thread runs next, or is in. A process stands for itself also when its id
is in use again. -/
inductive Place
  /-- Outside the routines. -/
  | outside
  /-- `getPID`: `bitLock->Acquire()` has been called, `bitmap->Find()` and `bitLock->Release()` are
  next. -/
  | getPID
  /-- `getPID`: the new objects are next. -/
  | found (pid : ℕ)
  /-- `clearPID`: `lockTable[pid]->Acquire()` has been called, `Broadcast` is next. -/
  | clearPID (q : ℕ)
  /-- `clearPID`: `lockTable[pid]->Release()` is next. -/
  | broadcast (q : ℕ)
  /-- `join`: `lockTable[pid]->Acquire()` has been called, `Wait` is next. -/
  | join (q : ℕ)
  /-- `join`: `Wait` has been called, `lockTable[pid]->Release()` is next. -/
  | waiting (q : ℕ)
  /-- `join`: `returnStatus[pid]` is next. -/
  | joined (q : ℕ)
  deriving DecidableEq

/-- The process whose `clearPID` or `join` the thread is in. -/
def Place.process : Place → Option ℕ
  | .clearPID q | .broadcast q | .join q | .waiting q | .joined q => some q
  | .outside | .getPID | .found _ => none

inductive Life
  | live
  /-- Thread `t` has called `Exit`, and `Broadcast` is still to come. -/
  | exiting (t : ThreadId) (exitStatus : ℤ)
  | exited (exitStatus : ℤ)
  deriving DecidableEq

structure State where
  kernel : Kernel
  bitmap : BitMap
  /-- The number of this lock; the locks and conditions from here on are the manager's. -/
  bitLock : ℕ
  /-- The number of the next process, and of its lock and its condition. -/
  next : ℕ
  lockTable : ℕ → Option ℕ
  conditionTable : ℕ → Option ℕ
  returnStatus : ℕ → ℤ
  place : ThreadId → Place
  /-- The id of each process. -/
  pid : ℕ → ℕ
  life : ℕ → Life
  /-- What `join` has returned so far, with the process that was meant. -/
  returned : List (ℕ × ℤ)

inductive Action
  /-- A step of the kernel that is no step of the manager's routines. -/
  | other (a : Threads.Action)
  /-- The current thread calls `getPID`. -/
  | getPID
  /-- The current thread calls `setExitStatus` and `clearPID` for a process. -/
  | exit (q : ℕ) (exitStatus : ℤ)
  /-- The current thread calls `join` with the id of a process. -/
  | join (q : ℕ)
  /-- The current thread runs its next statement. -/
  | advance

/-- The object is none of the manager's, whose numbers start at `b`. -/
def Foreign (b : ℕ) : Object → Prop
  | .lock l => l < b
  | .condition c => c < b
  | .semaphore _ | .barrier _ => True

instance (b : ℕ) : ∀ o, Decidable (Foreign b o)
  | .lock _ | .condition _ => inferInstanceAs (Decidable (_ < _))
  | .semaphore _ | .barrier _ => .isTrue trivial

namespace State

def Created (s : State) (q : ℕ) : Prop := s.bitLock < q ∧ q < s.next

instance (s : State) (q : ℕ) : Decidable (s.Created q) := inferInstanceAs (Decidable (_ ∧ _))

/-- The current thread calls a routine of the kernel and goes on at another place. -/
def call (a : Threads.Action) (p : Place) (s : State) : Option State :=
  (s.kernel.step a).map fun k =>
    { s with kernel := k, place := update s.place s.kernel.currentThread p }

def goTo (p : Place) (s : State) : State :=
  { s with place := update s.place s.kernel.currentThread p }

/-- The rest of `getPID`; without a free id it writes in front of the tables. -/
def find (s : State) : Option State :=
  s.bitmap.find.bind fun (pid, bitmap) =>
    call (.release s.bitLock) (.found pid) { s with bitmap := bitmap }

def create (pid : ℕ) (s : State) : State :=
  goTo .outside { s with
    conditionTable := update s.conditionTable pid (some s.next)
    lockTable := update s.lockTable pid (some s.next)
    next := s.next + 1
    pid := update s.pid s.next pid
    life := update s.life s.next .live }

/-- `setExitStatus` and the first two statements of `clearPID`. -/
def exit (q : ℕ) (exitStatus : ℤ) (s : State) : Option State :=
  (s.lockTable (s.pid q)).bind fun l =>
    call (.acquire l) (.clearPID q) { s with
      returnStatus := update s.returnStatus (s.pid q) exitStatus
      bitmap := s.bitmap.clear (s.pid q)
      life := update s.life q (.exiting s.kernel.currentThread exitStatus) }

/-- `conditionTable[pid]->Broadcast(lockTable[pid])`. -/
def broadcast (q : ℕ) (s : State) : Option State :=
  (s.conditionTable (s.pid q)).bind fun c => (s.lockTable (s.pid q)).bind fun l =>
    call (.broadcast c l) (.broadcast q) { s with
      life := update s.life q (match s.life q with
        | .exiting _ exitStatus => .exited exitStatus
        | life => life) }

/-- `lockTable[pid]->Release()`. -/
def release (q : ℕ) (p : Place) (s : State) : Option State :=
  (s.lockTable (s.pid q)).bind fun l => s.call (.release l) p

/-- `conditionTable[pid]->Wait(lockTable[pid])`. -/
def wait (q : ℕ) (s : State) : Option State :=
  (s.conditionTable (s.pid q)).bind fun c => (s.lockTable (s.pid q)).bind fun l =>
    s.call (.wait c l) (.waiting q)

def advance (s : State) : Option State :=
  match s.place s.kernel.currentThread with
  | .outside => none
  | .getPID => s.find
  | .found pid => some (s.create pid)
  | .clearPID q => s.broadcast q
  | .broadcast q => s.release q .outside
  | .join q => s.wait q
  | .waiting q => s.release q (.joined q)
  | .joined q =>
    some (goTo .outside { s with returned := s.returned ++ [(q, s.returnStatus (s.pid q))] })

def step (s : State) : Action → Option State
  | .other a =>
    if (∀ o ∈ a.uses, Foreign s.bitLock o) ∧
      (a.isCode = true → s.place s.kernel.currentThread = .outside) then
      (s.kernel.step a).map fun k => { s with kernel := k }
    else none
  | .getPID =>
    if s.place s.kernel.currentThread = .outside then s.call (.acquire s.bitLock) .getPID
    else none
  | .exit q exitStatus =>
    -- A process exits once.
    if s.place s.kernel.currentThread = .outside ∧ s.Created q ∧ s.life q = .live then
      s.exit q exitStatus
    else none
  | .join q =>
    if s.place s.kernel.currentThread = .outside ∧ s.Created q then
      (s.lockTable (s.pid q)).bind fun l => s.call (.acquire l) (.join q)
    else none
  | .advance => if s.kernel.AtCall then s.advance else none

/-- No process has been made; the tables are whatever the memory held. -/
structure Initial (s : State) : Prop where
  kernel : Kernel.Initial s.kernel
  numBits : s.bitmap.numBits = MAX_PROCS
  bitmap : ∀ i < MAX_PROCS, s.bitmap.test i = false
  next : s.next = s.bitLock + 1
  place : ∀ t, s.place t = .outside
  returned : s.returned = []

/-- The thread will release the lock: it holds it or is about to take it, and the statement that
releases it finds this lock in the table. -/
def WillRelease (s : State) (t : ThreadId) (l : ℕ) : Prop :=
  (s.kernel.history.holding l t = true ∨ (s.kernel.pc t).object = some (.lock l)) ∧
    match s.place t with
    | .clearPID q | .broadcast q | .join q | .waiting q => s.lockTable (s.pid q) = some l
    | _ => False

/-- The thread is not blocked, or it sleeps in the queue of a lock that a thread which is not
blocked will release. -/
def Awake (s : State) (t : ThreadId) : Prop :=
  s.kernel.status t ≠ .blocked ∨
    ∃ l u, t ∈ s.kernel.queue (.lock l) ∧ s.kernel.status u ≠ .blocked ∧ s.WillRelease u l

/-- A wake-up for a thread in `join` of a process is pending: the thread is awake already, or the
`Broadcast` of the process is still to come. -/
def WakePending (s : State) (t : ThreadId) (q : ℕ) : Prop :=
  s.Awake t ∨ ∃ u exitStatus, s.life q = .exiting u exitStatus ∧ s.Awake u

/-- The thread is in `join` of a process. -/
def InJoin (s : State) (t : ThreadId) (q : ℕ) : Prop :=
  s.place t = .join q ∨ s.place t = .waiting q ∨ s.place t = .joined q

/-- No `join` starts after the process's `Broadcast`, no `Broadcast` comes before the `Wait` of a
`join` that has started, and an id is not taken again while a thread is in `join` or `clearPID` of
a process with this id. -/
def Careful (s : State) : Action → Prop
  | .join q => ∀ exitStatus, s.life q ≠ .exited exitStatus
  | .advance =>
    match s.place s.kernel.currentThread with
    | .getPID => ∀ pid bitmap, s.bitmap.find = some (pid, bitmap) →
        ∀ t q, (s.place t).process = some q → s.pid q ≠ pid
    | .clearPID q => ∀ t, s.place t ≠ .join q
    | _ => True
  | _ => True

end State

/-- Processes are made, exit and are joined, by any number of threads. -/
def system : System State Action := .ofStep State.Initial State.step

end ProcessManager

end Nachos.Userprog
