import Mathlib.Data.Set.Card
import Nachos.Threads.Observed

/-! # `SynchList`

A list with a lock and a condition. Any number of threads call `Append` and
`Remove`; between two statements of these routines other threads may run. The
holder of the lock is the only thread that touches the list, and as long as
consumers sleep there are as many threads on their way to the list as items in
it.
-/

namespace Nachos.Threads.SynchList

open Function Transition Kernel Observed

variable {α : Type*}

inductive Place (α : Type*)
  /-- Outside the list's routines. -/
  | idle
  /-- `Append`: `lock->Acquire()` has been called, `list->Append(item)` is next. -/
  | append (item : α)
  /-- `Append`: `listEmpty->Signal(lock)` is next. -/
  | appended
  /-- `Append`: `lock->Release()` is next. -/
  | signalled
  /-- `Remove`: `lock->Acquire()` has been called, the first `list->IsEmpty()` is next. -/
  | test
  /-- `Remove`: `listEmpty->Wait(lock)` has been called, `list->IsEmpty()` is tested again. -/
  | retest
  /-- `Remove`: the list was not empty, `list->Remove()` is next. -/
  | take
  /-- `Remove`: `lock->Release()` is next. -/
  | taken

def Place.isIdle : Place α → Bool
  | .idle => true
  | _ => false

@[simp] theorem Place.isIdle_iff {p : Place α} : p.isIdle = true ↔ p = .idle := by
  cases p <;> simp [isIdle]

structure State (α : Type*) where
  kernel : Kernel
  list : List α
  place : ThreadId → Place α
  /-- The items that `list->Append` has put on the list so far. -/
  appended : List α
  /-- The items that `list->Remove` has taken off the list so far. -/
  removed : List α

inductive Action (α : Type*)
  /-- A step of the kernel that is no step of the list's routines. -/
  | other (a : Threads.Action)
  /-- The current thread calls `Append`. -/
  | append (item : α)
  /-- The current thread calls `Remove`. -/
  | remove
  /-- The current thread runs its next statement. -/
  | advance

namespace State

/-- The current thread calls a routine of the kernel and goes on at another place. -/
def call (a : Threads.Action) (p : Place α) (s : State α) : Option (State α) :=
  (s.kernel.step a).map fun k =>
    { s with kernel := k, place := update s.place s.kernel.currentThread p }

def goTo (p : Place α) (s : State α) : State α :=
  { s with place := update s.place s.kernel.currentThread p }

/-- The next statement of the current thread, for the list with lock `l` and condition `c`. -/
def advance (l c : ℕ) (s : State α) : Option (State α) :=
  match s.place s.kernel.currentThread with
  | .idle => none
  | .append item =>
    some (goTo .appended { s with list := s.list ++ [item], appended := s.appended ++ [item] })
  | .appended => s.call (.signal c l) .signalled
  | .signalled | .taken => s.call (.release l) .idle
  | .test | .retest => if s.list.isEmpty then s.call (.wait c l) .retest else some (s.goTo .take)
  | .take =>
    -- `ASSERT(item != NULL)`
    match s.list with
    | [] => none
    | item :: rest => some (goTo .taken { s with list := rest, removed := s.removed ++ [item] })

def step (l c : ℕ) (s : State α) : Action α → Option (State α)
  | .other a =>
    if a.Avoids [.lock l, .condition c] ∧
        (a.isCode = true → (s.place s.kernel.currentThread).isIdle = true) then
      (s.kernel.step a).map fun k => { s with kernel := k }
    else none
  | .append item =>
    if (s.place s.kernel.currentThread).isIdle then s.call (.acquire l) (.append item)
    else none
  | .remove =>
    if (s.place s.kernel.currentThread).isIdle then s.call (.acquire l) .test else none
  | .advance => if s.kernel.AtCall then s.advance l c else none

structure Initial (s : State α) : Prop where
  kernel : Kernel.Initial s.kernel
  place : ∀ t, s.place t = .idle
  list : s.list = []
  appended : s.appended = []
  removed : s.removed = []

/-- The threads that have been signalled and are still to test the list again, and the thread
that is still to signal or to take an item. -/
def due (c : ℕ) (s : State α) : Set ThreadId :=
  { t | s.place t = .retest ∧ t ∉ s.kernel.queue (.condition c) ∨ s.place t = .appended ∨
    s.place t = .take }

end State

/-- The list with lock `l` and condition `c`, used by any number of threads. -/
def system (l c : ℕ) : System (State α) (Action α) := .ofStep State.Initial (State.step l c)

variable {l c : ℕ} {s s' : State α} {t u : ThreadId} {p q : Place α} {k k' : Kernel}
  {v v' : Observed}

structure State.Local (l c : ℕ) (s s' : State α) : Prop where
  place : ∀ t, t ≠ s.kernel.currentThread → s'.place t = s.place t
  kernel : s'.kernel = s.kernel ∨ ∃ a : Threads.Action,
    (∀ o ∈ a.uses, o ∈ [.condition c, .lock l]) ∧ s.kernel.step a = some s'.kernel

theorem State.local_call {a : Threads.Action} (ha : ∀ o ∈ a.uses, o ∈ [.condition c, .lock l])
    (hs : s.call a p = some s') : Local l c s s' := by
  obtain ⟨k, hk, rfl⟩ := Option.map_eq_some_iff.mp hs
  exact ⟨fun t ht => update_of_ne ht _ _, .inr ⟨a, ha, hk⟩⟩

theorem State.local_advance (hs : s.advance l c = some s') : Local l c s s' := by
  unfold advance at hs
  split at hs
  case h_1 => cases hs
  case h_2 item hp =>
    obtain rfl := Option.some.inj hs
    exact ⟨fun t ht => update_of_ne ht _ _, .inl rfl⟩
  case h_3 => exact local_call (by simp [Action.uses]) hs
  case h_4 | h_5 => exact local_call (by simp [Action.uses]) hs
  case h_6 | h_7 =>
    split at hs
    · exact local_call (by simp [Action.uses]) hs
    · obtain rfl := Option.some.inj hs
      exact ⟨fun t ht => update_of_ne ht _ _, .inl rfl⟩
  case h_8 =>
    split at hs
    · cases hs
    · obtain rfl := Option.some.inj hs
      exact ⟨fun t ht => update_of_ne ht _ _, .inl rfl⟩

theorem State.place_call {a : Threads.Action} (hs : s.call a p = some s') :
    s'.place s.kernel.currentThread = p ∧ s'.appended = s.appended := by
  obtain ⟨k, hk, rfl⟩ := Option.map_eq_some_iff.mp hs
  exact ⟨update_self _ _ _, rfl⟩

theorem State.advance_appended (hs : s.advance l c = some s') :
    (∃ item, s.place s.kernel.currentThread = .append item ∧
      s'.place s.kernel.currentThread = .appended ∧ s'.appended = s.appended ++ [item]) ∨
    (∀ item, s.place s.kernel.currentThread ≠ .append item ∧
      s'.place s.kernel.currentThread ≠ .append item) ∧ s'.appended = s.appended := by
  unfold advance at hs
  split at hs
  case h_1 => cases hs
  case h_2 item hp =>
    obtain rfl := Option.some.inj hs
    exact .inl ⟨item, hp, update_self _ _ _, rfl⟩
  case h_3 hp | h_4 hp | h_5 hp => simp [place_call hs, hp]
  case h_6 hp | h_7 hp =>
    split at hs
    · simp [place_call hs, hp]
    · obtain rfl := Option.some.inj hs
      simp [goTo, hp]
  case h_8 hp =>
    split at hs
    · cases hs
    · obtain rfl := Option.some.inj hs
      simp [goTo, hp]

/-! ## Where the threads are -/

/-- The place of a thread agrees with where it is in the kernel: a thread inside a routine waits
for the lock, waits on the condition, or holds the lock. -/
def Control (l c : ℕ) (v : Observed) (t : ThreadId) : Place α → Prop
  | .idle => (v.pc t).Avoids [.lock l, .condition c]
  | .append _ | .test =>
    v.pc t = .lockAcquire l ∨ v.pc t = .outside ∧ v.holding l t = true
  | .retest => (v.pc t).InWait c l ∨ v.pc t = .outside ∧ v.holding l t = true
  | .appended | .signalled | .take | .taken => v.pc t = .outside ∧ v.holding l t = true

theorem Control.holding (h : Control l c v t p) (hp : p ≠ .idle) (ho : v.pc t = .outside) :
    v.holding l t = true := by
  cases p <;> simp_all [Control, Pc.InWait]

theorem Control.congr (h : Control l c v t p) (hp : v'.pc t = v.pc t)
    (hl : v'.holding l t = v.holding l t) : Control l c v' t p := by
  cases p <;> simpa only [Control, hp, hl] using h

theorem Control.resume (h : Control l c v t p) (hr : Resume u v v') : Control l c v' t p := by
  by_cases hu : t = u
  · subst hu
    cases p with
    | idle => exact hr.avoids h
    | append | test =>
      rcases h with h | ⟨h, hh⟩
      · cases hr <;> simp_all [Control, Observed.goTo, Observed.hold]
      · cases hr <;> simp_all [Control]
    | retest =>
      rcases h with h | ⟨h, hh⟩
      · cases hr with
        | reacquire hp => rcases hp with hp | hp <;>
            simp_all [Control, Observed.goTo, Observed.hold, Pc.InWait]
        | _ => simp_all [Control, Observed.goTo, Pc.InWait]
      · cases hr <;> simp_all [Control]
    | _ =>
      obtain ⟨h, hh⟩ := h
      cases hr <;> simp_all [Control]
  · exact h.congr (hr.other hu).1 ((hr.other hu).2 l)

theorem Control.elsewhere (h : Control l c v t p)
    (he : Elsewhere [.lock l, .condition c] u v v') (hp : p = .idle ∨ v'.pc t = v.pc t) :
    Control l c v' t p := by
  rcases hp with rfl | hp
  · exact he.avoids h
  · exact h.congr hp (congrFun (he.holding l (by simp)) t)

theorem control_update {place : ThreadId → Place α} (h : ∀ u, Control l c v u (place u))
    (hv : ∀ u, u ≠ t → v'.pc u = v.pc u ∧ v'.holding l u = v.holding l u)
    (ht : Control l c v' t q) : ∀ u, Control l c v' u (update place t q u) := by
  intro u
  by_cases hu : u = t
  · subst hu
    simpa using ht
  · simpa [update_of_ne hu] using (h u).congr (hv u hu).1 (hv u hu).2

structure Inv (l c : ℕ) (s : State α) : Prop where
  reach : Reachable Kernel.system s.kernel
  control : ∀ t, Control l c s.kernel.observed t (s.place t)
  fifo : s.appended = s.removed ++ s.list
  take : ∀ t, s.place t = .take → s.list ≠ []
  due : s.kernel.queue (.condition c) ≠ [] → (s.list.length : ℕ∞) ≤ (s.due c).encard

namespace Inv

theorem lockInv (h : Inv l c s) : LockInv l s.kernel := LockInv.of_reachable h.reach

theorem holding_current (h : Inv l c s) (ha : s.kernel.AtCall)
    (hp : s.place s.kernel.currentThread ≠ .idle) :
    s.kernel.history.holding l s.kernel.currentThread = true :=
  (h.control s.kernel.currentThread).holding hp ha.2

theorem place_of_mem_queue (h : Inv l c s) (ht : t ∈ s.kernel.queue (.condition c)) :
    s.place t = .retest := by
  have ho := (((placed_of_reachable h.reach).queued t _).mp ht).2
  obtain ⟨m, hm⟩ : ∃ m, s.kernel.observed.pc t = .conditionWait c m := by
    change ∃ m, s.kernel.pc t = .conditionWait c m
    cases hp : s.kernel.pc t <;> simp_all [Pc.object]
  have hc := h.control t
  cases hp : s.place t <;> simp_all [Control, Pc.Avoids, Pc.uses, Pc.InWait]

theorem other {a : Threads.Action} (h : Inv l c s) (ha : a.Avoids [.lock l, .condition c])
    (hi : a.isCode = true → s.place s.kernel.currentThread = .idle)
    (hs : s.kernel.step a = some k) : Inv l c { s with kernel := k } := by
  have hw : k.queue (.condition c) = s.kernel.queue (.condition c) :=
    queue_condition_eq (fun hm => ha _ hm (by simp)) hs
  refine ⟨h.reach.step hs, fun t => ?_, h.fifo, h.take, ?_⟩
  · rcases observed_elsewhere ha hs with ⟨u, hr⟩ | ⟨he, hpc⟩
    · exact (h.control t).resume hr
    · exact (h.control t).elsewhere he ((hpc t).symm.imp_left fun ⟨ht, hc⟩ => ht ▸ hi hc)
  · simpa only [State.due, hw] using h.due

theorem due_goTo (hp : p ≠ .retest ∧ p ≠ .appended ∧ p ≠ .take)
    (hq : s.place t ≠ .retest ∧ s.place t ≠ .appended ∧ s.place t ≠ .take)
    (hw : k.queue (.condition c) = s.kernel.queue (.condition c)) :
    State.due c { s with kernel := k, place := update s.place t p } = s.due c := by
  ext u
  by_cases hu : u = t
  · subst hu
    simp [State.due, hp, hq]
  · simp [State.due, update_of_ne hu, hw]

theorem take_update (h : Inv l c s) (hp : p ≠ .take) :
    ∀ u, update s.place t p u = .take → s.list ≠ [] := by
  intro u hu
  by_cases he : u = t
  · simp [he, hp] at hu
  · exact h.take u (by simpa [update_of_ne he] using hu)

theorem enter (h : Inv l c s) (hi : s.place s.kernel.currentThread = .idle)
    (hp : p = .test ∨ ∃ item, p = .append item) (hs : s.call (.acquire l) p = some s') :
    Inv l c s' := by
  obtain ⟨k, hk, rfl⟩ := Option.map_eq_some_iff.mp hs
  obtain ⟨-, rfl⟩ := step_call rfl hk
  have hv := observed_acquire (p := .lockAcquire l) (l := l) (k := s.kernel)
  have hw : (Kernel.acquire (.lockAcquire l) l s.kernel).queue (.condition c) =
      s.kernel.queue (.condition c) := by
    rcases hv with hv | hv <;> exact congrFun (congrArg Observed.waiting hv) c
  have hne : p ≠ .retest ∧ p ≠ .appended ∧ p ≠ .take := by
    rcases hp with rfl | ⟨item, rfl⟩ <;> simp
  refine ⟨h.reach.step hk, control_update h.control ?_ ?_, h.fifo, h.take_update hne.2.2, ?_⟩
  · intro u hu
    rcases hv with hv | hv <;> simp [hv, Observed.goTo, Observed.hold, update_of_ne hu]
  · rcases hv with hv | hv <;> rw [hv] <;> rcases hp with rfl | ⟨item, rfl⟩ <;>
      simp [Control, Observed.goTo, Observed.hold]
  · rw [due_goTo hne (by simp [hi]) hw]
    simpa only [hw] using h.due

theorem append {item : α} (h : Inv l c s) (ha : s.kernel.AtCall)
    (hp : s.place s.kernel.currentThread = .append item) :
    Inv l c (State.goTo .appended
      { s with list := s.list ++ [item], appended := s.appended ++ [item] }) := by
  have hh := h.holding_current ha (by simp [hp])
  refine ⟨h.reach, control_update h.control (fun _ _ => ⟨rfl, rfl⟩) ⟨ha.2, hh⟩, ?_, ?_, ?_⟩
  · simp [State.goTo, h.fifo]
  · simp [State.goTo]
  · intro hq
    have hd : State.due c (State.goTo .appended
        { s with list := s.list ++ [item], appended := s.appended ++ [item] }) =
        insert s.kernel.currentThread (s.due c) := by
      ext u
      by_cases hu : u = s.kernel.currentThread
      · simp [hu, State.due, State.goTo]
      · simp [hu, State.due, State.goTo]
    rw [hd, Set.encard_insert_of_notMem (by simp [State.due, hp])]
    simpa [State.goTo] using add_le_add_left (h.due hq) 1

theorem signal (h : Inv l c s) (ha : s.kernel.AtCall)
    (hp : s.place s.kernel.currentThread = .appended)
    (hs : s.call (.signal c l) .signalled = some s') : Inv l c s' := by
  have hh := h.holding_current ha (by simp [hp])
  obtain ⟨k, hk, rfl⟩ := Option.map_eq_some_iff.mp hs
  obtain ⟨-, rfl⟩ := step_call rfl hk
  have hv := observed_signal (c := c) (l := l) (k := s.kernel)
  rw [if_pos (isHeldByCurrentThread_of_holding h.lockInv hh)] at hv
  have hw : (Kernel.signal c l s.kernel).queue (.condition c) =
      (s.kernel.queue (.condition c)).tail :=
    (congrFun (congrArg Observed.waiting hv) c).trans (by simp [Observed.setWaiting, observed])
  refine ⟨h.reach.step hk, control_update h.control ?_ ?_, h.fifo, h.take_update (by simp), ?_⟩
  · intro u hu
    simp [hv, Observed.setWaiting]
  · rw [hv]
    exact ⟨ha.2, hh⟩
  · intro hq
    simp only [hw] at hq
    cases hq' : s.kernel.queue (.condition c) with
    | nil => simp [hq'] at hq
    | cons u rest =>
      have hu : s.place u = .retest := h.place_of_mem_queue (by simp [hq'])
      have hnd := (placed_of_reachable h.reach).queue_nodup (.condition c)
      have hd : State.due c { s with
          kernel := Kernel.signal c l s.kernel
          place := update s.place s.kernel.currentThread .signalled } =
          insert u (s.due c \ {s.kernel.currentThread}) := by
        ext w
        simp only [State.due, hw, hq', List.tail_cons, Set.mem_ofPred_eq, Set.mem_insert_iff,
          Set.mem_sdiff, Set.mem_singleton_iff, List.mem_cons, not_or]
        rw [hq', List.nodup_cons] at hnd
        by_cases hw' : w = s.kernel.currentThread
        · subst hw'
          have : s.kernel.currentThread ≠ u := by
            rintro rfl
            simp [hp] at hu
          simp [this]
        · by_cases hwu : w = u
          · subst hwu
            simp [hw', hu, hnd.1]
          · simp [hw', hwu]
      rw [hd, Set.encard_exchange (by simp [State.due, hu, hq']) (by simp [State.due, hp])]
      exact h.due (by simp [hq'])

theorem found (h : Inv l c s) (ha : s.kernel.AtCall)
    (hp : s.place s.kernel.currentThread = .test ∨ s.place s.kernel.currentThread = .retest)
    (hl : s.list ≠ []) : Inv l c (s.goTo .take) := by
  have hh := h.holding_current ha (by rcases hp with hp | hp <;> simp [hp])
  refine ⟨h.reach, control_update h.control (fun _ _ => ⟨rfl, rfl⟩) ⟨ha.2, hh⟩, h.fifo,
    fun _ _ => hl, fun hq => (h.due hq).trans (Set.encard_le_encard ?_)⟩
  intro u hu
  by_cases he : u = s.kernel.currentThread
  · simp [he, State.due, State.goTo]
  · simpa [State.due, State.goTo, update_of_ne he] using hu

theorem wait (h : Inv l c s) (ha : s.kernel.AtCall)
    (hp : s.place s.kernel.currentThread = .test ∨ s.place s.kernel.currentThread = .retest)
    (hl : s.list = []) (hs : s.call (.wait c l) .retest = some s') : Inv l c s' := by
  have hh := h.holding_current ha (by rcases hp with hp | hp <;> simp [hp])
  obtain ⟨k, hk, rfl⟩ := Option.map_eq_some_iff.mp hs
  obtain ⟨-, rfl⟩ := step_call rfl hk
  have hv := observed_wait (c := c) (l := l) (k := s.kernel)
  rw [if_pos (isHeldByCurrentThread_of_holding h.lockInv hh)] at hv
  refine ⟨h.reach.step hk, control_update h.control ?_ ?_, h.fifo, h.take_update (by simp), ?_⟩
  · intro u hu
    simp [hv, Observed.goTo, Observed.setWaiting, Observed.hold, update_of_ne hu]
  · rw [hv]
    exact .inl (by simp [Observed.goTo, Pc.InWait])
  · simp [hl]

theorem remove {item : α} {rest : List α} (h : Inv l c s) (ha : s.kernel.AtCall)
    (hp : s.place s.kernel.currentThread = .take) (hl : s.list = item :: rest) :
    Inv l c (State.goTo .taken { s with list := rest, removed := s.removed ++ [item] }) := by
  have hh := h.holding_current ha (by simp [hp])
  refine ⟨h.reach, control_update h.control (fun _ _ => ⟨rfl, rfl⟩) ⟨ha.2, hh⟩, ?_, ?_, ?_⟩
  · simp [State.goTo, h.fifo, hl]
  · -- no other thread holds the lock, so none is about to take an item
    intro u hu
    have hne : u ≠ s.kernel.currentThread := by
      rintro rfl
      simp [State.goTo] at hu
    have hp' : s.place u = .take := by simpa [State.goTo, update_of_ne hne] using hu
    have hc := h.control u
    rw [hp'] at hc
    exact absurd (h.lockInv.holder_unique hc.2 hh) hne
  · intro hq
    have hd : State.due c (State.goTo .taken
        { s with list := rest, removed := s.removed ++ [item] }) =
        s.due c \ {s.kernel.currentThread} := by
      ext u
      by_cases hu : u = s.kernel.currentThread
      · simp [hu, State.due, State.goTo]
      · simp [hu, State.due, State.goTo]
    have hm : s.kernel.currentThread ∈ s.due c := by simp [State.due, hp]
    have hle := h.due hq
    rw [← Set.encard_sdiff_singleton_add_one hm, hl, List.length_cons, Nat.cast_succ] at hle
    rw [hd]
    exact (ENat.add_le_add_iff_right (by simp)).mp hle

theorem release (h : Inv l c s)
    (hp : s.place s.kernel.currentThread = .signalled ∨ s.place s.kernel.currentThread = .taken)
    (ha : s.kernel.AtCall) (hs : s.call (.release l) .idle = some s') : Inv l c s' := by
  obtain ⟨k, hk, rfl⟩ := Option.map_eq_some_iff.mp hs
  obtain ⟨-, rfl⟩ := step_call rfl hk
  have hv := observed_release (l := l) (k := s.kernel)
  have hw : (Kernel.release l s.kernel).queue (.condition c) = s.kernel.queue (.condition c) :=
    congrFun (congrArg Observed.waiting hv) c
  refine ⟨h.reach.step hk, control_update h.control ?_ ?_, h.fifo, h.take_update (by simp), ?_⟩
  · intro u hu
    simp [hv, Observed.hold, update_of_ne hu]
  · rw [hv]
    have : s.kernel.observed.pc s.kernel.currentThread = .outside := ha.2
    simp [Control, Observed.hold, this, Pc.Avoids, Pc.uses]
  · rw [due_goTo (by simp) (by rcases hp with hp | hp <;> simp [hp]) hw]
    simpa only [hw] using h.due

theorem advance (h : Inv l c s) (ha : s.kernel.AtCall) (hs : s.advance l c = some s') :
    Inv l c s' := by
  unfold State.advance at hs
  split at hs
  case h_1 => cases hs
  case h_2 item hp =>
    obtain rfl := Option.some.inj hs
    exact h.append ha hp
  case h_3 hp => exact h.signal ha hp hs
  case h_4 hp => exact h.release (.inl hp) ha hs
  case h_5 hp => exact h.release (.inr hp) ha hs
  case h_6 hp =>
    split at hs
    case isTrue hl => exact h.wait ha (.inl hp) (List.isEmpty_iff.mp hl) hs
    case isFalse hl =>
      obtain rfl := Option.some.inj hs
      exact h.found ha (.inl hp) (by simpa using hl)
  case h_7 hp =>
    split at hs
    case isTrue hl => exact h.wait ha (.inr hp) (List.isEmpty_iff.mp hl) hs
    case isFalse hl =>
      obtain rfl := Option.some.inj hs
      exact h.found ha (.inr hp) (by simpa using hl)
  case h_8 hp =>
    split at hs
    case h_1 => cases hs
    case h_2 item rest hl =>
      obtain rfl := Option.some.inj hs
      exact h.remove ha hp hl

theorem step {a : Action α} (h : Inv l c s) (hs : s.step l c a = some s') : Inv l c s' := by
  cases a with
  | other a =>
    simp only [State.step, Option.ite_none_right_eq_some, Option.map_eq_some_iff] at hs
    obtain ⟨⟨ha, hi⟩, k, hk, rfl⟩ := hs
    exact h.other ha (fun hc => Place.isIdle_iff.mp (hi hc)) hk
  | append item =>
    simp only [State.step, Option.ite_none_right_eq_some, Place.isIdle_iff] at hs
    exact h.enter hs.1 (.inr ⟨item, rfl⟩) hs.2
  | remove =>
    simp only [State.step, Option.ite_none_right_eq_some, Place.isIdle_iff] at hs
    exact h.enter hs.1 (.inl rfl) hs.2
  | advance =>
    simp only [State.step, Option.ite_none_right_eq_some] at hs
    exact h.advance hs.1 hs.2

theorem of_initial (h : s.Initial) : Inv l c s := by
  refine ⟨.init h.kernel, fun t => ?_, ?_, ?_, fun hq => absurd (h.kernel.queue _) hq⟩
  · rw [h.place t]
    change (s.kernel.pc t).Avoids _
    rw [h.kernel.pc t]
    split <;> simp [Pc.Avoids, Pc.uses]
  · simp [h.appended, h.removed, h.list]
  · simp [h.place]

end Inv

theorem inv_of_reachable (h : Reachable (system l c) s) : Inv l c s :=
  h.invariant (P := Inv l c) (fun _ => Inv.of_initial) fun _ _ _ hi hs => hi.step hs

/-- For any number of threads and any interleaving of `Append` and `Remove`: the items taken off
the list, in the order in which they leave it, are a prefix of the items appended; a thread
whose test found an item finds it when it takes it, so the assertion in `Remove` holds; and
when the lock is free and a consumer sleeps, the list has at most as many items as there are
consumers that have been signalled and have not tested the list again. -/
theorem synchList_fifo_and_wakeup (h : Reachable (system l c) s) :
    s.removed <+: s.appended ∧
    (∀ t, s.place t = .take → s.list ≠ []) ∧
    (s.kernel.locked l = false → s.kernel.queue (.condition c) ≠ [] →
      (s.list.length : ℕ∞) ≤
        Set.encard { t | s.place t = .retest ∧ t ∉ s.kernel.queue (.condition c) }) := by
  have hi := inv_of_reachable h
  refine ⟨⟨s.list, hi.fifo.symm⟩, hi.take, fun hl hq => ?_⟩
  have hfree : ∀ t, s.kernel.history.holding l t = false := by
    intro t
    by_contra ht
    have := ((hi.lockInv.holding t).mp (by simpa using ht)).1
    simp [hl] at this
  have hd : s.due c = { t | s.place t = .retest ∧ t ∉ s.kernel.queue (.condition c) } := by
    ext t
    have hc := hi.control t
    have hf : s.kernel.observed.holding l t = false := hfree t
    cases hp : s.place t <;> simp_all [State.due, Control]
  exact hd ▸ hi.due hq

/-- Consumers 1 and 2 sleep; thread 0 appends an item, wakes consumer 1 and releases the lock. -/
theorem synchList_fifo_and_wakeup_signalled :
    ∃ s : State ℕ, exec (State.step 0 0) ⟨boot 0, [], fun _ => .idle, [], []⟩
        [.other (.fork 1), .other (.fork 2), .other .yield, .remove, .advance, .other .dispatch,
          .remove, .advance, .other .dispatch, .append 7, .advance, .advance, .advance] = some s ∧
      s.list = [7] ∧ s.kernel.queue (.condition 0) = [2] ∧
      (s.list.length : ℕ∞) ≤
        Set.encard { t | s.place t = .retest ∧ t ∉ s.kernel.queue (.condition 0) } := by
  obtain ⟨s, hs⟩ : ∃ s : State ℕ, exec (State.step 0 0) ⟨boot 0, [], fun _ => .idle, [], []⟩
      [.other (.fork 1), .other (.fork 2), .other .yield, .remove, .advance, .other .dispatch,
        .remove, .advance, .other .dispatch, .append 7, .advance, .advance, .advance] = some s :=
    ⟨_, rfl⟩
  have hr : Reachable (system 0 0) s :=
    ⟨_, _, ⟨initial_boot (by decide), fun _ => rfl, rfl, rfl, rfl⟩, run_ofStep_iff.mpr hs⟩
  have hq : s.list = [7] ∧ s.kernel.queue (.condition 0) = [2] ∧ s.kernel.locked 0 = false := by
    obtain rfl := Option.some.inj hs
    exact ⟨rfl, rfl, rfl⟩
  exact ⟨s, hs, hq.1, hq.2.1,
    (synchList_fifo_and_wakeup hr).2.2 hq.2.2 (by simp [hq.2.1])⟩

end Nachos.Threads.SynchList
