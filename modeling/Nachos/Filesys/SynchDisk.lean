import Nachos.Filesys.Disk
import Nachos.Threads.Observed

/-! # `SynchDisk` over the asynchronous disk

`Disk` performs one request at a time and reports its end by an interrupt, which
`SynchDisk` turns into a `V` on a semaphore that does not say whose request it
was. A thread waits for that interrupt with the lock held, so the request that
ends is its own. Requests are numbered in the order in which they are made.
-/

namespace Nachos.Filesys.SynchDisk

open Function Transition Threads Threads.Kernel Observed

/-- A call of `ReadSector` or `WriteSector`. -/
inductive Request
  | read (sectorNumber : ℤ)
  | write (sectorNumber : ℤ) (data : Sector)

def Request.sectorNumber : Request → ℤ
  | .read n | .write n _ => n

/-- The statement of `ReadSector` or `WriteSector` that a thread runs next, or is in. -/
inductive Place
  | idle
  /-- `lock->Acquire()` has been called, the request to the disk is next. -/
  | locked (r : Request)
  /-- Request number `n` has been made, `semaphore->P()` is next. -/
  | requested (n : ℕ)
  /-- `semaphore->P()` has been called, `lock->Release()` is next. -/
  | waiting (n : ℕ)

def Place.isIdle : Place → Bool
  | .idle => true
  | _ => false

@[simp] theorem Place.isIdle_iff {p : Place} : p.isIdle = true ↔ p = .idle := by
  cases p <;> simp [isIdle]

structure State where
  kernel : Kernel
  place : ThreadId → Place
  /-- The buffer that the caller passes to `ReadSector`. -/
  data : ThreadId → Sector
  sectors : Disk
  /-- `Disk::active`. -/
  active : Bool
  /-- The requests whose interrupt is scheduled. -/
  pending : List ℕ
  /-- The number of requests made so far. -/
  requests : ℕ
  /-- The requests whose interrupt has occurred. -/
  done : List ℕ

inductive Action
  /-- A step of the kernel that is no step of the disk. -/
  | other (a : Threads.Action)
  /-- The current thread calls `ReadSector` or `WriteSector`. -/
  | call (r : Request)
  /-- The current thread runs its next statement. -/
  | advance
  /-- The interrupt of a request occurs. -/
  | interrupt (n : ℕ)

namespace State

/-- The current thread calls a routine of the kernel and goes on at another place. -/
def call (a : Threads.Action) (p : Place) (s : State) : Option State :=
  (s.kernel.step a).map fun k =>
    { s with kernel := k, place := update s.place s.kernel.currentThread p }

/-- `Disk::ReadRequest` and `Disk::WriteRequest`. The transfer is done at once; the interrupt is
scheduled for later. -/
def request (r : Request) (s : State) : Option State :=
  if s.active then none
  else if h : 0 ≤ r.sectorNumber ∧ r.sectorNumber < NumSectors then
    let i : Fin NumSectors := ⟨r.sectorNumber.toNat, by omega⟩
    let s' :=
      match r with
      | .read _ => { s with data := update s.data s.kernel.currentThread (s.sectors i) }
      | .write _ data => { s with sectors := update s.sectors i data }
    some { s' with
      active := true
      pending := s.pending ++ [s.requests]
      requests := s.requests + 1
      place := update s.place s.kernel.currentThread (.requested s.requests) }
  else none

/-- The next statement of the current thread, for the disk with lock `l` and semaphore `m`. -/
def advance (l m : ℕ) (s : State) : Option State :=
  match s.place s.kernel.currentThread with
  | .idle => none
  | .locked r => s.request r
  | .requested n => s.call (.p m) (.waiting n)
  | .waiting _ => s.call (.release l) .idle

/-- `Disk::HandleInterrupt`, which calls `RequestDone`. -/
def handleInterrupt (m n : ℕ) (s : State) : Option State :=
  if n ∈ s.pending then
    (s.kernel.step (.interruptV m)).map fun k =>
      { s with kernel := k, active := false, pending := s.pending.erase n, done := s.done ++ [n] }
  else none

def step (l m : ℕ) (s : State) : Action → Option State
  | .other a =>
    if a.Avoids [.lock l, .semaphore m] ∧
        (a.isCode = true → (s.place s.kernel.currentThread).isIdle = true) then
      (s.kernel.step a).map fun k => { s with kernel := k }
    else none
  | .call r =>
    if (s.place s.kernel.currentThread).isIdle then s.call (.acquire l) (.locked r) else none
  | .advance => if s.kernel.AtCall then s.advance l m else none
  | .interrupt n => s.handleInterrupt m n

structure Initial (m : ℕ) (s : State) : Prop where
  kernel : Kernel.Initial s.kernel
  value : s.kernel.value m = 0
  place : ∀ t, s.place t = .idle
  active : s.active = false
  pending : s.pending = []
  done : s.done = []

end State

/-- The disk with lock `l` and semaphore `m`, used by any number of threads. -/
def system (l m : ℕ) : System State Action := .ofStep (State.Initial m) (State.step l m)

variable {l m n n' : ℕ} {s s' : State} {t u : ThreadId} {p q : Place} {k k' : Kernel}
  {v v' : Observed}

/-! ## Where the threads are -/

def Control (l m : ℕ) (v : Observed) (t : ThreadId) : Place → Prop
  | .idle => (v.pc t).Avoids [.lock l, .semaphore m]
  | .locked _ => v.pc t = .lockAcquire l ∨ v.pc t = .outside ∧ v.holding l t = true
  | .requested _ => v.pc t = .outside ∧ v.holding l t = true
  | .waiting _ => (v.pc t = .semaphoreP m ∨ v.pc t = .outside) ∧ v.holding l t = true

theorem Control.congr (h : Control l m v t p) (hp : v'.pc t = v.pc t)
    (hl : v'.holding l t = v.holding l t) : Control l m v' t p := by
  cases p <;> simpa only [Control, hp, hl] using h

theorem Control.resume (h : Control l m v t p) (hr : Resume u v v') : Control l m v' t p := by
  by_cases hu : t = u
  · subst hu
    cases p with
    | idle => exact hr.avoids h
    | locked =>
      rcases h with h | ⟨h, hh⟩
      · cases hr <;> simp_all [Control, Observed.goTo, Observed.hold]
      · cases hr <;> simp_all [Control]
    | requested =>
      obtain ⟨h, hh⟩ := h
      cases hr <;> simp_all [Control]
    | waiting =>
      obtain ⟨h | h, hh⟩ := h
      · cases hr <;> simp_all [Control, Observed.goTo, Observed.add]
      · cases hr <;> simp_all [Control]
  · exact h.congr (hr.other hu).1 ((hr.other hu).2 l)

theorem Control.elsewhere (h : Control l m v t p)
    (he : Elsewhere [.lock l, .semaphore m] u v v') (hp : p = .idle ∨ v'.pc t = v.pc t) :
    Control l m v' t p := by
  rcases hp with rfl | hp
  · exact he.avoids h
  · exact h.congr hp (congrFun (he.holding l (by simp)) t)

/-- The thread has made request `n` and has not got past its `P`. -/
def Unfinished (m : ℕ) (v : Observed) (t : ThreadId) (n : ℕ) (p : Place) : Prop :=
  p = .requested n ∨ p = .waiting n ∧ v.pc t = .semaphoreP m

/-- The disk is at work on the one unfinished request, or its interrupt has occurred and has not
been consumed; without an unfinished request the disk is quiet. -/
structure Inv (l m : ℕ) (s : State) : Prop where
  reach : Reachable Kernel.system s.kernel
  control : ∀ t, Control l m s.kernel.observed t (s.place t)
  unfinished : ∀ t n, Unfinished m s.kernel.observed t n (s.place t) →
    s.pending = [n] ∧ s.active = true ∧ s.kernel.value m = 0 ∨
    s.pending = [] ∧ s.active = false ∧ s.kernel.value m = 1 ∧ n ∈ s.done
  quiet : (∀ t n, ¬ Unfinished m s.kernel.observed t n (s.place t)) →
    s.pending = [] ∧ s.active = false ∧ s.kernel.value m = 0
  finished : ∀ t n, s.place t = .waiting n → s.kernel.pc t = .outside → n ∈ s.done

namespace Inv

theorem lockInv (h : Inv l m s) : LockInv l s.kernel := LockInv.of_reachable h.reach

theorem holding (h : Inv l m s) (hu : Unfinished m s.kernel.observed t n (s.place t)) :
    s.kernel.history.holding l t = true := by
  have hc := h.control t
  rcases hu with hu | ⟨hu, -⟩ <;> rw [hu] at hc <;> exact hc.2

/-- A thread that holds the lock for another reason leaves no room for an unfinished request. -/
theorem quiet_of_holding (h : Inv l m s) (ht : s.kernel.history.holding l t = true)
    (hn : ∀ n, ¬ Unfinished m s.kernel.observed t n (s.place t)) (u : ThreadId) (n : ℕ) :
    ¬ Unfinished m s.kernel.observed u n (s.place u) := by
  intro hu
  obtain rfl := h.lockInv.holder_unique (h.holding hu) ht
  exact hn n hu

theorem frame (h : Inv l m s) (hr : Reachable Kernel.system s'.kernel)
    (hc : ∀ t, Control l m s'.kernel.observed t (s'.place t))
    (hv : s'.kernel.value m = s.kernel.value m) (hp : s'.pending = s.pending)
    (ha : s'.active = s.active) (hd : s'.done = s.done)
    (hu : ∀ t n, Unfinished m s'.kernel.observed t n (s'.place t) ↔
      Unfinished m s.kernel.observed t n (s.place t))
    (hf : ∀ t n, s'.place t = .waiting n → s'.kernel.pc t = .outside → n ∈ s.done) :
    Inv l m s' := by
  refine ⟨hr, hc, ?_, ?_, ?_⟩
  · simpa only [hu, hp, ha, hv, hd] using h.unfinished
  · simpa only [hu, hp, ha, hv] using h.quiet
  · simpa only [hd] using hf

theorem frame_kernel (h : Inv l m s) (hr : Reachable Kernel.system k)
    (hc : ∀ t, Control l m k.observed t (s.place t)) (hv : k.value m = s.kernel.value m)
    (hp : ∀ t, k.pc t = .semaphoreP m ↔ s.kernel.pc t = .semaphoreP m) :
    Inv l m { s with kernel := k } := by
  refine h.frame hr hc hv rfl rfl rfl (fun t n => or_congr Iff.rfl (and_congr Iff.rfl (hp t))) ?_
  intro t n ht ho
  refine h.finished t n ht ?_
  have hct := h.control t
  rw [show s.place t = .waiting n from ht] at hct
  refine hct.1.resolve_left fun hs => ?_
  have := (hp t).mpr hs
  simp [show k.pc t = .outside from ho] at this

theorem passed (h : Inv l m s) (hk : Reachable Kernel.system k)
    (hc : ∀ t, Control l m k.observed t (s.place t))
    (ht : s.kernel.pc t = .semaphoreP m) (hv : s.kernel.value m ≠ 0)
    (ho : k.observed = (s.kernel.observed.add m (-1)).goTo t .outside) :
    Inv l m { s with kernel := k } := by
  have hpc : k.pc = update s.kernel.pc t .outside := congrArg Observed.pc ho
  have hval : k.value m = s.kernel.value m - 1 := by
    have := congrFun (congrArg Observed.value ho) m
    simpa [Observed.goTo, Observed.add, observed, Int.sub_eq_add_neg] using this
  obtain ⟨n, hn⟩ : ∃ n, s.place t = .waiting n := by
    have hct := h.control t
    have ht' : s.kernel.observed.pc t = .semaphoreP m := ht
    cases hp : s.place t <;> simp_all [Control, Pc.Avoids, Pc.uses]
  obtain ⟨-, -, hz⟩ | ⟨hpend, hact, hone, hdone⟩ := h.unfinished t n (.inr ⟨hn, ht⟩)
  · exact absurd hz hv
  have hno : ∀ u n, ¬ Unfinished m k.observed u n (s.place u) := by
    intro u n' hu
    by_cases he : u = t
    · subst he
      rcases hu with hu | ⟨-, hu⟩
      · simp [hn] at hu
      · simp [observed, hpc] at hu
    · have hu' : Unfinished m s.kernel.observed u n' (s.place u) :=
        hu.imp_right fun hu => ⟨hu.1, by simpa [observed, hpc, update_of_ne he] using hu.2⟩
      exact he (h.lockInv.holder_unique (h.holding hu') (h.holding (.inr ⟨hn, ht⟩)))
  refine ⟨hk, hc, fun u n hu => absurd hu (hno u n), fun _ => ⟨hpend, hact, by simp [hval, hone]⟩,
    fun u n' hp ho' => ?_⟩
  by_cases he : u = t
  · subst he
    obtain rfl : n = n' := by simpa [hn] using hp
    exact hdone
  · exact h.finished u n' hp (by simpa [hpc, update_of_ne he] using ho')

theorem other {a : Threads.Action} (h : Inv l m s) (ha : a.Avoids [.lock l, .semaphore m])
    (hi : a.isCode = true → s.place s.kernel.currentThread = .idle)
    (hs : s.kernel.step a = some k) : Inv l m { s with kernel := k } := by
  have hc : ∀ t, Control l m k.observed t (s.place t) := by
    intro t
    rcases observed_elsewhere ha hs with ⟨u, hr⟩ | ⟨he, hpc⟩
    · exact (h.control t).resume hr
    · exact (h.control t).elsewhere he ((hpc t).symm.imp_left fun ⟨ht, hc⟩ => ht ▸ hi hc)
  rcases value_cases (s := m) (ha.mono (by simp)) hs with ⟨hv, hp⟩ | ⟨u, hp, hv, ho⟩
  · exact h.frame_kernel (h.reach.step hs) hc hv hp
  · exact h.passed (h.reach.step hs) hc hp hv ho

theorem enter {r : Request} (h : Inv l m s) (hi : s.place s.kernel.currentThread = .idle)
    (hs : s.call (.acquire l) (.locked r) = some s') : Inv l m s' := by
  obtain ⟨k, hk, rfl⟩ := Option.map_eq_some_iff.mp hs
  obtain ⟨hat, rfl⟩ := step_call rfl hk
  have hv := observed_acquire (p := .lockAcquire l) (l := l) (k := s.kernel)
  have hne : ∀ u, u ≠ s.kernel.currentThread →
      (Kernel.acquire (.lockAcquire l) l s.kernel).observed.pc u = s.kernel.observed.pc u ∧
      (Kernel.acquire (.lockAcquire l) l s.kernel).observed.holding l u =
        s.kernel.observed.holding l u := by
    intro u hu
    rcases hv with hv | hv <;> simp [hv, Observed.goTo, Observed.hold, update_of_ne hu]
  refine h.frame (h.reach.step hk) ?_ ?_ rfl rfl rfl (fun t n => ?_) fun t n ht ho => ?_
  · refine (forall_update_iff s.place _).mpr ⟨?_, fun u hu => ?_⟩
    · rcases hv with hv | hv <;> rw [hv] <;> simp [Control, Observed.goTo, Observed.hold]
    · exact (h.control u).congr (hne u hu).1 (hne u hu).2
  · rcases hv with hv | hv <;> exact congrFun (congrArg Observed.value hv) m
  · by_cases ht : t = s.kernel.currentThread
    · subst ht
      simp [Unfinished, hi]
    · simp [Unfinished, update_of_ne ht, (hne t ht).1]
  · have hte : t ≠ s.kernel.currentThread := by
      rintro rfl
      simp at ht
    exact h.finished t n (by simpa [update_of_ne hte] using ht) ((hne t hte).1.symm.trans ho)

theorem request {r : Request} (h : Inv l m s) (ha : s.kernel.AtCall)
    (hp : s.place s.kernel.currentThread = .locked r) :
    s.active = false ∧ ∀ s', s.request r = some s' → Inv l m s' := by
  have hh : s.kernel.history.holding l s.kernel.currentThread = true := by
    have hc := h.control s.kernel.currentThread
    rw [hp] at hc
    exact (hc.resolve_left fun hl => by simp [show s.kernel.observed.pc _ = _ from ha.2] at hl).2
  have hno := h.quiet_of_holding hh (by simp [Unfinished, hp])
  obtain ⟨hpend, hact, hval⟩ := h.quiet hno
  refine ⟨hact, fun s' hs => ?_⟩
  have hs' : s'.kernel = s.kernel ∧ s'.pending = [s.requests] ∧ s'.active = true ∧
      s'.done = s.done ∧
      s'.place = update s.place s.kernel.currentThread (.requested s.requests) := by
    unfold State.request at hs
    simp only [hact, Bool.false_eq_true, ↓reduceIte, Option.dite_none_right_eq_some,
      Option.some.injEq] at hs
    obtain ⟨-, rfl⟩ := hs
    cases r <;> simp [hpend]
  obtain ⟨hk, hpend', hact', hdone', hplace'⟩ := hs'
  refine ⟨hk ▸ h.reach, ?_, fun t n hu => ?_, fun hno' => ?_, fun t n ht ho => ?_⟩
  · rw [hk, hplace']
    exact (forall_update_iff s.place _).mpr ⟨⟨ha.2, hh⟩, fun u _ => h.control u⟩
  · rw [hk, hplace'] at hu
    by_cases ht : t = s.kernel.currentThread
    · subst ht
      have hn : s.requests = n := by simpa [Unfinished] using hu
      exact .inl ⟨by rw [hpend', hn], hact', hk ▸ hval⟩
    · exact absurd (by simpa [Unfinished, update_of_ne ht] using hu) (hno t n)
  · refine absurd ?_ (hno' s.kernel.currentThread s.requests)
    rw [hplace']
    exact .inl (by simp)
  · rw [hplace'] at ht
    have hte : t ≠ s.kernel.currentThread := by
      rintro rfl
      simp at ht
    rw [hdone']
    exact h.finished t n (by simpa [update_of_ne hte] using ht) (hk ▸ ho)

theorem semaphoreP (h : Inv l m s) (ha : s.kernel.AtCall)
    (hp : s.place s.kernel.currentThread = .requested n)
    (hs : s.call (.p m) (.waiting n) = some s') : Inv l m s' := by
  obtain ⟨k, hk, rfl⟩ := Option.map_eq_some_iff.mp hs
  obtain ⟨-, rfl⟩ := step_call rfl hk
  have hu : Unfinished m s.kernel.observed s.kernel.currentThread n
      (s.place s.kernel.currentThread) := .inl hp
  have hh := h.holding hu
  have honly : ∀ u n', Unfinished m s.kernel.observed u n' (s.place u) →
      u = s.kernel.currentThread :=
    fun u n' hu' => h.lockInv.holder_unique (h.holding hu') hh
  rcases observed_semaphoreP (s := m) (k := s.kernel) with ⟨hz, hv⟩ | ⟨hz, hv⟩
  · -- the thread goes to sleep and its request stays unfinished
    have hpc : (Kernel.semaphoreP m s.kernel).pc =
        update s.kernel.pc s.kernel.currentThread (.semaphoreP m) := congrArg Observed.pc hv
    refine h.frame (h.reach.step hk) ?_ (congrFun (congrArg Observed.value hv) m) rfl rfl rfl
      (fun t n' => ?_) fun t n' ht ho => ?_
    · refine (forall_update_iff s.place _).mpr ⟨?_, fun u hu => ?_⟩
      · rw [hv]
        exact ⟨.inl (by simp [Observed.goTo]), hh⟩
      · exact (h.control u).congr (by simp [hv, Observed.goTo, update_of_ne hu]) (by rw [hv]; rfl)
    · by_cases ht : t = s.kernel.currentThread
      · subst ht
        simp [Unfinished, hp, observed, hpc]
      · simp [Unfinished, update_of_ne ht, observed, hpc]
    · have hte : t ≠ s.kernel.currentThread := by
        rintro rfl
        simp [hpc] at ho
      exact h.finished t n' (by simpa [update_of_ne hte] using ht)
        (by simpa [hpc, update_of_ne hte] using ho)
  · -- the value is that of its own interrupt
    obtain ⟨-, -, hz'⟩ | ⟨hpend, hact, hone, hdone⟩ := h.unfinished _ n hu
    · exact absurd hz' hz
    have hpc : (Kernel.semaphoreP m s.kernel).pc = s.kernel.pc := by
      have := congrArg Observed.pc hv
      simpa [Observed.goTo, Observed.add, observed, ← ha.2] using this
    have hval : (Kernel.semaphoreP m s.kernel).value m = s.kernel.value m - 1 := by
      have := congrFun (congrArg Observed.value hv) m
      simpa [Observed.goTo, Observed.add, observed, Int.sub_eq_add_neg] using this
    have hno : ∀ u n', ¬ Unfinished m (Kernel.semaphoreP m s.kernel).observed u n'
        (update s.place s.kernel.currentThread (.waiting n) u) := by
      intro u n' hu'
      by_cases he : u = s.kernel.currentThread
      · subst he
        simp [Unfinished, observed, hpc, ha.2] at hu'
      · exact he (honly u n' (by simpa [Unfinished, update_of_ne he, observed, hpc] using hu'))
    refine ⟨h.reach.step hk, ?_, fun u n' hu' => absurd hu' (hno u n'),
      fun _ => ⟨hpend, hact, by simp [hval, hone]⟩, fun t n' ht ho => ?_⟩
    · refine (forall_update_iff s.place _).mpr ⟨?_, fun u hu => ?_⟩
      · rw [hv]
        exact ⟨.inr (by simp [Observed.goTo]), hh⟩
      · exact (h.control u).congr (congrFun hpc u) (by rw [hv]; rfl)
    · by_cases he : t = s.kernel.currentThread
      · subst he
        obtain rfl : n = n' := by simpa using ht
        exact hdone
      · exact h.finished t n' (by simpa [update_of_ne he] using ht) (by simpa [hpc] using ho)

theorem release (h : Inv l m s) (ha : s.kernel.AtCall)
    (hp : s.place s.kernel.currentThread = .waiting n)
    (hs : s.call (.release l) .idle = some s') : Inv l m s' := by
  obtain ⟨k, hk, rfl⟩ := Option.map_eq_some_iff.mp hs
  obtain ⟨-, rfl⟩ := step_call rfl hk
  have hv := observed_release (l := l) (k := s.kernel)
  have hpc : (Kernel.release l s.kernel).pc = s.kernel.pc := congrArg Observed.pc hv
  refine h.frame (h.reach.step hk) ?_ (congrFun (congrArg Observed.value hv) m) rfl rfl rfl
    (fun t n' => ?_) fun t n' ht ho => ?_
  · refine (forall_update_iff s.place _).mpr ⟨?_, fun u hu => ?_⟩
    · simp [Control, observed, ha.2, Pc.Avoids, Pc.uses]
    · exact (h.control u).congr (congrFun hpc u)
        (by simp [hv, Observed.hold, update_of_ne hu])
  · by_cases ht : t = s.kernel.currentThread
    · subst ht
      simp [Unfinished, hp, observed, ha.2]
    · simp [Unfinished, update_of_ne ht, observed]
  · have hte : t ≠ s.kernel.currentThread := by
      rintro rfl
      simp at ht
    exact h.finished t n' (by simpa [update_of_ne hte] using ht) (by simpa [hpc] using ho)

theorem interrupt (h : Inv l m s) (hs : s.handleInterrupt m n = some s') : Inv l m s' := by
  simp only [State.handleInterrupt, Option.ite_none_right_eq_some, Option.map_eq_some_iff] at hs
  obtain ⟨hn, k, hk, rfl⟩ := hs
  have hk' : semaphoreV m s.kernel = k := by simpa [Kernel.step] using hk
  subst hk'
  have hv := observed_semaphoreV (s := m) (k := s.kernel)
  have hpc : (semaphoreV m s.kernel).pc = s.kernel.pc := congrArg Observed.pc hv
  have hval : (semaphoreV m s.kernel).value m = s.kernel.value m + 1 := by
    have := congrFun (congrArg Observed.value hv) m
    simpa [Observed.add, observed] using this
  have hone : ∀ t n', Unfinished m s.kernel.observed t n' (s.place t) →
      s.pending = [n'] ∧ n' = n ∧ s.kernel.value m = 0 := by
    intro t n' hu
    obtain ⟨hp, -, hz⟩ | ⟨hp, -⟩ := h.unfinished t n' hu
    · exact ⟨hp, by simpa [hp, eq_comm] using hn, hz⟩
    · simp [hp] at hn
  have hsame : ∀ t n', Unfinished m (semaphoreV m s.kernel).observed t n' (s.place t) ↔
      Unfinished m s.kernel.observed t n' (s.place t) := by
    intro t n'
    simp [Unfinished, observed, hpc]
  refine ⟨h.reach.step hk, fun t => (h.control t).congr (congrFun hpc t) (by rw [hv]; rfl),
    fun t n' hu => .inr ?_, fun hno => ?_, fun t n' ht ho => ?_⟩
  · obtain ⟨hp, rfl, hz⟩ := hone t n' ((hsame t n').mp hu)
    exact ⟨by simp [hp], rfl, by simp [hval, hz], by simp⟩
  · have hq := h.quiet fun t n' hu => hno t n' ((hsame t n').mpr hu)
    simp [hq.1] at hn
  · exact List.mem_append_left _ (h.finished t n' ht (by simpa [hpc] using ho))

theorem step {a : Action} (h : Inv l m s) (hs : s.step l m a = some s') : Inv l m s' := by
  cases a with
  | other a =>
    simp only [State.step, Option.ite_none_right_eq_some, Option.map_eq_some_iff] at hs
    obtain ⟨⟨ha, hi⟩, k, hk, rfl⟩ := hs
    exact h.other ha (fun hc => Place.isIdle_iff.mp (hi hc)) hk
  | call r =>
    simp only [State.step, Option.ite_none_right_eq_some, Place.isIdle_iff] at hs
    exact h.enter hs.1 hs.2
  | interrupt n => exact h.interrupt hs
  | advance =>
    simp only [State.step, Option.ite_none_right_eq_some] at hs
    obtain ⟨ha, hs⟩ := hs
    unfold State.advance at hs
    split at hs
    case h_1 => cases hs
    case h_2 hp => exact (h.request ha hp).2 _ hs
    case h_3 hp => exact h.semaphoreP ha hp hs
    case h_4 hp => exact h.release ha hp hs

theorem of_initial (h : s.Initial m) : Inv l m s := by
  refine ⟨.init h.kernel, fun t => ?_, fun t n hu => ?_, fun _ => ⟨h.pending, h.active, h.value⟩,
    fun t n ht => ?_⟩
  · rw [h.place t]
    change (s.kernel.pc t).Avoids _
    rw [h.kernel.pc t]
    split <;> simp [Pc.Avoids, Pc.uses]
  · simp [Unfinished, h.place] at hu
  · simp [h.place] at ht

end Inv

theorem inv_of_reachable (h : Reachable (system l m) s) : Inv l m s :=
  h.invariant (P := Inv l m) (fun _ => Inv.of_initial) fun _ _ _ hi hs => hi.step hs

/-- For any number of threads and any interleaving of `ReadSector`, `WriteSector` and the
interrupts of the disk: the assertion `!active` holds at every request; at most one interrupt is
scheduled; a thread that is past its `P`, and so about to return, has had the interrupt of its
own request; and a value that `V` left in the semaphore belongs to the one thread that has made
a request and has not passed its `P`. -/
theorem synchDisk_own_completion (h : Reachable (system l m) s) :
    (∀ r, s.kernel.AtCall → s.place s.kernel.currentThread = .locked r → s.active = false) ∧
    s.pending.length ≤ 1 ∧
    (∀ t n, s.place t = .waiting n → s.kernel.pc t = .outside → n ∈ s.done) ∧
    (s.kernel.value m ≠ 0 → s.kernel.value m = 1 ∧
      ∃ t n, n ∈ s.done ∧ ∀ u n', Unfinished m s.kernel.observed u n' (s.place u) ↔
        u = t ∧ n' = n) := by
  have hi := inv_of_reachable h
  by_cases hno : ∀ t n, ¬ Unfinished m s.kernel.observed t n (s.place t)
  · obtain ⟨hp, -, hz⟩ := hi.quiet hno
    exact ⟨fun r ha hp => (hi.request ha hp).1, by simp [hp], hi.finished, fun hv => absurd hz hv⟩
  · push Not at hno
    obtain ⟨t, n, hu⟩ := hno
    have hphase := hi.unfinished t n hu
    refine ⟨fun r ha hp => (hi.request ha hp).1, ?_, hi.finished, fun hv => ?_⟩
    · rcases hphase with ⟨hp, -⟩ | ⟨hp, -⟩ <;> simp [hp]
    · obtain ⟨-, -, hz⟩ | ⟨-, -, hone, hdone⟩ := hphase
      · exact absurd hz hv
      refine ⟨hone, t, n, hdone, fun u n' => ⟨fun hu' => ?_, fun ⟨hut, hnn⟩ => hut ▸ hnn ▸ hu⟩⟩
      obtain rfl := hi.lockInv.holder_unique (hi.holding hu') (hi.holding hu)
      refine ⟨rfl, ?_⟩
      rcases hu with hu | ⟨hu, -⟩ <;> rcases hu' with hu' | ⟨hu', -⟩ <;> simp_all

/-- Thread 0 waits for its read when thread 1 calls `WriteSector`; after the interrupt thread 0
is past its `P`. -/
theorem synchDisk_own_completion_read :
    ∃ s, exec (State.step 0 0)
        ⟨boot 0, fun _ => .idle, fun _ _ => 0, fun _ _ => 0, false, [], 0, []⟩
        [.other (.fork 1), .call (.read 3), .advance, .advance, .other .dispatch,
          .call (.write 4 fun _ => 1), .interrupt 0, .other .dispatch] = some s ∧
      s.place 0 = .waiting 0 ∧ s.kernel.pc 0 = .outside ∧ 0 ∈ s.done := by
  obtain ⟨s, hs⟩ : ∃ s, exec (State.step 0 0)
      ⟨boot 0, fun _ => .idle, fun _ _ => 0, fun _ _ => 0, false, [], 0, []⟩
      [.other (.fork 1), .call (.read 3), .advance, .advance, .other .dispatch,
        .call (.write 4 fun _ => 1), .interrupt 0, .other .dispatch] = some s := ⟨_, rfl⟩
  have hr : Reachable (system 0 0) s :=
    ⟨_, _, ⟨initial_boot (by decide), rfl, fun _ => rfl, rfl, rfl, rfl⟩, run_ofStep_iff.mpr hs⟩
  have hp : s.place 0 = .waiting 0 ∧ s.kernel.pc 0 = .outside := by
    obtain rfl := Option.some.inj hs
    exact ⟨rfl, rfl⟩
  exact ⟨s, hs, hp.1, hp.2, (synchDisk_own_completion hr).2.2.1 0 0 hp.1 hp.2⟩

end Nachos.Filesys.SynchDisk
