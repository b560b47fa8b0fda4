import Nachos.Threads.Scheduler
import Nachos.Userprog.ProcessManager

/-! # Joining a process

A thread that waits in `join` is woken by the `Broadcast` of the process that it
joins, if it has come to its `Wait` before and the id still names the objects of
this process. Then it returns what the process has passed to `Exit`.
-/

namespace Nachos.Userprog.ProcessManager

open Function Transition Threads Observed

variable {b l c q n : ℕ} {t u : ThreadId} {v v' : Observed} {p : Place} {pc : Pc} {s s' : State}
  {a : Threads.Action} {k k' : Kernel} {x y : Option ℕ}

/-! ## Where the threads are -/

/-- The thread holds just this lock of the manager's. -/
def Holds (b : ℕ) (v : Observed) (t : ThreadId) (x : Option ℕ) : Prop :=
  ∀ l, b ≤ l → (v.holding l t = true ↔ x = some l)

/-- Where a thread is in the kernel and the lock of the manager's that it holds, for each place. -/
def Place.At (b : ℕ) (pc : Pc) (x : Option ℕ) : Place → Prop
  | .outside => x = none ∧ ∀ o ∈ pc.uses, Foreign b o
  | .found _ | .joined _ => pc = .outside ∧ x = none
  | .getPID => pc = .outside ∧ x = some b ∨ pc = .lockAcquire b ∧ x = none
  | .clearPID q | .join q => pc = .outside ∧ x = some q ∨ pc = .lockAcquire q ∧ x = none
  | .waiting q => pc = .outside ∧ x = some q ∨ pc.InWait q q ∧ x = none
  | .broadcast q => pc = .outside ∧ x = some q

def Control (b : ℕ) (v : Observed) (t : ThreadId) (p : Place) : Prop :=
  ∃ x, Holds b v t x ∧ p.At b (v.pc t) x

theorem Holds.congr (h : Holds b v t x) (hv : ∀ l, b ≤ l → v'.holding l t = v.holding l t) :
    Holds b v' t x := by
  intro l hl
  rw [hv l hl]
  exact h l hl

theorem Holds.hold_foreign (h : Holds b v t x) (hl : l < b) {z : Bool} :
    Holds b (v.hold l t z) t x := by
  refine h.congr fun m hm => ?_
  rw [Observed.hold]
  simp [update_of_ne (show m ≠ l by omega)]

theorem Holds.take (h : Holds b v t none) : Holds b (v.hold l t true) t (some l) := by
  intro m hm
  by_cases he : m = l
  · subst he
    simp [Observed.hold]
  · have := h m hm
    simpa [Observed.hold, update_of_ne he, Ne.symm he] using this

theorem Holds.drop (h : Holds b v t (some l)) : Holds b (v.hold l t false) t none := by
  intro m hm
  by_cases he : m = l
  · subst he
    simp [Observed.hold]
  · have := h m hm
    simpa [Observed.hold, update_of_ne he, Ne.symm he] using this

theorem Control.congr (h : Control b v t p) (hp : v'.pc t = v.pc t)
    (hv : ∀ l, b ≤ l → v'.holding l t = v.holding l t) : Control b v' t p := by
  obtain ⟨x, hx, hat⟩ := h
  exact ⟨x, hx.congr hv, hp ▸ hat⟩

theorem resume_outside (hr : Resume t v v') (hp : v.pc t = .outside) : v' = v := by
  cases hr with
  | stay => rfl
  | reacquire h => rcases h with h | h <;> cases hp.symm.trans h
  | root h | semaphoreP h | lockAcquire h | conditionWait h | conditionWoken h | barrierBlock h =>
    cases hp.symm.trans h

theorem Holds.resume_foreign (hx : Holds b v t none) (hf : ∀ o ∈ (v.pc t).uses, Foreign b o)
    (hr : Resume t v v') : Holds b v' t none ∧ ∀ o ∈ (v'.pc t).uses, Foreign b o := by
  cases hr with
  | stay => exact ⟨hx, hf⟩
  | root | semaphoreP | barrierBlock => exact ⟨hx, by simp [Observed.goTo, Pc.uses]⟩
  | lockAcquire hp =>
    rw [hp] at hf
    exact ⟨hx.hold_foreign (by simpa [Pc.uses, Foreign] using hf),
      by simp [Observed.goTo, Pc.uses]⟩
  | conditionWait hp | conditionWoken hp =>
    rw [hp] at hf
    exact ⟨hx, by simpa [Observed.goTo, Pc.uses] using hf⟩
  | @reacquire _ l hp =>
    have hl : .lock l ∈ (v.pc t).uses := by rcases hp with hp | hp <;> simp [hp, Pc.uses]
    exact ⟨hx.hold_foreign (hf _ hl), by simp [Observed.goTo, Pc.uses]⟩

theorem Holds.resume_acquire (hx : Holds b v t none) (hp : v.pc t = .lockAcquire l)
    (hr : Resume t v v') : v' = v ∨ v'.pc t = .outside ∧ Holds b v' t (some l) := by
  cases hr with
  | stay => exact .inl rfl
  | lockAcquire h =>
    cases hp.symm.trans h
    exact .inr ⟨by simp [Observed.goTo], hx.take⟩
  | reacquire h => rcases h with h | h <;> cases hp.symm.trans h
  | root h | semaphoreP h | conditionWait h | conditionWoken h | barrierBlock h =>
    cases hp.symm.trans h

theorem Holds.resume_wait (hx : Holds b v t none) (hp : (v.pc t).InWait c l)
    (hr : Resume t v v') :
    (v'.pc t).InWait c l ∧ Holds b v' t none ∨ v'.pc t = .outside ∧ Holds b v' t (some l) := by
  cases hr with
  | stay => exact .inl ⟨hp, hx⟩
  | conditionWait h | conditionWoken h =>
    rw [h] at hp
    exact .inl ⟨by simpa [Observed.goTo, Pc.InWait] using hp, hx⟩
  | @reacquire _ l' h =>
    obtain rfl : l' = l := by rcases h with h | h <;> simp_all [Pc.InWait]
    exact .inr ⟨by simp [Observed.goTo], hx.take⟩
  | root h | semaphoreP h | lockAcquire h | barrierBlock h =>
    rw [h] at hp
    exact hp.elim

theorem Control.resume (h : Control b v t p) (hr : Resume u v v') : Control b v' t p := by
  by_cases hu : t = u
  · subst hu
    obtain ⟨x, hx, hat⟩ := h
    cases p with
    | outside =>
      obtain ⟨rfl, hf⟩ := hat
      obtain ⟨hx', hf'⟩ := hx.resume_foreign hf hr
      exact ⟨none, hx', rfl, hf'⟩
    | getPID | clearPID | join =>
      obtain ⟨hp, rfl⟩ | ⟨hp, rfl⟩ := hat
      · rw [resume_outside hr hp]
        exact ⟨_, hx, .inl ⟨hp, rfl⟩⟩
      · obtain rfl | ⟨hp', hx'⟩ := hx.resume_acquire hp hr
        · exact ⟨_, hx, .inr ⟨hp, rfl⟩⟩
        · exact ⟨_, hx', .inl ⟨hp', rfl⟩⟩
    | waiting =>
      obtain ⟨hp, rfl⟩ | ⟨hp, rfl⟩ := hat
      · rw [resume_outside hr hp]
        exact ⟨_, hx, .inl ⟨hp, rfl⟩⟩
      · obtain ⟨hp', hx'⟩ | ⟨hp', hx'⟩ := hx.resume_wait hp hr
        · exact ⟨_, hx', .inr ⟨hp', rfl⟩⟩
        · exact ⟨_, hx', .inl ⟨hp', rfl⟩⟩
    | broadcast | found | joined =>
      obtain ⟨hp, rfl⟩ := hat
      rw [resume_outside hr hp]
      exact ⟨_, hx, hp, rfl⟩
  · exact h.congr (hr.other hu).1 fun l _ => (hr.other hu).2 l

theorem Control.other (h : Control b k.observed t p) (ha : ∀ o ∈ a.uses, Foreign b o)
    (hi : t = k.currentThread → a.isCode = true → p = .outside) (hs : k.step a = some k') :
    Control b k'.observed t p := by
  by_cases hr : ∃ u, Resume u k.observed k'.observed
  · obtain ⟨u, hr⟩ := hr
    exact h.resume hr
  have helse : ∀ o, ¬ Foreign b o →
      Elsewhere [o] k.currentThread k.observed k'.observed ∧
        ∀ t, k'.pc t = k.pc t ∨ t = k.currentThread ∧ a.isCode = true := by
    intro o ho
    have hav : a.Avoids [o] := by
      rintro o' ho' hm
      obtain rfl := List.mem_singleton.mp hm
      exact ho (ha o' ho')
    exact (observed_elsewhere hav hs).resolve_left hr
  have hh : ∀ l, b ≤ l → k'.history.holding l t = k.history.holding l t := fun l hl =>
    congrFun ((helse (.lock l) (by simpa [Foreign] using hl)).1.holding l (by simp)) t
  by_cases hp : k'.pc t = k.pc t
  · exact h.congr hp hh
  · obtain ⟨ht, hc⟩ := ((helse (.lock b) (by simp [Foreign])).2 t).resolve_left hp
    obtain rfl := hi ht hc
    obtain ⟨x, hx, rfl, -⟩ := h
    refine ⟨none, hx.congr hh, rfl, fun o ho => ?_⟩
    by_contra hf
    rcases (helse o hf).1.pc t with he | ⟨-, -, hav⟩
    · exact hp he
    · exact hav o ho (List.mem_singleton_self o)

theorem control_call {f : Kernel → Kernel} (hc : Kernel.call a = some f)
    (h : ∀ t, Control b k.observed t (s.place t))
    (hcur : Control b (f k).observed k.currentThread p) :
    ∀ t, Control b (f k).observed t (update s.place k.currentThread p t) := by
  intro t
  by_cases ht : t = k.currentThread
  · subst ht
    simpa using hcur
  · rw [update_of_ne ht]
    obtain ⟨hp, hh⟩ := call_other (k := k) hc ht
    exact (h t).congr hp fun l _ => hh l

theorem holds_acquire (hx : Holds b k.observed k.currentThread none) :
    ∃ x, Holds b (Kernel.acquire (.lockAcquire l) l k).observed k.currentThread x ∧
      ((Kernel.acquire (.lockAcquire l) l k).observed.pc k.currentThread = .outside ∧ x = some l ∨
        (Kernel.acquire (.lockAcquire l) l k).observed.pc k.currentThread = .lockAcquire l ∧
          x = none) := by
  rcases observed_acquire (p := .lockAcquire l) (l := l) (k := k) with hv | hv <;> rw [hv]
  · exact ⟨none, hx, .inr ⟨update_self _ _ _, rfl⟩⟩
  · exact ⟨some l, hx.take, .inl ⟨update_self _ _ _, rfl⟩⟩

theorem holds_release (hx : Holds b k.observed k.currentThread (some l)) :
    Holds b (Kernel.release l k).observed k.currentThread none ∧
      (Kernel.release l k).observed.pc = k.observed.pc := by
  rw [observed_release]
  exact ⟨hx.drop, rfl⟩

/-! ## The tables -/

/-- The process has not come to its `Broadcast`, or a thread is in its `clearPID` or `join`. -/
def State.Active (s : State) (q : ℕ) : Prop :=
  s.Created q ∧ ((∀ st, s.life q ≠ .exited st) ∨ ∃ t, (s.place t).process = some q)

theorem State.Active.of_update (ha : s'.Active q) (hplace : s'.place = update s.place t p)
    (hp : p.process ≠ some q) (hcr : s.Created q) (hlife : s'.life q = s.life q) : s.Active q := by
  refine ⟨hcr, hlife ▸ ha.2.imp_right fun ⟨u, hu⟩ => ⟨u, ?_⟩⟩
  rw [hplace, update_apply] at hu
  split at hu
  · exact absurd hu hp
  · exact hu

/-- How far the process has come whose `clearPID` or `join` thread `t` is in. -/
def Place.Sees (t : ThreadId) (life : Life) : Place → Prop
  | .clearPID _ => ∃ st, life = .exiting t st
  | .broadcast _ | .joined _ => ∃ st, life = .exited st
  | .join _ => ∀ st, life ≠ .exited st
  | .outside | .getPID | .found _ | .waiting _ => True

/-- What a thread at a place knows of the tables. -/
structure Place.Fits (s : State) (t : ThreadId) (p : Place) : Prop where
  process : ∀ q, p.process = some q → s.Created q ∧ p.Sees t (s.life q)
  found : ∀ n, p = .found n → s.bitmap.test n = true ∧ ∀ q, s.Active q → s.pid q ≠ n

def Life.Recorded (s : State) (q : ℕ) : Life → Prop
  | .live => s.bitmap.test (s.pid q) = true
  | .exiting u st => s.place u = .clearPID q ∧ s.returnStatus (s.pid q) = st
  | .exited st => s.returnStatus (s.pid q) = st

structure State.Keeps (s : State) (q : ℕ) : Prop where
  lock : s.lockTable (s.pid q) = some q
  condition : s.conditionTable (s.pid q) = some q
  life : (s.life q).Recorded s q

structure Books (s : State) : Prop where
  places : ∀ t, (s.place t).Fits s t
  found : ∀ t u n, s.place t = .found n → s.place u = .found n → t = u
  active : ∀ q, s.Active q → s.Keeps q
  returned : ∀ q st, (q, st) ∈ s.returned → s.Created q ∧ s.life q = .exited st

theorem Place.Fits.of_none (hp : p.process = none) (hf : ∀ n, p ≠ .found n) : p.Fits s t where
  process q hq := by cases hp.symm.trans hq
  found n hn := absurd hn (hf n)

theorem Place.Fits.of_some (hp : p.process = some q) (hq : s.Created q) (hs : p.Sees t (s.life q))
    (hf : ∀ n, p ≠ .found n) : p.Fits s t where
  process _ hq' := Option.some.inj (hp.symm.trans hq') ▸ ⟨hq, hs⟩
  found n hn := absurd hn (hf n)

theorem Place.Fits.mono (h : p.Fits s t) (hcr : ∀ q, s.Created q → s'.Created q)
    (hsees : ∀ q, p.process = some q → s.Created q → p.Sees t (s.life q) → p.Sees t (s'.life q))
    (htest : ∀ n, p = .found n → s'.bitmap.test n = s.bitmap.test n)
    (hfound : ∀ n, p = .found n → ∀ q, s'.Active q → s'.pid q ≠ n) : p.Fits s' t where
  process q hq := ⟨hcr q (h.process q hq).1, hsees q hq (h.process q hq).1 (h.process q hq).2⟩
  found n hn := ⟨(htest n hn).trans (h.found n hn).1, hfound n hn⟩

theorem Place.Sees.of_live {life : Life} (h : p.Sees t .live)
    (hl : ∀ st, life ≠ .exited st) : p.Sees t life := by
  cases p <;> simp_all [Place.Sees]

theorem Place.Sees.of_exiting {st : ℤ} (h : p.Sees u (.exiting t st)) (hu : u ≠ t)
    (hp : ∀ q, p ≠ .join q) : p.Sees u (.exited st) := by
  cases p with
  | clearPID =>
    obtain ⟨st', he⟩ := h
    cases he
    exact absurd rfl hu
  | join q => exact absurd rfl (hp q)
  | broadcast | joined => exact ⟨st, rfl⟩
  | _ => trivial

theorem Life.Recorded.mono {life : Life} (h : life.Recorded s q) (hpid : s'.pid q = s.pid q)
    (htest : s.bitmap.test (s.pid q) = true → s'.bitmap.test (s.pid q) = true)
    (hplace : ∀ u, s.place u = .clearPID q → s'.place u = .clearPID q)
    (hstatus : s'.returnStatus (s.pid q) = s.returnStatus (s.pid q)) : life.Recorded s' q := by
  cases life <;> simp only [Recorded, hpid, hstatus] at h ⊢
  · exact htest h
  · exact ⟨hplace _ h.1, h.2⟩
  · exact h

namespace Books

theorem pid_inj (h : Books s) {q' : ℕ} (hq : s.Active q) (hq' : s.Active q')
    (he : s.pid q = s.pid q') : q = q' := by
  have := (h.active q hq).lock
  rw [he, (h.active q' hq').lock] at this
  exact (Option.some.inj this).symm

theorem place_of_exiting (h : Books s) {st : ℤ} (hq : s.Created q) (hl : s.life q = .exiting u st) :
    s.place u = .clearPID q := by
  have := (h.active q ⟨hq, .inl fun st' he => by cases hl.symm.trans he⟩).life
  rw [hl] at this
  exact this.1

theorem kernel (h : Books s) (k : Kernel) : Books { s with kernel := k } where
  places t := ⟨(h.places t).process, (h.places t).found⟩
  found := h.found
  active q ha := by
    obtain ⟨hl, hc, hlife⟩ := h.active q ha
    exact ⟨hl, hc, hlife.mono rfl id (fun _ => id) rfl⟩
  returned := h.returned

theorem next (h : Books s) (hplace : s'.place = update s.place t p) (hp : p.Fits s' t)
    (hrest : ∀ u, u ≠ t → (s.place u).Fits s' u)
    (hfound : ∀ n, p = .found n → ∀ u, s.place u ≠ .found n)
    (hact : ∀ q, s'.Active q → s'.Keeps q)
    (hret : ∀ q st, (q, st) ∈ s'.returned → s'.Created q ∧ s'.life q = .exited st) : Books s' := by
  refine ⟨fun u => ?_, fun u w n hu hw => ?_, hact, hret⟩
  · rw [hplace, update_apply]
    split
    · rename_i hu
      exact hu ▸ hp
    · rename_i hu
      exact hrest u hu
  · rw [hplace, update_apply] at hu hw
    split at hu <;> split at hw
    · rename_i h₁ h₂
      rw [h₁, h₂]
    · exact absurd hw (hfound n hu w)
    · exact absurd hu (hfound n hw u)
    · exact h.found u w n hu hw

theorem move (h : Books s) (k : Kernel) (t : ThreadId) (r : List (ℕ × ℤ)) (hp : p.Fits s t)
    (hf : ∀ n, p ≠ .found n) (hc : ∀ q, s.place t ≠ .clearPID q)
    (hq : ∀ q st, p.process = some q → s.life q = .exited st → (s.place t).process = some q)
    (hr : ∀ q st, (q, st) ∈ r → s.Created q ∧ s.life q = .exited st) :
    Books { s with kernel := k, place := update s.place t p, returned := r } := by
  set s' : State := { s with kernel := k, place := update s.place t p, returned := r }
  have hact : ∀ q, s'.Active q → s.Active q := by
    rintro q ⟨hcr, hl⟩
    refine ⟨hcr, ?_⟩
    by_cases hex : ∃ st, s.life q = .exited st
    · obtain ⟨st, hst⟩ := hex
      obtain ⟨u, hu⟩ := hl.resolve_left fun hl => hl st hst
      simp only [s', update_apply] at hu
      split at hu
      · exact .inr ⟨t, hq q st hu hst⟩
      · exact .inr ⟨u, hu⟩
    · exact .inl fun st hst => hex ⟨st, hst⟩
  have hfits : ∀ {p u}, Place.Fits s u p → p.Fits s' u := fun hfit =>
    hfit.mono (fun _ => id) (fun _ _ _ => id) (fun _ _ => rfl)
      fun n hn q ha => (hfit.found n hn).2 q (hact q ha)
  refine h.next rfl (hfits hp) (fun u _ => hfits (h.places u)) (fun n hn => absurd hn (hf n)) ?_ hr
  intro q ha
  obtain ⟨hl, hcond, hlife⟩ := h.active q (hact q ha)
  refine ⟨hl, hcond, hlife.mono rfl id (fun u hu => ?_) rfl⟩
  have hne : u ≠ t := by
    rintro rfl
    exact hc q hu
  exact (update_of_ne hne _ _).trans hu

theorem find (h : Books s) (k : Kernel) {bitmap : BitMap} (hp : s.place t = .getPID)
    (hfind : s.bitmap.find = some (n, bitmap))
    (hfree : ∀ t q, (s.place t).process = some q → s.pid q ≠ n) :
    Books { s with kernel := k, bitmap := bitmap, place := update s.place t (.found n) } := by
  obtain ⟨-, hclear, -, rfl⟩ := BitMap.find_eq_some_iff.mp hfind
  set s' : State := { s with
    kernel := k, bitmap := s.bitmap.mark n, place := update s.place t (.found n) }
  have hmark : ∀ i, s.bitmap.test i = true → s'.bitmap.test i = true := fun i hi => by
    rw [BitMap.test_mark, hi, Bool.or_true]
  have hact : ∀ q, s'.Active q → s.Active q := fun q ha =>
    ha.of_update rfl (by simp [Place.process]) ha.1 rfl
  have hnew : ∀ q, s.Active q → s.pid q ≠ n := by
    rintro q ha rfl
    have hlife := (h.active q ha).life
    cases hl : s.life q with
    | live =>
      rw [hl] at hlife
      cases hlife.symm.trans hclear
    | exiting u st => exact hfree u q (by rw [h.place_of_exiting ha.1 hl]; rfl) rfl
    | exited st =>
      obtain ⟨u, hu⟩ := ha.2.resolve_left fun hne => hne st hl
      exact hfree u q hu rfl
  have hp' : Place.Fits s' t (.found n) := by
    refine ⟨fun _ hq => ?_, fun m hm => ?_⟩
    · cases hq
    · cases hm
      exact ⟨BitMap.test_mark_self, fun q ha => hnew q (hact q ha)⟩
  refine h.next rfl hp' ?_ ?_ ?_ h.returned
  · intro u _
    refine (h.places u).mono (fun _ => id) (fun _ _ _ => id) (fun m hm => ?_)
      fun m hm q ha => ((h.places u).found m hm).2 q (hact q ha)
    have ht := ((h.places u).found m hm).1
    rw [ht, hmark m ht]
  · intro m hm u hu
    cases hm
    cases ((h.places u).found n hu).1.symm.trans hclear
  · intro q ha
    obtain ⟨hl, hcond, hlife⟩ := h.active q (hact q ha)
    refine ⟨hl, hcond, hlife.mono rfl (hmark _) (fun u hu => ?_) rfl⟩
    have hne : u ≠ t := by
      rintro rfl
      cases hp.symm.trans hu
    exact (update_of_ne hne _ _).trans hu

theorem create (h : Books s) (hb : s.bitLock < s.next)
    (hp : s.place s.kernel.currentThread = .found n) :
    Books (s.create n) := by
  have hcr : ∀ q, (s.create n).Created q ↔ s.Created q ∨ q = s.next := by
    intro q
    simp only [State.Created, State.create, State.goTo]
    omega
  have hne : ∀ q, s.Created q → q ≠ s.next := fun q hq => hq.2.ne
  obtain ⟨htest, hpid⟩ := (h.places _).found n hp
  have hact : ∀ q, (s.create n).Active q → q ≠ s.next → s.Active q := by
    intro q ha hqn
    have hq := ((hcr q).mp ha.1).resolve_right hqn
    exact ha.of_update rfl (by simp [Place.process]) hq (update_of_ne hqn _ _)
  refine h.next rfl (.of_none rfl (by simp)) ?_ (fun m hm => by cases hm) ?_ ?_
  · intro u hu
    refine (h.places u).mono (fun q hq => (hcr q).mpr (.inl hq)) (fun q _ hq hsees => ?_)
      (fun _ _ => rfl) fun m hm q ha => ?_
    · have hl : (s.create n).life q = s.life q := update_of_ne (hne q hq) _ _
      rwa [hl]
    by_cases hqn : q = s.next
    · subst hqn
      simp only [State.create, State.goTo, update_self]
      rintro rfl
      exact hu (h.found u _ n hm hp)
    · simp only [State.create, State.goTo, update_of_ne hqn]
      exact ((h.places u).found m hm).2 q (hact q ha hqn)
  · intro q ha
    by_cases hqn : q = s.next
    · subst hqn
      refine ⟨?_, ?_, ?_⟩ <;> simp [State.create, State.goTo, Life.Recorded, htest]
    · have hq := hact q ha hqn
      obtain ⟨hl, hcond, hlife⟩ := h.active q hq
      have hpn := hpid q hq
      constructor
      · simpa [State.create, State.goTo, update_of_ne hqn, update_of_ne hpn] using hl
      · simpa [State.create, State.goTo, update_of_ne hqn, update_of_ne hpn] using hcond
      · have hl' : (s.create n).life q = s.life q := update_of_ne hqn _ _
        rw [hl']
        refine hlife.mono (update_of_ne hqn _ _) id (fun u hu => ?_) rfl
        have hne : u ≠ s.kernel.currentThread := by
          rintro rfl
          cases hp.symm.trans hu
        exact (update_of_ne hne _ _).trans hu
  · intro q st hr
    obtain ⟨hq, hl⟩ := h.returned q st hr
    exact ⟨(hcr q).mpr (.inl hq), (update_of_ne (hne q hq) _ _).trans hl⟩

/-- A process whose status has been returned has exited, so the life of one that has not exited is
no part of the record. -/
theorem returned_update (h : Books s) {life : Life} (hl : ∀ st, s.life q ≠ .exited st) (q' : ℕ)
    (st' : ℤ) (hr : (q', st') ∈ s.returned) :
    s.Created q' ∧ update s.life q life q' = .exited st' := by
  obtain ⟨hq', hl'⟩ := h.returned q' st' hr
  have he : q' ≠ q := by
    rintro rfl
    exact hl st' hl'
  exact ⟨hq', (update_of_ne he _ _).trans hl'⟩

theorem exit (h : Books s) (k : Kernel) (st : ℤ) (hp : s.place t = .outside) (hq : s.Created q)
    (hl : s.life q = .live) :
    Books { s with
      kernel := k
      returnStatus := update s.returnStatus (s.pid q) st
      bitmap := s.bitmap.clear (s.pid q)
      life := update s.life q (.exiting t st)
      place := update s.place t (.clearPID q) } := by
  set s' : State := { s with
    kernel := k
    returnStatus := update s.returnStatus (s.pid q) st
    bitmap := s.bitmap.clear (s.pid q)
    life := update s.life q (.exiting t st)
    place := update s.place t (.clearPID q) }
  have hqa : s.Active q := ⟨hq, .inl fun st he => by cases hl.symm.trans he⟩
  have hact : ∀ q', s'.Active q' → s.Active q' := by
    intro q' ha
    by_cases he : q' = q
    · exact he ▸ hqa
    · exact ha.of_update rfl (fun hp => he (Option.some.inj hp).symm) ha.1 (update_of_ne he _ _)
  have hpid : ∀ q', s.Active q' → q' ≠ q → s.pid q ≠ s.pid q' := fun q' ha he heq =>
    he (h.pid_inj ha hqa heq.symm)
  have hp' : Place.Fits s' t (.clearPID q) :=
    .of_some rfl hq ⟨st, update_self _ _ _⟩ (by simp)
  refine h.next rfl hp' ?_ (fun m hm => by cases hm) ?_ ?_
  · intro u hu
    refine (h.places u).mono (fun _ => id) (fun q' _ _ hsees => ?_) (fun m hm => ?_)
      fun m hm q' ha => ((h.places u).found m hm).2 q' (hact q' ha)
    · by_cases he : q' = q
      · subst he
        rw [hl] at hsees
        have hl' : s'.life q' = .exiting t st := update_self _ _ _
        rw [hl']
        exact hsees.of_live fun st' => by simp
      · have hl' : s'.life q' = s.life q' := update_of_ne he _ _
        rwa [hl']
    · exact BitMap.test_clear_of_ne (((h.places u).found m hm).2 q hqa)
  · intro q' ha
    obtain ⟨hlock, hcond, hlife⟩ := h.active q' (hact q' ha)
    refine ⟨hlock, hcond, ?_⟩
    by_cases he : q' = q
    · subst he
      have hl' : s'.life q' = .exiting t st := update_self _ _ _
      rw [hl']
      exact ⟨update_self _ _ _, update_self _ _ _⟩
    · have hl' : s'.life q' = s.life q' := update_of_ne he _ _
      have hne := hpid q' (hact q' ha) he
      rw [hl']
      refine hlife.mono rfl (fun ht => ?_) (fun u hu => ?_) (update_of_ne hne.symm _ _)
      · exact (BitMap.test_clear_of_ne hne).trans ht
      · have hne : u ≠ t := by
          rintro rfl
          cases hp.symm.trans hu
        exact (update_of_ne hne _ _).trans hu
  · exact h.returned_update fun st' hl' => by cases hl.symm.trans hl'

theorem broadcast (h : Books s) (k : Kernel) {st : ℤ} (hp : s.place t = .clearPID q)
    (hl : s.life q = .exiting t st) (hj : ∀ u, s.place u ≠ .join q) :
    Books { s with
      kernel := k
      life := update s.life q (.exited st)
      place := update s.place t (.broadcast q) } := by
  set s' : State := { s with
    kernel := k
    life := update s.life q (.exited st)
    place := update s.place t (.broadcast q) }
  have hq : s.Created q := ((h.places t).process q (by rw [hp]; rfl)).1
  have hact : ∀ q', s'.Active q' → s.Active q' := by
    intro q' ha
    by_cases he : q' = q
    · subst he
      exact ⟨ha.1, .inl fun st he => by cases hl.symm.trans he⟩
    · exact ha.of_update rfl (fun hp => he (Option.some.inj hp).symm) ha.1 (update_of_ne he _ _)
  have hp' : Place.Fits s' t (.broadcast q) :=
    .of_some rfl hq ⟨st, update_self _ _ _⟩ (by simp)
  refine h.next rfl hp' ?_ (fun m hm => by cases hm) ?_ ?_
  · intro u hu
    refine (h.places u).mono (fun _ => id) (fun q' hq' _ hsees => ?_) (fun _ _ => rfl)
      fun m hm q' ha => ((h.places u).found m hm).2 q' (hact q' ha)
    by_cases he : q' = q
    · subst he
      rw [hl] at hsees
      have hl' : s'.life q' = .exited st := update_self _ _ _
      rw [hl']
      refine hsees.of_exiting hu fun q'' hj' => ?_
      rw [hj'] at hq'
      exact hj u (Option.some.inj hq' ▸ hj')
    · have hl' : s'.life q' = s.life q' := update_of_ne he _ _
      rwa [hl']
  · intro q' ha
    obtain ⟨hlock, hcond, hlife⟩ := h.active q' (hact q' ha)
    refine ⟨hlock, hcond, ?_⟩
    by_cases he : q' = q
    · subst he
      have hl' : s'.life q' = .exited st := update_self _ _ _
      rw [hl] at hlife
      rw [hl']
      exact hlife.2
    · have hl' : s'.life q' = s.life q' := update_of_ne he _ _
      rw [hl']
      refine hlife.mono rfl id (fun u hu => ?_) rfl
      have hne : u ≠ t := by
        rintro rfl
        cases hp.symm.trans hu
        exact he rfl
      exact (update_of_ne hne _ _).trans hu
  · exact h.returned_update fun st' hl' => by cases hl.symm.trans hl'

end Books

/-! ## Every state of a careful run -/

theorem not_created_of_initial (h : State.Initial s) : ¬ s.Created q := by
  rintro ⟨hb, hn⟩
  rw [h.next] at hn
  omega

structure Inv (s : State) : Prop where
  books : Books s
  next : s.bitLock < s.next
  reach : Reachable Kernel.system s.kernel
  control : ∀ t, Control s.bitLock s.kernel.observed t (s.place t)
  /-- A thread in `Wait` has been woken only by `Broadcast`. -/
  waiting : ∀ t q, s.place t = .waiting q →
    t ∈ s.kernel.queue (.condition q) ∨ ∃ st, s.life q = .exited st
  empty : ∀ q st, s.Created q → s.life q = .exited st → s.kernel.queue (.condition q) = []

/-- The lock that a thread at this place has called `Acquire` for. -/
def Place.lock (b : ℕ) : Place → Option ℕ
  | .getPID => some b
  | .clearPID q | .broadcast q | .join q | .waiting q => some q
  | .outside | .found _ | .joined _ => none

theorem Control.outside (h : Control b v t p) (hp : (∃ n, p = .found n) ∨ ∃ q, p = .joined q) :
    Control b v t .outside := by
  obtain ⟨x, hx, hat⟩ := h
  obtain ⟨hpc, rfl⟩ : v.pc t = .outside ∧ x = none := by
    rcases hp with ⟨n, rfl⟩ | ⟨q, rfl⟩ <;> exact hat
  exact ⟨none, hx, rfl, by simp [hpc, Pc.uses]⟩

theorem Control.holds (h : Control b v t p) (hp : v.pc t = .outside) : Holds b v t (p.lock b) := by
  obtain ⟨x, hx, hat⟩ := h
  cases p <;> simp_all [Place.At, Place.lock, Pc.InWait]

/-- A thread that holds the lock of a process, or is in its `Acquire`, is in a routine for this
process. -/
theorem Control.process (h : Control b v t p) (hl : b < l)
    (hu : v.holding l t = true ∨ (v.pc t).object = some (.lock l)) :
    p.process = some l ∧ p.lock b = some l := by
  obtain ⟨x, hx, hat⟩ := h
  rw [hx l hl.le] at hu
  cases p with
  | outside =>
    obtain ⟨rfl, hf⟩ := hat
    have ho := hu.resolve_left (by simp)
    have hm : .lock l ∈ (v.pc t).uses := by
      cases hp : v.pc t <;> simp_all [Pc.object, Pc.uses]
    exact absurd (hf _ hm) hl.not_gt
  | getPID => rcases hat with ⟨hp, rfl⟩ | ⟨hp, rfl⟩ <;> simp [hp, Pc.object] at hu <;> omega
  | found | joined =>
    obtain ⟨hp, rfl⟩ := hat
    simp [hp, Pc.object] at hu
  | broadcast =>
    obtain ⟨hp, rfl⟩ := hat
    simpa [hp, Pc.object, Place.process, Place.lock] using hu
  | clearPID | join =>
    rcases hat with ⟨hp, rfl⟩ | ⟨hp, rfl⟩ <;>
      simpa [hp, Pc.object, Place.process, Place.lock] using hu
  | waiting q =>
    rcases hat with ⟨hp, rfl⟩ | ⟨hp, rfl⟩
    · simpa [hp, Pc.object, Place.process, Place.lock] using hu
    · cases hpc : v.pc t <;> simp_all [Pc.object, Place.process, Place.lock, Pc.InWait]

theorem Control.outside_of_holding (h : Control b v t p) (hl : b < l)
    (hu : v.holding l t = true) : v.pc t = .outside := by
  obtain ⟨x, hx, hat⟩ := h
  obtain rfl := (hx l hl.le).mp hu
  cases p <;> simp_all [Place.At]

namespace Inv

theorem goOn (h : Inv s) (hb : Books s')
    (hplace : s'.place = update s.place s.kernel.currentThread p) (hbit : s'.bitLock = s.bitLock)
    (hnext : s.next ≤ s'.next) (hreach : Reachable Kernel.system s'.kernel)
    (hcontrol : ∀ t, Control s.bitLock s'.kernel.observed t (s'.place t))
    (hqueue : ∀ c, s'.kernel.queue (.condition c) = s.kernel.queue (.condition c))
    (hlife : ∀ q st, s.Created q → s.life q = .exited st → s'.life q = .exited st)
    (hlife' : ∀ q st, s'.Created q → s'.life q = .exited st → s.Created q ∧ s.life q = .exited st)
    (hp : ∀ q, p ≠ .waiting q) : Inv s' := by
  have hn : s'.bitLock < s'.next := hbit ▸ h.next.trans_le hnext
  refine ⟨hb, hn, hreach, hbit ▸ hcontrol, fun t q ht => ?_, fun q st hq hl => ?_⟩
  · rw [hplace, update_apply] at ht
    split at ht
    · exact absurd ht (hp q)
    · rw [hqueue]
      refine (h.waiting t q ht).imp_right fun ⟨st, hl⟩ => ⟨st, hlife q st ?_ hl⟩
      exact ((h.books.places t).process q (by rw [ht]; rfl)).1
  · obtain ⟨hq', hl'⟩ := hlife' q st hq hl
    rw [hqueue]
    exact h.empty q st hq' hl'

theorem lockCall (h : Inv s) {f : Kernel → Kernel} (hc : Kernel.call a = some f)
    (ha : ∀ c, .condition c ∉ a.uses) (hk : s.kernel.step a = some k)
    (hb : Books s') (hs' : s'.kernel = k)
    (hplace : s'.place = update s.place s.kernel.currentThread p)
    (hbit : s'.bitLock = s.bitLock) (hnext : s'.next = s.next)
    (hcur : Control s.bitLock k.observed s.kernel.currentThread p)
    (hlife : ∀ q st, s'.life q = .exited st ↔ s.life q = .exited st)
    (hp : ∀ q, p ≠ .waiting q) : Inv s' := by
  subst hs'
  obtain ⟨-, he⟩ := step_call hc hk
  refine h.goOn hb hplace hbit hnext.ge (h.reach.step hk) ?_ (fun c => queue_condition_eq (ha c) hk)
    (fun q st _ => (hlife q st).mpr) (fun q st hq hl => ⟨?_, (hlife q st).mp hl⟩) hp
  · rw [hplace, he]
    exact control_call hc h.control (he ▸ hcur)
  · rwa [State.Created, hbit, hnext] at hq

theorem holds_current (h : Inv s) (hp : s.kernel.pc s.kernel.currentThread = .outside) :
    Holds s.bitLock s.kernel.observed s.kernel.currentThread
      ((s.place s.kernel.currentThread).lock s.bitLock) :=
  (h.control _).holds hp

theorem keeps (h : Inv s) (hp : (s.place t).process = some q) : s.Keeps q :=
  h.books.active q ⟨((h.books.places t).process q hp).1, .inr ⟨t, hp⟩⟩

/-- The current thread holds the lock of the process, so `Wait` and `Broadcast` do their work. -/
theorem isHeld (h : Inv s) (hp : s.kernel.pc s.kernel.currentThread = .outside)
    (hl : (s.place s.kernel.currentThread).lock s.bitLock = some q) (hq : s.bitLock ≤ q) :
    s.kernel.isHeldByCurrentThread q = true := by
  have hx := h.holds_current hp
  rw [hl] at hx
  have := ((LockInv.of_reachable (l := q) h.reach).holding _).mp ((hx q hq).mpr rfl)
  simp [Kernel.isHeldByCurrentThread, this.2]

theorem control_acquire (h : Inv s) (hc : s.place s.kernel.currentThread = .outside)
    (hk : s.kernel.step (.acquire l) = some k)
    (hp : ∀ pc x, pc = .outside ∧ x = some l ∨ pc = .lockAcquire l ∧ x = none →
      p.At s.bitLock pc x) : Control s.bitLock k.observed s.kernel.currentThread p := by
  obtain ⟨hcall, rfl⟩ := step_call rfl hk
  have hx := h.holds_current hcall.2
  rw [hc] at hx
  obtain ⟨x, hx', hat⟩ := holds_acquire (l := l) hx
  exact ⟨x, hx', hp _ x hat⟩

theorem control_release (h : Inv s) (hk : s.kernel.step (.release l) = some k)
    (hl : (s.place s.kernel.currentThread).lock s.bitLock = some l)
    (hp : p.At s.bitLock .outside none) :
    Control s.bitLock k.observed s.kernel.currentThread p := by
  obtain ⟨hcall, rfl⟩ := step_call rfl hk
  have hx := h.holds_current hcall.2
  rw [hl] at hx
  obtain ⟨hx', hpc⟩ := holds_release hx
  refine ⟨none, hx', ?_⟩
  rwa [hpc, show s.kernel.observed.pc s.kernel.currentThread = .outside from hcall.2]

theorem getPID (h : Inv s) (hc : s.place s.kernel.currentThread = .outside)
    (hs : s.call (.acquire s.bitLock) .getPID = some s') : Inv s' := by
  obtain ⟨k, hk, rfl⟩ := Option.map_eq_some_iff.mp hs
  have hb := h.books.move k s.kernel.currentThread s.returned (p := .getPID)
    (.of_none rfl (by simp)) (by simp) (by simp [hc]) (by simp [Place.process]) h.books.returned
  exact h.lockCall (a := .acquire s.bitLock) rfl (by simp [Action.uses]) hk hb rfl rfl rfl rfl
    (h.control_acquire hc hk fun _ _ hat => hat) (fun _ _ => Iff.rfl) (by simp)

theorem find (h : Inv s) (hc : s.place s.kernel.currentThread = .getPID)
    (hfree : ∀ pid bitmap, s.bitmap.find = some (pid, bitmap) →
      ∀ t q, (s.place t).process = some q → s.pid q ≠ pid)
    (hs : s.find = some s') : Inv s' := by
  obtain ⟨⟨n, bitmap⟩, hfind, hs⟩ := Option.bind_eq_some_iff.mp hs
  obtain ⟨k, hk, rfl⟩ := Option.map_eq_some_iff.mp hs
  exact h.lockCall (a := .release s.bitLock) rfl (by simp [Action.uses]) hk
    (h.books.find k hc hfind (hfree n bitmap hfind)) rfl rfl rfl rfl
    (h.control_release hk (by rw [hc]; rfl) ⟨rfl, rfl⟩) (fun _ _ => Iff.rfl) (by simp)

theorem create (h : Inv s) (hc : s.place s.kernel.currentThread = .found n) :
    Inv (s.create n) := by
  refine h.goOn (h.books.create h.next hc) rfl rfl (Nat.le_succ _) h.reach (fun t => ?_)
    (fun _ => rfl) (fun q st hq hl => ?_) (fun q st hq hl => ?_) (by simp)
  · have ht := h.control t
    simp only [State.create, State.goTo, update_apply]
    split
    · exact ht.outside (.inl ⟨n, by rwa [‹t = _›]⟩)
    · exact ht
  · exact (update_of_ne hq.2.ne _ _).trans hl
  · simp only [State.create, State.goTo, update_apply] at hl
    split at hl
    · cases hl
    · rename_i hne
      have hq' : s.bitLock < q ∧ q < s.next + 1 := hq
      exact ⟨⟨hq'.1, by omega⟩, hl⟩

theorem exit (h : Inv s) {st : ℤ} (hc : s.place s.kernel.currentThread = .outside)
    (hq : s.Created q) (hl : s.life q = .live) (hs : s.exit q st = some s') : Inv s' := by
  obtain ⟨l, hlock, hs⟩ := Option.bind_eq_some_iff.mp hs
  have hkeeps := h.books.active q ⟨hq, .inl fun st he => by cases hl.symm.trans he⟩
  obtain rfl : l = q := Option.some.inj (hlock.symm.trans hkeeps.lock)
  obtain ⟨k, hk, rfl⟩ := Option.map_eq_some_iff.mp hs
  refine h.lockCall (a := .acquire l) rfl (by simp [Action.uses]) hk
    (h.books.exit k st hc hq hl) rfl rfl rfl rfl
    (h.control_acquire hc hk fun _ _ hat => hat) (fun q' st' => ?_) (by simp)
  by_cases he : q' = l
  · subst he
    simp [hl]
  · simp [update_of_ne he]

theorem release (h : Inv s) (hq : (s.place s.kernel.currentThread).process = some q)
    (hl : (s.place s.kernel.currentThread).lock s.bitLock = some q)
    (hc : ∀ q, s.place s.kernel.currentThread ≠ .clearPID q) (hp : p.Fits s s.kernel.currentThread)
    (hp' : p = .outside ∨ p = .joined q) (hr : s.release q p = some s') : Inv s' := by
  obtain ⟨l, hlock, hs⟩ := Option.bind_eq_some_iff.mp hr
  obtain rfl : l = q := Option.some.inj (hlock.symm.trans (h.keeps hq).lock)
  obtain ⟨k, hk, rfl⟩ := Option.map_eq_some_iff.mp hs
  have hb := h.books.move k s.kernel.currentThread s.returned hp
    (by rcases hp' with rfl | rfl <;> simp) hc
    (fun q' st hq' _ => by rcases hp' with rfl | rfl <;> cases hq'; exact hq) h.books.returned
  exact h.lockCall (a := .release l) rfl (by simp [Action.uses]) hk hb rfl rfl rfl rfl
    (h.control_release hk hl (by rcases hp' with rfl | rfl <;> simp [Place.At, Pc.uses]))
    (fun _ _ => Iff.rfl) (by rcases hp' with rfl | rfl <;> simp)

theorem join (h : Inv s) (hc : s.place s.kernel.currentThread = .outside) (hq : s.Created q)
    (hl : ∀ st, s.life q ≠ .exited st) (hlock : s.lockTable (s.pid q) = some l)
    (hs : s.call (.acquire l) (.join q) = some s') : Inv s' := by
  obtain rfl : l = q :=
    Option.some.inj (hlock.symm.trans (h.books.active q ⟨hq, .inl hl⟩).lock)
  obtain ⟨k, hk, rfl⟩ := Option.map_eq_some_iff.mp hs
  have hb := h.books.move k s.kernel.currentThread s.returned (p := .join l)
    (.of_some rfl hq hl (by simp)) (by simp) (by simp [hc])
    (fun q st he hex => absurd hex (Option.some.inj he ▸ hl st)) h.books.returned
  exact h.lockCall (a := .acquire l) rfl (by simp [Action.uses]) hk hb rfl rfl rfl rfl
    (h.control_acquire hc hk fun _ _ hat => hat) (fun _ _ => Iff.rfl) (by simp)

theorem wait (h : Inv s) (hc : s.place s.kernel.currentThread = .join q)
    (hw : s.wait q = some s') : Inv s' := by
  have hproc : (s.place s.kernel.currentThread).process = some q := by rw [hc]; rfl
  obtain ⟨hq, hsees⟩ := (h.books.places _).process q hproc
  have hkeeps := h.keeps hproc
  obtain ⟨c, hcond, hw⟩ := Option.bind_eq_some_iff.mp hw
  obtain ⟨l, hlock, hs⟩ := Option.bind_eq_some_iff.mp hw
  obtain rfl : c = q := Option.some.inj (hcond.symm.trans hkeeps.condition)
  obtain rfl : l = c := Option.some.inj (hlock.symm.trans hkeeps.lock)
  obtain ⟨k, hk, rfl⟩ := Option.map_eq_some_iff.mp hs
  obtain ⟨hcall, rfl⟩ := step_call rfl hk
  have hb := h.books.move (Kernel.wait l l s.kernel) s.kernel.currentThread s.returned
    (p := .waiting l) (.of_some rfl hq trivial (by simp)) (by simp) (by simp [hc])
    (fun q' _ he _ => Option.some.inj he ▸ hproc) h.books.returned
  have hheld := h.isHeld hcall.2 (by rw [hc]; rfl) hq.1.le
  have hv := observed_wait (k := s.kernel) (c := l) (l := l)
  rw [if_pos hheld] at hv
  have hx := h.holds_current hcall.2
  rw [hc] at hx
  have hqueue : ∀ q', (Kernel.wait l l s.kernel).queue (.condition q') =
      if q' = l then s.kernel.queue (.condition l) ++ [s.kernel.currentThread]
      else s.kernel.queue (.condition q') := by
    intro q'
    have := congrFun (congrArg Observed.waiting hv) q'
    simpa [Observed.goTo, Observed.setWaiting, Observed.hold, Kernel.observed,
      update_apply] using this
  refine ⟨hb, h.next, h.reach.step hk, ?_, ?_, ?_⟩
  · refine control_call (a := .wait l l) rfl h.control ⟨none, ?_, .inr ⟨?_, rfl⟩⟩
    · rw [hv]
      exact hx.drop
    · rw [hv]
      simp [Observed.goTo, Pc.InWait]
  · intro t q' ht
    simp only [update_apply] at ht
    rw [hqueue]
    split at ht
    · rename_i he
      cases ht
      simp [he]
    · refine (h.waiting t q' ht).imp_left fun hm => ?_
      split
      · rename_i he
        exact List.mem_append_left _ (he ▸ hm)
      · exact hm
  · intro q' st hq' hl
    have hne : q' ≠ l := by
      rintro rfl
      rw [hc] at hsees
      exact hsees st hl
    rw [hqueue, if_neg hne]
    exact h.empty q' st hq' hl

theorem broadcast (h : Inv s) (hc : s.place s.kernel.currentThread = .clearPID q)
    (ha : s.kernel.AtCall) (hj : ∀ t, s.place t ≠ .join q)
    (hw : s.broadcast q = some s') : Inv s' := by
  have hproc : (s.place s.kernel.currentThread).process = some q := by rw [hc]; rfl
  obtain ⟨hq, hsees⟩ := (h.books.places _).process q hproc
  have hkeeps := h.keeps hproc
  obtain ⟨c, hcond, hw⟩ := Option.bind_eq_some_iff.mp hw
  obtain ⟨l, hlock, hs⟩ := Option.bind_eq_some_iff.mp hw
  obtain rfl : c = q := Option.some.inj (hcond.symm.trans hkeeps.condition)
  obtain rfl : l = c := Option.some.inj (hlock.symm.trans hkeeps.lock)
  obtain ⟨k, hk, rfl⟩ := Option.map_eq_some_iff.mp hs
  obtain ⟨-, rfl⟩ := step_call rfl hk
  rw [hc] at hsees
  obtain ⟨st, hl⟩ := hsees
  have hb := h.books.broadcast (Kernel.broadcast l l s.kernel) hc hl hj
  have hheld := h.isHeld ha.2 (by rw [hc]; rfl) hq.1.le
  have hv := observed_broadcast (k := s.kernel) (c := l) (l := l)
  rw [if_pos hheld] at hv
  have hqueue : ∀ q', (Kernel.broadcast l l s.kernel).queue (.condition q') =
      if q' = l then [] else s.kernel.queue (.condition q') := by
    intro q'
    have := congrFun (congrArg Observed.waiting hv) q'
    simpa [Observed.setWaiting, Kernel.observed, update_apply] using this
  simp only [hl]
  refine ⟨hb, h.next, h.reach.step hk, ?_, ?_, ?_⟩
  · refine control_call (a := .broadcast l l) rfl h.control ?_
    have hx := h.holds_current ha.2
    rw [hc] at hx
    rw [hv]
    exact ⟨some l, hx, ha.2, rfl⟩
  · intro t q' ht
    simp only [update_apply] at ht ⊢
    split at ht
    · cases ht
    · rw [hqueue]
      split
      · exact .inr ⟨st, rfl⟩
      · exact h.waiting t q' ht
  · intro q' st' hq' hl'
    rw [hqueue]
    split
    · rfl
    · rename_i hne
      exact h.empty q' st' hq' (by simpa [update_of_ne hne] using hl')

theorem joined (h : Inv s) (hc : s.place s.kernel.currentThread = .joined q) :
    Inv (State.goTo .outside
      { s with returned := s.returned ++ [(q, s.returnStatus (s.pid q))] }) := by
  have hproc : (s.place s.kernel.currentThread).process = some q := by rw [hc]; rfl
  obtain ⟨hq, hsees⟩ := (h.books.places _).process q hproc
  rw [hc] at hsees
  obtain ⟨st, hl⟩ := hsees
  have hstatus := (h.keeps hproc).life
  rw [hl] at hstatus
  have hb := h.books.move s.kernel s.kernel.currentThread
    (s.returned ++ [(q, s.returnStatus (s.pid q))]) (p := .outside) (.of_none rfl (by simp))
    (by simp) (by simp [hc]) (by simp [Place.process]) ?_
  · refine h.goOn hb rfl rfl le_rfl h.reach (fun t => ?_) (fun _ => rfl) (fun _ _ _ hl => hl)
      (fun _ _ hq hl => ⟨hq, hl⟩) (by simp)
    have ht := h.control t
    simp only [State.goTo, update_apply]
    split
    · exact ht.outside (.inr ⟨q, by rwa [‹t = _›]⟩)
    · exact ht
  · intro q' st' hm
    rcases List.mem_append.mp hm with hm | hm
    · exact h.books.returned q' st' hm
    · cases List.mem_singleton.mp hm
      exact ⟨hq, hl.trans (congrArg Life.exited hstatus.symm)⟩

theorem other (h : Inv s) (ha : ∀ o ∈ a.uses, Foreign s.bitLock o)
    (hc : a.isCode = true → s.place s.kernel.currentThread = .outside)
    (hk : s.kernel.step a = some k) : Inv { s with kernel := k } := by
  have hqueue : ∀ q, s.bitLock ≤ q → k.queue (.condition q) = s.kernel.queue (.condition q) :=
    fun q hq => queue_condition_eq (fun hm => by simpa [Foreign] using (ha _ hm).not_ge hq) hk
  refine ⟨h.books.kernel k, h.next, h.reach.step hk,
    fun t => (h.control t).other ha (fun ht hi => ht ▸ hc hi) hk, ?_, ?_⟩
  · intro t q ht
    have hq := ((h.books.places t).process q (by rw [show s.place t = _ from ht]; rfl)).1
    rw [hqueue q hq.1.le]
    exact h.waiting t q ht
  · intro q st hq hl
    rw [hqueue q hq.1.le]
    exact h.empty q st hq hl

theorem advance (h : Inv s) (hcall : s.kernel.AtCall) (hcare : s.Careful .advance)
    (hs : s.advance = some s') : Inv s' := by
  unfold State.advance at hs
  unfold State.Careful at hcare
  cases hc : s.place s.kernel.currentThread with
  | outside => simp [hc] at hs
  | getPID =>
    simp only [hc] at hs hcare
    exact h.find hc hcare hs
  | found n =>
    simp only [hc, Option.some.injEq] at hs
    exact hs ▸ h.create hc
  | clearPID q =>
    simp only [hc] at hs hcare
    exact h.broadcast hc hcall hcare hs
  | broadcast q =>
    simp only [hc] at hs
    exact h.release (by rw [hc]; rfl) (by rw [hc]; rfl) (by simp [hc]) (.of_none rfl (by simp))
      (.inl rfl) hs
  | join q =>
    simp only [hc] at hs
    exact h.wait hc hs
  | waiting q =>
    simp only [hc] at hs
    have hproc : (s.place s.kernel.currentThread).process = some q := by rw [hc]; rfl
    -- The thread runs, so it is not in the queue.
    obtain ⟨st, hl⟩ := (h.waiting _ q hc).resolve_left
      ((placed_of_reachable h.reach).not_mem_queue hcall.1 _)
    exact h.release (p := .joined q) hproc (by rw [hc]; rfl) (by simp [hc])
      (.of_some rfl ((h.books.places _).process q hproc).1 ⟨st, hl⟩ (by simp)) (.inr rfl) hs
  | joined q =>
    simp only [hc, Option.some.injEq] at hs
    exact hs ▸ h.joined hc

theorem step (h : Inv s) {a : Action} (hcare : s.Careful a) (hs : s.step a = some s') :
    Inv s' := by
  cases a with
  | other a =>
    obtain ⟨⟨ha, hc⟩, hs⟩ := Option.ite_none_right_eq_some.mp hs
    obtain ⟨k, hk, rfl⟩ := Option.map_eq_some_iff.mp hs
    exact h.other ha hc hk
  | getPID =>
    obtain ⟨hc, hs⟩ := Option.ite_none_right_eq_some.mp hs
    exact h.getPID hc hs
  | exit q st =>
    obtain ⟨⟨hc, hq, hl⟩, hs⟩ := Option.ite_none_right_eq_some.mp hs
    exact h.exit hc hq hl hs
  | join q =>
    obtain ⟨⟨hc, hq⟩, hs⟩ := Option.ite_none_right_eq_some.mp hs
    obtain ⟨l, hl, hs⟩ := Option.bind_eq_some_iff.mp hs
    exact h.join hc hq hcare hl hs
  | advance =>
    obtain ⟨hcall, hs⟩ := Option.ite_none_right_eq_some.mp hs
    exact h.advance hcall hcare hs

theorem of_initial (h : State.Initial s) : Inv s := by
  have hno := fun q => not_created_of_initial (q := q) h
  refine ⟨⟨fun t => ?_, fun t u n ht => ?_, fun q ha => absurd ha.1 (hno q), fun q st hm => ?_⟩,
    by rw [h.next]; exact Nat.lt_succ_self _, .init h.kernel, fun t => ?_, fun t q ht => ?_,
    fun q st hq => absurd hq (hno q)⟩
  · rw [h.place]
    exact .of_none rfl (by simp)
  · cases (h.place t).symm.trans ht
  · rw [h.returned] at hm
    cases hm
  · rw [h.place]
    refine ⟨none, fun l _ => ?_, rfl, ?_⟩
    · simp [Kernel.observed, h.kernel.holding]
    · have hp : s.kernel.observed.pc t = _ := h.kernel.pc t
      rw [hp]
      split <;> simp [Pc.uses]
  · cases (h.place t).symm.trans ht

theorem of_reachable (h : Reachable (system.guard State.Careful) s) : Inv s :=
  h.invariant (S := system.guard State.Careful) (P := Inv) (fun _ => of_initial)
    fun _ _ _ hi hs => hi.step hs.1 hs.2

theorem not_blocked (h : Inv s)
    (hp : s.kernel.observed.pc t = .outside ∨ ∃ c l, s.kernel.observed.pc t = .conditionWoken c l) :
    s.kernel.status t ≠ .blocked := by
  intro hb
  change s.kernel.pc t = _ ∨ ∃ c l, s.kernel.pc t = _ at hp
  rcases Asleep.stable.reachable (fun _ => Asleep.of_initial) h.reach t hb with ⟨o, ho⟩ | hf
  · rcases hp with hp | ⟨c, l, hp⟩ <;> simp [hp, Pc.object] at ho
  · rcases hp with hp | ⟨c, l, hp⟩ <;> cases hp.symm.trans hf

theorem willRelease (h : Inv s) (hl : s.bitLock < l)
    (hu : s.kernel.history.holding l u = true ∨ (s.kernel.pc u).object = some (.lock l)) :
    s.WillRelease u l := by
  obtain ⟨hp, hlock⟩ := (h.control u).process hl hu
  have hkeeps := (h.keeps hp).lock
  refine ⟨hu, ?_⟩
  cases hc : s.place u <;> simp_all [Place.lock, Place.process]

theorem awake_of_lock (h : Inv s) (hl : s.bitLock < l)
    (ho : (s.kernel.pc t).object = some (.lock l)) : s.Awake t := by
  by_cases hb : s.kernel.status t = .blocked
  · have hm := ((placed_of_reachable h.reach).queued t _).mpr ⟨hb, ho⟩
    rcases LockInv.holder_or_woken h.reach (List.ne_nil_of_mem hm) with ⟨u, hu⟩ | ⟨u, hu⟩
    · have hpc := (h.control u).outside_of_holding hl hu
      exact .inr ⟨l, u, hm, h.not_blocked (.inl hpc), h.willRelease hl (.inl hu)⟩
    · exact .inr ⟨l, u, hm, hu.2, h.willRelease hl (.inr hu.1)⟩
  · exact .inl hb

theorem awake_of_clearPID (h : Inv s) (hq : s.Created q) (hp : s.place u = .clearPID q) :
    s.Awake u := by
  obtain ⟨x, -, hat⟩ := h.control u
  rw [hp] at hat
  obtain ⟨hpc, -⟩ | ⟨hpc, -⟩ := hat
  · exact .inl (h.not_blocked (.inl hpc))
  · exact h.awake_of_lock hq.1 (by rw [show s.kernel.pc u = _ from hpc]; rfl)

theorem wakePending_of_inWait (h : Inv s) (hq : s.Created q) (hl : s.life q ≠ .live)
    (hpc : (s.kernel.pc t).InWait q q) : s.WakePending t q := by
  cases hp : s.kernel.pc t with
  | conditionWait c l =>
    obtain ⟨rfl, rfl⟩ : c = q ∧ l = q := by simpa [hp, Pc.InWait] using hpc
    by_cases hb : s.kernel.status t = .blocked
    · have hm := ((placed_of_reachable h.reach).queued t (.condition l)).mpr
        ⟨hb, by rw [hp]; rfl⟩
      cases hlife : s.life l with
      | live => exact absurd hlife hl
      | exiting u st =>
        exact .inr ⟨u, st, hlife, h.awake_of_clearPID hq (h.books.place_of_exiting hq hlife)⟩
      | exited st =>
        rw [h.empty l st hq hlife] at hm
        cases hm
    · exact .inl (.inl hb)
  | conditionWoken c l => exact .inl (.inl (h.not_blocked (.inr ⟨c, l, hp⟩)))
  | conditionAcquire c l =>
    obtain ⟨rfl, rfl⟩ : c = q ∧ l = q := by simpa [hp, Pc.InWait] using hpc
    exact .inl (h.awake_of_lock hq.1 (by rw [hp]; rfl))
  | _ => simp [hp, Pc.InWait] at hpc

/-- A thread in `join` of a process that is not live is awake, or the `Broadcast` is to come. -/
theorem wakePending (h : Inv s) (hj : s.InJoin t q) (hl : s.life q ≠ .live) :
    s.WakePending t q := by
  have hproc : (s.place t).process = some q := by rcases hj with hj | hj | hj <;> rw [hj] <;> rfl
  have hq := ((h.books.places t).process q hproc).1
  obtain ⟨x, -, hat⟩ := h.control t
  rcases hj with hj | hj | hj <;> rw [hj] at hat
  · obtain ⟨hpc, -⟩ | ⟨hpc, -⟩ := hat
    · exact .inl (.inl (h.not_blocked (.inl hpc)))
    · exact .inl (h.awake_of_lock hq.1 (by rw [show s.kernel.pc t = _ from hpc]; rfl))
  · obtain ⟨hpc, -⟩ | ⟨hpc, -⟩ := hat
    · exact .inl (.inl (h.not_blocked (.inl hpc)))
    · exact h.wakePending_of_inWait hq hl hpc
  · exact .inl (.inl (h.not_blocked (.inl hat.1)))

end Inv

/-- In a careful run a thread in `join` of a process that has exited is awake or will be woken, and
every `join` that has returned has returned what its process passed to `Exit`. -/
theorem join_wakes_and_returns_status (h : Reachable (system.guard State.Careful) s) :
    (∀ t q, s.InJoin t q → s.life q ≠ .live → s.WakePending t q) ∧
      ∀ q st, (q, st) ∈ s.returned → s.life q = .exited st := by
  have hi := Inv.of_reachable h
  exact ⟨fun t q => hi.wakePending, fun q st hm => (hi.books.returned q st hm).2⟩

def boot : State where
  kernel := .boot 0
  bitmap := ⟨MAX_PROCS, fun _ => 0⟩
  bitLock := 0
  next := 1
  lockTable _ := none
  conditionTable _ := none
  returnStatus _ := 0
  place _ := .outside
  pid _ := 0
  life _ := .live
  returned := []

theorem initial_boot : State.Initial boot where
  kernel := Kernel.initial_boot (by decide)
  numBits := rfl
  bitmap _ _ := by simp [boot, BitMap.test]
  next := rfl
  place _ := rfl
  returned := rfl

theorem run_join_exit : ∃ s, Run (system.guard State.Careful) boot
    [.getPID, .advance, .advance, .other (.fork 1), .join 1, .advance, .other .dispatch, .exit 1 7,
      .advance, .advance, .other .yield, .other .reacquire, .advance, .advance] s ∧
    s.returned = [(1, 7)] := by
  refine ⟨_, .cons ⟨trivial, rfl⟩ (.cons ⟨?find, rfl⟩ (.cons ⟨trivial, rfl⟩ (.cons ⟨trivial, rfl⟩
    (.cons ⟨?join, rfl⟩ (.cons ⟨trivial, rfl⟩ (.cons ⟨trivial, rfl⟩ (.cons ⟨trivial, rfl⟩
    (.cons ⟨?broadcast, rfl⟩ (.cons ⟨trivial, rfl⟩ (.cons ⟨trivial, rfl⟩ (.cons ⟨trivial, rfl⟩
    (.cons ⟨trivial, rfl⟩ (.cons ⟨trivial, rfl⟩ (.nil _)))))))))))))), rfl⟩
  case find =>
    intro n bitmap _ t q ht
    change (update (fun _ => Place.outside) 0 .getPID t).process = _ at ht
    rw [update_apply] at ht
    split at ht <;> cases ht
  case join =>
    intro st h
    cases h
  case broadcast =>
    intro t ht
    change update (update (update (update (update (update (fun _ => Place.outside) 0 .getPID) 0
      (.found 0)) 0 .outside) 0 (.join 1)) 0 (.waiting 1)) 1 (.clearPID 1) t = .join 1 at ht
    rw [update_idem, update_idem, update_idem, update_idem, update_apply, update_apply] at ht
    split at ht
    · cases ht
    · split at ht <;> cases ht

/-- A process that exits with status 7 and is joined. -/
theorem join_wakes_and_returns_status_once :
    ∃ s, Reachable (system.guard State.Careful) s ∧ s.returned = [(1, 7)] ∧
      s.life 1 = .exited 7 := by
  obtain ⟨s, hrun, hret⟩ := run_join_exit
  have hs : Reachable (system.guard State.Careful) s := ⟨boot, _, initial_boot, hrun⟩
  exact ⟨s, hs, hret, (join_wakes_and_returns_status hs).2 1 7 (by simp [hret])⟩

/-- The main thread joins the process after it has exited, and sleeps for good. -/
theorem not_join_wakes :
    ∃ s, Reachable system s ∧ s.InJoin 0 1 ∧ s.life 1 = .exited 7 ∧
      s.kernel.status 0 = .blocked ∧ s.kernel.readyList = [] ∧ ¬ s.WakePending 0 1 := by
  have hrun : ∃ s, exec State.step boot [.getPID, .advance, .advance, .other (.fork 1),
      .other .yield, .exit 1 7, .advance, .advance, .other .finish, .other .dispatch, .join 1,
      .advance] = some s ∧ s.place 0 = .waiting 1 ∧ s.life 1 = .exited 7 ∧
      s.kernel.status 0 = .blocked ∧ s.kernel.readyList = [] ∧
      s.kernel.queue = update (fun _ => []) (.condition 1) [0] := ⟨_, rfl, rfl, rfl, rfl, rfl, rfl⟩
  obtain ⟨s, hrun, hplace, hlife, hstatus, hready, hqueue⟩ := hrun
  refine ⟨s, ⟨boot, _, initial_boot, run_ofStep_iff.mpr hrun⟩, .inr (.inl hplace), hlife, hstatus,
    hready, ?_⟩
  rintro ((hb | ⟨l, u, hm, -⟩) | ⟨u, st, hl, -⟩)
  · exact hb hstatus
  · rw [hqueue, update_of_ne (by simp)] at hm
    cases hm
  · cases hlife.symm.trans hl

end Nachos.Userprog.ProcessManager
