import Nachos.Userprog.Join

/-! # The indices into the process tables

`getPID` uses what `bitmap->Find()` returns as an index, and `join` the argument
of the system call. In the runs in which an id is free whenever a process is
made, and `join` is called with the id of a process that has been made, every
index is inside the tables and every entry that is read has been written before.
-/

namespace Nachos.Userprog.ProcessManager

open Function Transition Threads Observed

inductive Table | pcbTable | conditionTable | lockTable | returnStatus
  deriving DecidableEq, Repr

inductive Access
  | read (table : Table) (i : ℤ)
  | write (table : Table) (i : ℤ)
  deriving DecidableEq, Repr

def Access.index : Access → ℤ
  | .read _ i | .write _ i => i

/-- What threads do. The argument of `Join` is what the user program has put into the register. -/
inductive Call
  /-- A step of the kernel that is no step of the manager's routines. -/
  | other (a : Threads.Action)
  /-- `Exec` or `Fork` makes a process: `getPID`, and then `storePCB` with the same id. -/
  | getPID
  | exit (q : ℕ) (exitStatus : ℤ)
  | join (arg : ℤ)
  /-- The current thread runs its next statement. -/
  | advance

variable {q n i : ℕ} {t u : ThreadId} {v v' : Observed} {p : Place} {s s' : State} {k k' : Kernel}
  {a : Threads.Action} {c : Call} {log es : List Access} {table : Table} {j : ℤ}

namespace State

def Known (s : State) (j : ℤ) : Prop := ∃ q, q < s.next ∧ s.bitLock < q ∧ (s.pid q : ℤ) = j

instance (s : State) (j : ℤ) : Decidable (s.Known j) :=
  inferInstanceAs (Decidable (∃ q, q < s.next ∧ _))

/-- A call as the source makes it. After an access to an entry that is not there, or that has not
been set, everything is possible; the state is left as it is, and the access is recorded. -/
def attempt (s : State) : Call → Option State
  | .other a => s.step (.other a)
  | .getPID => s.step .getPID
  | .exit q exitStatus => s.step (.exit q exitStatus)
  | .join arg =>
    if s.Known arg then (s.lockTable arg.toNat).bind fun q => s.step (.join q)
    else if s.kernel.AtCall ∧ s.place s.kernel.currentThread = .outside then some s else none
  | .advance =>
    if s.kernel.AtCall ∧ s.place s.kernel.currentThread = .getPID ∧ s.bitmap.find.isNone then some s
    else s.step .advance

def nextAccesses (s : State) : List Access :=
  match s.place s.kernel.currentThread with
  | .outside => []
  -- `Find` has returned -1, and the routine goes on
  | .getPID =>
    if s.bitmap.find.isNone then
      [.write .conditionTable (-1), .write .lockTable (-1), .write .pcbTable (-1)]
    else []
  | .found pid => [.write .conditionTable pid, .write .lockTable pid, .write .pcbTable pid]
  | .clearPID q | .join q => [.read .conditionTable (s.pid q), .read .lockTable (s.pid q)]
  | .broadcast q => [.read .lockTable (s.pid q), .write .pcbTable (s.pid q)]
  | .waiting q => [.read .lockTable (s.pid q)]
  | .joined q => [.read .returnStatus (s.pid q)]

def accesses (s : State) : Call → List Access
  | .other _ | .getPID => []
  | .exit q _ => [.write .returnStatus (s.pid q), .read .lockTable (s.pid q)]
  | .join arg => [.read .lockTable arg]
  | .advance => s.nextAccesses

/-- An id is free when a process is made, and `Join` is called with the id of a process that has
been made. -/
def InTables (s : State) : Call → Prop
  | .join arg => s.Known arg
  | .advance => s.place s.kernel.currentThread = .getPID → 0 < s.bitmap.numClear
  | _ => True

instance (s : State) : ∀ c, Decidable (s.InTables c)
  | .join arg => inferInstanceAs (Decidable (s.Known arg))
  | .advance => inferInstanceAs (Decidable (_ → _))
  | .other _ | .getPID | .exit _ _ => .isTrue trivial

end State

/-- Processes are made, exit and are joined, with any argument of `Join`. -/
def tableSystem : System State Call := .ofStep State.Initial State.attempt

/-- Every index is inside its table, an entry that is read has been written before, and live
processes have different ids. -/
structure TablesSafe (s : State) (log : List Access) : Prop where
  bounds : ∀ x ∈ log, 0 ≤ x.index ∧ x.index < MAX_PROCS
  initialised : ∀ l₁ l₂ table j, log = l₁ ++ .read table j :: l₂ → .write table j ∈ l₁
  distinct : ∀ q q', s.Created q → s.Created q' → s.life q = .live → s.life q' = .live →
    s.pid q = s.pid q' → q = q'

/-! ## Threads in `join` -/

def State.HasStatus (s : State) (i : ℕ) : Prop := ∃ q, s.Created q ∧ s.pid q = i ∧ s.life q ≠ .live

def Acquiring (v : Observed) (t : ThreadId) (l : ℕ) : Prop :=
  v.pc t = .lockAcquire l ∨ v.pc t = .outside ∧ v.holding l t = true

theorem Acquiring.congr (h : Acquiring v t q) (hp : v'.pc t = v.pc t)
    (hh : v'.holding q t = v.holding q t) : Acquiring v' t q := by
  rw [Acquiring, hp, hh]
  exact h

theorem acquiring_acquire :
    Acquiring (Kernel.acquire (.lockAcquire q) q k).observed k.currentThread q := by
  rcases observed_acquire (p := .lockAcquire q) (l := q) (k := k) with h | h
  · rw [h]
    exact .inl (update_self _ _ _)
  · rw [h]
    exact .inr ⟨update_self _ _ _, by simp [Observed.goTo, Observed.hold]⟩

theorem Acquiring.resume (h : Acquiring v t q) (hr : Resume u v v') : Acquiring v' t q := by
  by_cases ht : t = u
  · subst ht
    rcases h with hp | ⟨hp, hh⟩
    · cases hr with
      | stay => exact .inl hp
      | lockAcquire h =>
        cases hp.symm.trans h
        exact .inr ⟨update_self _ _ _, by simp [Observed.goTo, Observed.hold]⟩
      | reacquire h => rcases h with h | h <;> cases hp.symm.trans h
      | root h | semaphoreP h | conditionWait h | conditionWoken h | barrierBlock h =>
        cases hp.symm.trans h
    · rw [resume_outside hr hp]
      exact .inr ⟨hp, hh⟩
  · exact h.congr (hr.other ht).1 ((hr.other ht).2 q)

theorem Acquiring.other (h : Acquiring k.observed t q) (ha : .lock q ∉ a.uses)
    (ht : t = k.currentThread → a.isCode = false) (hs : k.step a = some k') :
    Acquiring k'.observed t q := by
  have hav : a.Avoids [.lock q] := by
    rintro o ho hm
    exact ha (List.mem_singleton.mp hm ▸ ho)
  rcases observed_elsewhere hav hs with ⟨u, hr⟩ | ⟨he, hp⟩
  · exact h.resume hr
  · refine h.congr ?_ (congrFun (he.holding q (List.mem_singleton_self _)) t)
    rcases hp t with hp | ⟨hc, hcode⟩
    · exact hp
    · rw [ht hc] at hcode
      cases hcode

/-- What holds for a thread at a place: the process of its routine has been made, and the thread is
behind the `Wait` in `join` only if the status has been set. -/
def Place.Safe (s : State) (t : ThreadId) : Place → Prop
  | .outside | .getPID => True
  | .found n => n < MAX_PROCS ∧ s.bitmap.test n = true ∧
      ∀ q, s.Created q → s.life q = .live → s.pid q ≠ n
  | .clearPID q => s.Created q ∧ s.life q ≠ .live
  | .broadcast q => s.Created q
  | .join q => s.Created q ∧
      (s.HasStatus (s.pid q) ∨ s.lockTable (s.pid q) = some q ∧ Acquiring s.kernel.observed t q)
  | .waiting q => s.Created q ∧ (s.HasStatus (s.pid q) ∨ t ∈ s.kernel.queue (.condition q))
  | .joined q => s.Created q ∧ s.HasStatus (s.pid q)

theorem Place.Safe.created (h : p.Safe s t) (hp : p.process = some q) : s.Created q := by
  cases p <;> cases hp
  case clearPID | join | waiting | joined => exact h.1
  case broadcast => exact h

structure State.Grows (s s' : State) : Prop where
  created : ∀ q, s.Created q → s'.Created q
  pid : ∀ q, s.Created q → s'.pid q = s.pid q
  life : ∀ q, s.Created q → s.life q ≠ .live → s'.life q ≠ .live

theorem State.Grows.hasStatus (h : s.Grows s') (hi : s.HasStatus i) : s'.HasStatus i := by
  obtain ⟨q, hq, hp, hl⟩ := hi
  exact ⟨q, h.created q hq, (h.pid q hq).trans hp, h.life q hq hl⟩

theorem Place.Safe.mono (h : p.Safe s t) (hg : s.Grows s')
    (hfound : ∀ n, p = .found n → s.bitmap.test n = true →
      (∀ q, s.Created q → s.life q = .live → s.pid q ≠ n) →
      s'.bitmap.test n = true ∧ ∀ q, s'.Created q → s'.life q = .live → s'.pid q ≠ n)
    (hjoin : ∀ q, p = .join q → s.Created q → s.lockTable (s.pid q) = some q →
      Acquiring s.kernel.observed t q → s'.HasStatus (s.pid q) ∨
        s'.lockTable (s.pid q) = some q ∧ Acquiring s'.kernel.observed t q)
    (hwait : ∀ q, p = .waiting q → s.Created q → t ∈ s.kernel.queue (.condition q) →
      s'.HasStatus (s.pid q) ∨ t ∈ s'.kernel.queue (.condition q)) : p.Safe s' t := by
  cases p with
  | outside | getPID => trivial
  | found n => exact ⟨h.1, hfound n rfl h.2.1 h.2.2⟩
  | clearPID q => exact ⟨hg.created q h.1, hg.life q h.1 h.2⟩
  | broadcast q => exact hg.created q h
  | join q =>
    refine ⟨hg.created q h.1, ?_⟩
    rw [hg.pid q h.1]
    rcases h.2 with hs | ⟨hl, ha⟩
    · exact .inl (hg.hasStatus hs)
    · exact hjoin q rfl h.1 hl ha
  | waiting q =>
    refine ⟨hg.created q h.1, ?_⟩
    rw [hg.pid q h.1]
    rcases h.2 with hs | hm
    · exact .inl (hg.hasStatus hs)
    · exact hwait q rfl h.1 hm
  | joined q =>
    refine ⟨hg.created q h.1, ?_⟩
    rw [hg.pid q h.1]
    exact hg.hasStatus h.2

/-! ## Every state of a run inside the tables -/

structure TableInv (s : State) : Prop where
  reach : Reachable Kernel.system s.kernel
  next : s.bitLock < s.next
  numBits : s.bitmap.numBits = MAX_PROCS
  pid : ∀ q, s.Created q → s.pid q < MAX_PROCS
  marked : ∀ q, s.Created q → s.life q = .live → s.bitmap.test (s.pid q) = true
  distinct : ∀ q q', s.Created q → s.Created q' → s.life q = .live → s.life q' = .live →
    s.pid q = s.pid q' → q = q'
  entry : ∀ q, s.Created q → ∃ m, s.Created m ∧ s.pid m = s.pid q ∧
    s.lockTable (s.pid q) = some m ∧ s.conditionTable (s.pid q) = some m
  safe : ∀ t, (s.place t).Safe s t
  found : ∀ t u n, s.place t = .found n → s.place u = .found n → t = u

namespace TableInv

theorem of_initial (h : State.Initial s) : TableInv s := by
  have hno := fun q => not_created_of_initial (q := q) h
  constructor
  case reach => exact .init h.kernel
  case next => rw [h.next]; exact Nat.lt_succ_self _
  case numBits => exact h.numBits
  case safe =>
    intro t
    rw [h.place]
    trivial
  case found =>
    intro t u n ht
    cases (h.place t).symm.trans ht
  case distinct => exact fun q _ hq => absurd hq (hno q)
  all_goals exact fun q hq => absurd hq (hno q)

theorem places (h : TableInv s) (s' : State) (hplace : s'.place = update s.place t p)
    (hp : p.Safe s' t) (hrest : ∀ u, u ≠ t → (s.place u).Safe s' u)
    (hfound : ∀ n, p = .found n → ∀ u, s.place u ≠ .found n) :
    (∀ u, (s'.place u).Safe s' u) ∧
      ∀ u w n, s'.place u = .found n → s'.place w = .found n → u = w := by
  refine ⟨fun u => ?_, fun u w n hu hw => ?_⟩
  · rw [hplace, update_apply]
    split
    case isTrue hu => exact hu ▸ hp
    case isFalse hu => exact hrest u hu
  · rw [hplace, update_apply] at hu hw
    split at hu <;> split at hw
    case isTrue.isTrue h₁ h₂ => rw [h₁, h₂]
    case isTrue.isFalse => exact absurd hw (hfound n hu w)
    case isFalse.isTrue => exact absurd hu (hfound n hw u)
    case isFalse.isFalse => exact h.found u w n hu hw

/-- The current thread calls a routine of the kernel and goes on; the tables stay as they are. -/
theorem move (h : TableInv s) {life : ℕ → Life} (hk : Reachable Kernel.system k) (r : List (ℕ × ℤ))
    (hlife : ∀ q, life q = .live ↔ s.life q = .live)
    (hp : p.Safe { s with kernel := k, place := update s.place t p, life := life, returned := r } t)
    (hf : ∀ n, p ≠ .found n)
    (hacq : ∀ u, u ≠ t → ∀ q, Acquiring s.kernel.observed u q → Acquiring k.observed u q)
    (hwait : ∀ u q, s.Created q → u ∈ s.kernel.queue (.condition q) →
      s.HasStatus (s.pid q) ∨ u ∈ k.queue (.condition q)) :
    TableInv { s with kernel := k, place := update s.place t p, life := life, returned := r } := by
  set s' : State := { s with kernel := k, place := update s.place t p, life := life, returned := r }
  have hg : s.Grows s' := ⟨fun _ => id, fun _ _ => rfl, fun q _ hl => mt (hlife q).mp hl⟩
  have hrest : ∀ u, u ≠ t → (s.place u).Safe s' u := by
    intro u hu
    refine (h.safe u).mono hg (fun n _ htest hq => ⟨htest, ?_⟩) ?_ ?_
    · exact fun q hcr hl => hq q hcr ((hlife q).mp hl)
    · exact fun q _ _ hlock ha => .inr ⟨hlock, hacq u hu q ha⟩
    · exact fun q _ hcr hm => (hwait u q hcr hm).imp_left hg.hasStatus
  obtain ⟨hsafe, hfound⟩ := h.places s' rfl hp hrest fun n hn => absurd hn (hf n)
  exact {
    reach := hk
    next := h.next
    numBits := h.numBits
    pid := h.pid
    marked := fun q hq hl => h.marked q hq ((hlife q).mp hl)
    distinct := fun q q' hq hq' hl hl' => h.distinct q q' hq hq' ((hlife q).mp hl)
      ((hlife q').mp hl')
    entry := h.entry
    safe := hsafe
    found := hfound }

theorem acquiring_call {f : Kernel → Kernel} (hc : Kernel.call a = some f)
    (hu : u ≠ k.currentThread) (h : Acquiring k.observed u q) : Acquiring (f k).observed u q := by
  obtain ⟨hp, hh⟩ := call_other (k := k) hc hu
  exact h.congr hp (hh q)

theorem lockCall (h : TableInv s) {f : Kernel → Kernel} (hc : Kernel.call a = some f)
    (ha : ∀ c, .condition c ∉ a.uses) (hs : s.call a p = some s')
    (hp : p.Safe s' s.kernel.currentThread) (hf : ∀ n, p ≠ .found n) : TableInv s' := by
  obtain ⟨k, hk, rfl⟩ := Option.map_eq_some_iff.mp hs
  obtain ⟨-, rfl⟩ := step_call hc hk
  refine h.move (h.reach.step hk) s.returned (fun _ => Iff.rfl) hp hf ?_ ?_
  · exact fun u hu q => acquiring_call hc hu
  · intro u q _ hm
    rw [queue_condition_eq (ha q) hk]
    exact .inr hm

theorem find (h : TableInv s) (hs : s.find = some s') : TableInv s' := by
  obtain ⟨⟨n, bitmap⟩, hfind, hs⟩ := Option.bind_eq_some_iff.mp hs
  obtain ⟨hn, hclear, -, rfl⟩ := BitMap.find_eq_some_iff.mp hfind
  obtain ⟨k, hk, rfl⟩ := Option.map_eq_some_iff.mp hs
  obtain ⟨-, rfl⟩ := step_call rfl hk
  have hmark : ∀ i, s.bitmap.test i = true → (s.bitmap.mark n).test i = true := fun i hi => by
    rw [BitMap.test_mark, hi, Bool.or_true]
  have hne : ∀ q, s.Created q → s.life q = .live → s.pid q ≠ n := by
    rintro q hq hl rfl
    cases (h.marked q hq hl).symm.trans hclear
  obtain ⟨hsafe, hfound⟩ := h.places (p := .found n)
    { s with
      bitmap := s.bitmap.mark n
      kernel := Kernel.release s.bitLock s.kernel
      place := update s.place s.kernel.currentThread (.found n) } rfl
    ⟨h.numBits ▸ hn, BitMap.test_mark_self, hne⟩
    (by
      intro u hu
      refine (h.safe u).mono ⟨fun _ => id, fun _ _ => rfl, fun _ _ => id⟩ ?_ ?_ ?_
      · exact fun m _ htest hq => ⟨hmark m htest, hq⟩
      · exact fun q _ _ hlock ha => .inr ⟨hlock, acquiring_call (a := .release s.bitLock) rfl hu ha⟩
      · intro q _ _ hm
        rw [queue_condition_eq (by simp [Action.uses]) hk]
        exact .inr hm)
    (by
      intro m hm u hu
      cases hm
      have := h.safe u
      rw [hu] at this
      cases this.2.1.symm.trans hclear)
  exact {
    reach := h.reach.step hk
    next := h.next
    numBits := h.numBits
    pid := h.pid
    marked := fun q hq hl => hmark _ (h.marked q hq hl)
    distinct := h.distinct
    entry := h.entry
    safe := hsafe
    found := hfound }

theorem create (h : TableInv s) (hc : s.place s.kernel.currentThread = .found n) :
    TableInv (s.create n) := by
  have hsafe := h.safe s.kernel.currentThread
  rw [hc] at hsafe
  obtain ⟨hn, htest, hlive⟩ := hsafe
  have hcr : ∀ q, (s.create n).Created q → q ≠ s.next → s.Created q := fun q hq hne =>
    ⟨hq.1, Nat.lt_of_le_of_ne (Nat.le_of_lt_succ hq.2) hne⟩
  have hpid : ∀ q, q ≠ s.next → (s.create n).pid q = s.pid q := fun q hq => update_of_ne hq _ _
  have hlife : ∀ q, q ≠ s.next → (s.create n).life q = s.life q := fun q hq => update_of_ne hq _ _
  have hpidNext : (s.create n).pid s.next = n := update_self _ _ _
  have hgrows : s.Grows (s.create n) := by
    refine ⟨fun q hq => ⟨hq.1, Nat.lt_succ_of_lt hq.2⟩, fun q hq => hpid q hq.2.ne,
      fun q hq hl => ?_⟩
    rw [hlife q hq.2.ne]
    exact hl
  -- a process with this id that was made before has exited
  have hold : ∀ q, s.Created q → s.pid q = n → (s.create n).HasStatus n := fun q hq hp =>
    hgrows.hasStatus ⟨q, hq, hp, fun hl => hlive q hq hl hp⟩
  obtain ⟨hplaces, hfound⟩ := h.places (s.create n) (p := .outside) rfl trivial
    (by
      intro u hu
      refine (h.safe u).mono hgrows ?_ ?_ ?_
      · intro m hm htest' hq
        refine ⟨htest', fun q hq' hl => ?_⟩
        by_cases hqn : q = s.next
        · rw [hqn, hpidNext]
          rintro rfl
          exact hu (h.found u _ n hm hc)
        · rw [hpid q hqn]
          exact hq q (hcr q hq' hqn) ((hlife q hqn).symm.trans hl)
      · intro q _ hq hlock ha
        by_cases hp : s.pid q = n
        · exact .inl (hp ▸ hold q hq hp)
        · exact .inr ⟨(update_of_ne hp _ _).trans hlock, ha⟩
      · exact fun q _ _ hm => .inr hm)
    (fun m hm => by cases hm)
  refine ⟨h.reach, Nat.lt_succ_of_lt h.next, h.numBits, ?_, ?_, ?_, ?_, hplaces, hfound⟩
  · intro q hq
    by_cases hqn : q = s.next
    · rw [hqn, hpidNext]
      exact hn
    · rw [hpid q hqn]
      exact h.pid q (hcr q hq hqn)
  · intro q hq hl
    by_cases hqn : q = s.next
    · rw [hqn, hpidNext]
      exact htest
    · rw [hpid q hqn]
      exact h.marked q (hcr q hq hqn) ((hlife q hqn).symm.trans hl)
  · intro q q' hq hq' hl hl' hp
    by_cases hqn : q = s.next <;> by_cases hqn' : q' = s.next
    · rw [hqn, hqn']
    · rw [hqn, hpidNext, hpid q' hqn'] at hp
      exact absurd hp.symm (hlive q' (hcr q' hq' hqn') ((hlife q' hqn').symm.trans hl'))
    · rw [hqn', hpidNext, hpid q hqn] at hp
      exact absurd hp (hlive q (hcr q hq hqn) ((hlife q hqn).symm.trans hl))
    · rw [hpid q hqn, hpid q' hqn'] at hp
      exact h.distinct q q' (hcr q hq hqn) (hcr q' hq' hqn') ((hlife q hqn).symm.trans hl)
        ((hlife q' hqn').symm.trans hl') hp
  · intro q hq
    by_cases hp : (s.create n).pid q = n
    · rw [hp]
      exact ⟨s.next, ⟨h.next, Nat.lt_succ_self _⟩, hpidNext, update_self _ _ _, update_self _ _ _⟩
    · have hqn : q ≠ s.next := by
        rintro rfl
        exact hp hpidNext
      rw [hpid q hqn] at hp ⊢
      obtain ⟨m, hm, hmp, hlock, hcond⟩ := h.entry q (hcr q hq hqn)
      exact ⟨m, hgrows.created m hm, (hgrows.pid m hm).trans hmp, (update_of_ne hp _ _).trans hlock,
        (update_of_ne hp _ _).trans hcond⟩

theorem exit (h : TableInv s) {st : ℤ} (hq : s.Created q) (hl : s.life q = .live)
    (hs : s.exit q st = some s') : TableInv s' := by
  obtain ⟨l, -, hs⟩ := Option.bind_eq_some_iff.mp hs
  obtain ⟨k, hk, rfl⟩ := Option.map_eq_some_iff.mp hs
  obtain ⟨-, rfl⟩ := step_call rfl hk
  set s' : State := { s with
    kernel := Kernel.acquire (.lockAcquire l) l s.kernel
    returnStatus := update s.returnStatus (s.pid q) st
    bitmap := s.bitmap.clear (s.pid q)
    life := update s.life q (.exiting s.kernel.currentThread st)
    place := update s.place s.kernel.currentThread (.clearPID q) }
  have hself : s'.life q ≠ .live := by simp [s']
  have hlive : ∀ q', s'.life q' = .live → q' ≠ q ∧ s.life q' = .live := by
    intro q' hl'
    have hne : q' ≠ q := by
      rintro rfl
      exact hself hl'
    exact ⟨hne, (update_of_ne hne _ _).symm.trans hl'⟩
  have hgrows : s.Grows s' :=
    ⟨fun _ => id, fun _ _ => rfl, fun q' _ hl' hlive' => hl' (hlive q' hlive').2⟩
  have hclear : ∀ i, i ≠ s.pid q → s'.bitmap.test i = s.bitmap.test i := fun i hi =>
    BitMap.test_clear_of_ne hi.symm
  obtain ⟨hsafe, hfound⟩ := h.places s' (p := .clearPID q) rfl ⟨hq, hself⟩
    (by
      intro u hu
      refine (h.safe u).mono hgrows ?_ ?_ ?_
      · intro m hm htest hne
        refine ⟨?_, fun q' hq' hl' => hne q' hq' (hlive q' hl').2⟩
        rw [hclear m (hne q hq hl).symm]
        exact htest
      · exact fun q' _ _ hlock ha => .inr ⟨hlock, acquiring_call (a := .acquire l) rfl hu ha⟩
      · intro q' _ _ hm
        refine .inr ?_
        change u ∈ (Kernel.acquire (.lockAcquire l) l s.kernel).queue (.condition q')
        rw [queue_condition_eq (by simp [Action.uses]) hk]
        exact hm)
    (fun m hm => by cases hm)
  refine ⟨h.reach.step hk, h.next, h.numBits, h.pid, ?_, ?_, h.entry, hsafe, hfound⟩
  · intro q' hq' hl'
    obtain ⟨hne, hl'⟩ := hlive q' hl'
    have hp : s.pid q' ≠ s.pid q := fun hp => hne (h.distinct q' q hq' hq hl' hl hp)
    exact (hclear _ hp).trans (h.marked q' hq' hl')
  · exact fun q₁ q₂ h₁ h₂ hl₁ hl₂ => h.distinct q₁ q₂ h₁ h₂ (hlive q₁ hl₁).2 (hlive q₂ hl₂).2

theorem join (h : TableInv s) (hq : s.Created q) (hlock : s.lockTable (s.pid q) = some q)
    (hs : s.call (.acquire q) (.join q) = some s') : TableInv s' := by
  refine h.lockCall (a := .acquire q) rfl (by simp [Action.uses]) hs ?_ (by simp)
  obtain ⟨k, hk, rfl⟩ := Option.map_eq_some_iff.mp hs
  obtain ⟨-, rfl⟩ := step_call rfl hk
  exact ⟨hq, .inr ⟨hlock, acquiring_acquire⟩⟩

/-- `Wait` puts the thread into the queue, unless the lock in the table is not the one that it
holds; then the id has been given to another process. -/
theorem wait (h : TableInv s) (hc : s.place s.kernel.currentThread = .join q)
    (hw : s.wait q = some s') : TableInv s' := by
  have hsafe := h.safe s.kernel.currentThread
  rw [hc] at hsafe
  obtain ⟨hq, hjoin⟩ := hsafe
  obtain ⟨m, hm, hmp, hmlock, hmcond⟩ := h.entry q hq
  obtain ⟨c, hcond, hw⟩ := Option.bind_eq_some_iff.mp hw
  obtain ⟨l, hlock, hs⟩ := Option.bind_eq_some_iff.mp hw
  obtain rfl : m = c := Option.some.inj (hmcond.symm.trans hcond)
  obtain rfl : m = l := Option.some.inj (hmlock.symm.trans hlock)
  obtain ⟨k, hk, rfl⟩ := Option.map_eq_some_iff.mp hs
  obtain ⟨hcall, rfl⟩ := step_call rfl hk
  have hv := observed_wait (k := s.kernel) (c := m) (l := m)
  have hqueue : ∀ u c, u ∈ s.kernel.queue (.condition c) →
      u ∈ (Kernel.wait m m s.kernel).queue (.condition c) := by
    intro u c hu
    have hwait := congrFun (congrArg Observed.waiting hv) c
    change (Kernel.wait m m s.kernel).queue (.condition c) = _ at hwait
    rw [hwait]
    split
    · by_cases hcm : c = m
      · subst hcm
        simpa [Observed.goTo, Observed.setWaiting, Observed.hold, Kernel.observed] using .inl hu
      · simpa [Observed.goTo, Observed.setWaiting, Observed.hold, Kernel.observed, update_of_ne hcm]
          using hu
    · exact hu
  refine h.move (h.reach.step hk) s.returned (fun _ => Iff.rfl) ⟨hq, ?_⟩ (by simp) ?_ ?_
  · rcases hjoin with hst | ⟨htable, hacq⟩
    · exact .inl hst
    · obtain rfl : m = q := Option.some.inj (hmlock.symm.trans htable)
      refine .inr ?_
      have hhold : s.kernel.history.holding m s.kernel.currentThread = true := by
        rcases hacq with hp | ⟨-, hh⟩
        · cases hcall.2.symm.trans hp
        · exact hh
      have howner := ((LockInv.of_reachable (l := m) h.reach).holding _).mp hhold
      rw [if_pos (by simp [Kernel.isHeldByCurrentThread, howner.2])] at hv
      have hwait := congrFun (congrArg Observed.waiting hv) m
      change (Kernel.wait m m s.kernel).queue (.condition m) = _ at hwait
      simp [hwait, Observed.goTo, Observed.setWaiting, Observed.hold]
  · exact fun u hu q => acquiring_call (a := .wait m m) rfl hu
  · exact fun u q _ hu => .inr (hqueue u q hu)

/-- `Broadcast` wakes threads in `join` of a process with the same id, whose status has been set. -/
theorem broadcast (h : TableInv s) (hc : s.place s.kernel.currentThread = .clearPID q)
    (hw : s.broadcast q = some s') : TableInv s' := by
  have hsafe := h.safe s.kernel.currentThread
  rw [hc] at hsafe
  obtain ⟨hq, hl⟩ := hsafe
  obtain ⟨m, hm, hmp, hmlock, hmcond⟩ := h.entry q hq
  obtain ⟨c, hcond, hw⟩ := Option.bind_eq_some_iff.mp hw
  obtain ⟨l, hlock, hs⟩ := Option.bind_eq_some_iff.mp hw
  obtain rfl : m = c := Option.some.inj (hmcond.symm.trans hcond)
  obtain ⟨k, hk, rfl⟩ := Option.map_eq_some_iff.mp hs
  obtain ⟨-, rfl⟩ := step_call rfl hk
  refine h.move (h.reach.step hk) s.returned ?_ hq (by simp) ?_ ?_
  · intro q'
    dsimp only
    by_cases he : q' = q
    · subst he
      rw [update_self]
      cases hlq : s.life q' with
      | live => exact absurd hlq hl
      | exiting | exited => simp
    · rw [update_of_ne he]
  · exact fun u hu q => acquiring_call (a := .broadcast m l) rfl hu
  · intro u q' hq' hu
    by_cases he : q' = m
    · subst he
      exact .inl ⟨q, hq, hmp.symm, hl⟩
    · refine .inr ?_
      rw [queue_condition_eq (by simpa [Action.uses] using he) hk]
      exact hu

theorem other (h : TableInv s) (ha : ∀ o ∈ a.uses, Foreign s.bitLock o)
    (hc : a.isCode = true → s.place s.kernel.currentThread = .outside)
    (hk : s.kernel.step a = some k) : TableInv { s with kernel := k } := by
  refine { h with reach := h.reach.step hk, safe := fun t => ?_ }
  refine (h.safe t).mono ⟨fun _ => id, fun _ _ => rfl, fun _ _ => id⟩ ?_ ?_ ?_
  · exact fun _ _ htest hq => ⟨htest, hq⟩
  · intro q hp hq hlock hacq
    refine .inr ⟨hlock, hacq.other ?_ ?_ hk⟩
    · exact fun hm => absurd (ha _ hm) hq.1.le.not_gt
    · rintro rfl
      by_contra hcode
      cases hp.symm.trans (hc (by simpa using hcode))
  · intro q _ hq hm
    refine .inr ?_
    change t ∈ k.queue (.condition q)
    rw [queue_condition_eq (fun hm => absurd (ha _ hm) hq.1.le.not_gt) hk]
    exact hm

theorem advance (h : TableInv s) (hcall : s.kernel.AtCall) (hs : s.advance = some s') :
    TableInv s' := by
  unfold State.advance at hs
  have hsafe := h.safe s.kernel.currentThread
  cases hc : s.place s.kernel.currentThread with
  | outside => simp [hc] at hs
  | getPID =>
    simp only [hc] at hs
    exact h.find hs
  | found n =>
    simp only [hc, Option.some.injEq] at hs
    exact hs ▸ h.create hc
  | clearPID q =>
    simp only [hc] at hs
    exact h.broadcast hc hs
  | broadcast q =>
    simp only [hc] at hs
    obtain ⟨l, -, hs⟩ := Option.bind_eq_some_iff.mp hs
    exact h.lockCall (a := .release l) rfl (by simp [Action.uses]) hs trivial (by simp)
  | join q =>
    simp only [hc] at hs
    exact h.wait hc hs
  | waiting q =>
    simp only [hc] at hs hsafe
    obtain ⟨l, -, hs⟩ := Option.bind_eq_some_iff.mp hs
    -- the thread runs, so it is not in the queue
    have hstatus := hsafe.2.resolve_right ((placed_of_reachable h.reach).not_mem_queue hcall.1 _)
    refine h.lockCall (a := .release l) rfl (by simp [Action.uses]) hs ?_ (by simp)
    obtain ⟨k, hk, rfl⟩ := Option.map_eq_some_iff.mp hs
    exact ⟨hsafe.1, hstatus⟩
  | joined q =>
    simp only [hc, Option.some.injEq] at hs
    exact hs ▸ h.move h.reach _ (fun _ => Iff.rfl) trivial (by simp) (fun _ _ _ => id)
      fun _ _ _ => .inr

theorem joinArg (h : TableInv s) (hj : s.Known j)
    (hs : ((s.lockTable j.toNat).bind fun q => s.step (.join q)) = some s') : TableInv s' := by
  obtain ⟨q, hn, hb, rfl⟩ := hj
  obtain ⟨m, hm, hmp, hmlock, -⟩ := h.entry q ⟨hb, hn⟩
  obtain ⟨l, hl, hs⟩ := Option.bind_eq_some_iff.mp hs
  rw [Int.toNat_natCast] at hl
  obtain rfl : m = l := Option.some.inj (hmlock.symm.trans hl)
  obtain ⟨-, hs⟩ := Option.ite_none_right_eq_some.mp hs
  obtain ⟨l, hl, hs⟩ := Option.bind_eq_some_iff.mp hs
  rw [hmp] at hl
  obtain rfl : m = l := Option.some.inj (hmlock.symm.trans hl)
  exact h.join hm (hmp ▸ hl) hs

theorem step (h : TableInv s) (hin : s.InTables c) (hs : s.attempt c = some s') : TableInv s' := by
  cases c with
  | other a =>
    obtain ⟨⟨ha, hc⟩, hs⟩ := Option.ite_none_right_eq_some.mp hs
    obtain ⟨k, hk, rfl⟩ := Option.map_eq_some_iff.mp hs
    exact h.other ha hc hk
  | getPID =>
    obtain ⟨-, hs⟩ := Option.ite_none_right_eq_some.mp hs
    exact h.lockCall (a := .acquire s.bitLock) rfl (by simp [Action.uses]) hs trivial (by simp)
  | exit q st =>
    obtain ⟨⟨-, hq, hl⟩, hs⟩ := Option.ite_none_right_eq_some.mp hs
    exact h.exit hq hl hs
  | join arg =>
    rw [State.attempt, if_pos (show s.Known arg from hin)] at hs
    exact h.joinArg hin hs
  | advance =>
    rw [State.attempt, if_neg] at hs
    · obtain ⟨hcall, hs⟩ := Option.ite_none_right_eq_some.mp hs
      exact h.advance hcall hs
    · rintro ⟨-, hc, hnone⟩
      have hsome := BitMap.find_isSome_iff.mpr (hin hc)
      rw [Option.isNone_iff_eq_none] at hnone
      simp [hnone] at hsome

end TableInv

/-! ## What has been written -/

structure Written (s : State) (log : List Access) : Prop where
  objects : ∀ q, s.Created q →
    .write .lockTable (s.pid q) ∈ log ∧ .write .conditionTable (s.pid q) ∈ log
  status : ∀ q, s.Created q → s.life q ≠ .live → .write .returnStatus (s.pid q) ∈ log

/-- The access is inside its table, and what it reads has been written. -/
def Access.Valid (log : List Access) (x : Access) : Prop :=
  0 ≤ x.index ∧ x.index < MAX_PROCS ∧ ∀ table j, x = .read table j → .write table j ∈ log

theorem Access.valid_write (hi : i < MAX_PROCS) : Access.Valid log (.write table i) :=
  ⟨Int.natCast_nonneg i, Int.ofNat_lt.mpr hi, fun _ _ h => by cases h⟩

theorem Access.valid_read (hi : i < MAX_PROCS) (hw : .write table i ∈ log) :
    Access.Valid log (.read table i) := by
  refine ⟨Int.natCast_nonneg i, Int.ofNat_lt.mpr hi, fun table' j h => ?_⟩
  cases h
  exact hw

theorem Written.nextAccesses (h : Written s log) (hi : TableInv s)
    (hin : s.InTables .advance) : ∀ x ∈ s.nextAccesses, x.Valid log := by
  have hsafe := hi.safe s.kernel.currentThread
  unfold State.nextAccesses
  unfold State.InTables at hin
  have hobjects : ∀ q, s.Created q → s.pid q < MAX_PROCS ∧ _ :=
    fun q hq => ⟨hi.pid q hq, h.objects q hq⟩
  cases hc : s.place s.kernel.currentThread with
  | outside => simp
  | getPID =>
    have hsome := BitMap.find_isSome_iff.mpr (hin hc)
    simp [Option.isNone_iff_eq_none, Option.isSome_iff_ne_none.mp hsome]
  | found n =>
    rw [hc] at hsafe
    simpa using ⟨Access.valid_write hsafe.1, Access.valid_write hsafe.1, Access.valid_write hsafe.1⟩
  | clearPID q | join q =>
    rw [hc] at hsafe
    obtain ⟨hpid, hlock, hcond⟩ := hobjects q hsafe.1
    simpa using ⟨Access.valid_read hpid hcond, Access.valid_read hpid hlock⟩
  | broadcast q =>
    rw [hc] at hsafe
    obtain ⟨hpid, hlock, -⟩ := hobjects q hsafe
    simpa using ⟨Access.valid_read hpid hlock, Access.valid_write hpid⟩
  | waiting q =>
    rw [hc] at hsafe
    obtain ⟨hpid, hlock, -⟩ := hobjects q hsafe.1
    simpa using Access.valid_read hpid hlock
  | joined q =>
    rw [hc] at hsafe
    obtain ⟨hq, m, hm, hmp, hl⟩ := hsafe
    simpa using Access.valid_read (hi.pid q hq) (hmp ▸ h.status m hm hl)

theorem Written.accesses (h : Written s log) (hi : TableInv s) (hin : s.InTables c)
    (hs : s.attempt c = some s') : ∀ x ∈ s.accesses c, x.Valid log := by
  cases c with
  | other | getPID => simp [State.accesses]
  | exit q st =>
    obtain ⟨⟨-, hq, -⟩, -⟩ := Option.ite_none_right_eq_some.mp hs
    simpa [State.accesses] using ⟨Access.valid_write (hi.pid q hq),
      Access.valid_read (hi.pid q hq) (h.objects q hq).1⟩
  | join arg =>
    obtain ⟨q, hn, hb, rfl⟩ := hin
    simpa [State.accesses] using Access.valid_read (hi.pid q ⟨hb, hn⟩) (h.objects q ⟨hb, hn⟩).1
  | advance => exact h.nextAccesses hi hin

theorem Written.keep (h : Written s log) (hcr : ∀ q, s'.Created q → s.Created q)
    (hpid : ∀ q, s'.Created q → s'.pid q = s.pid q)
    (hlife : ∀ q, s'.Created q → s'.life q ≠ .live → s.life q ≠ .live) :
    Written s' (log ++ es) where
  objects q hq := by
    rw [hpid q hq]
    exact (h.objects q (hcr q hq)).imp (List.mem_append_left es) (List.mem_append_left es)
  status q hq hl := by
    rw [hpid q hq]
    exact List.mem_append_left es (h.status q (hcr q hq) (hlife q hq hl))

theorem Written.call (h : Written s log) (hs : s.call a p = some s') : Written s' (log ++ es) := by
  obtain ⟨k, -, rfl⟩ := Option.map_eq_some_iff.mp hs
  exact h.keep (fun _ => id) (fun _ _ => rfl) fun _ _ => id

theorem Written.create (h : Written s log) :
    Written (s.create n) (log ++
      [.write .conditionTable n, .write .lockTable n, .write .pcbTable n]) := by
  have hcr : ∀ q, (s.create n).Created q → q = s.next ∨ s.Created q ∧ q ≠ s.next := by
    intro q hq
    by_cases hqn : q = s.next
    · exact .inl hqn
    · exact .inr ⟨⟨hq.1, Nat.lt_of_le_of_ne (Nat.le_of_lt_succ hq.2) hqn⟩, hqn⟩
  have hpid : (s.create n).pid s.next = n := update_self _ _ _
  have hpid' : ∀ q, q ≠ s.next → (s.create n).pid q = s.pid q := fun q hq => update_of_ne hq _ _
  constructor
  · intro q hq
    rcases hcr q hq with rfl | ⟨hq, hqn⟩
    · rw [hpid]
      simp
    · rw [hpid' q hqn]
      exact (h.objects q hq).imp (List.mem_append_left _) (List.mem_append_left _)
  · intro q hq hl
    rcases hcr q hq with rfl | ⟨hq, hqn⟩
    · exact absurd (update_self _ _ _) hl
    · rw [hpid' q hqn]
      exact List.mem_append_left _ (h.status q hq fun he => hl ((update_of_ne hqn _ _).trans he))

theorem Written.exit (h : Written s log) {st : ℤ} (hs : s.exit q st = some s') :
    Written s' (log ++ s.accesses (.exit q st)) := by
  obtain ⟨l, -, hs⟩ := Option.bind_eq_some_iff.mp hs
  obtain ⟨k, -, rfl⟩ := Option.map_eq_some_iff.mp hs
  constructor
  · exact fun q' hq' => (h.objects q' hq').imp (List.mem_append_left _) (List.mem_append_left _)
  · intro q' hq' hl
    by_cases he : q' = q
    · subst he
      simp [State.accesses]
    · exact List.mem_append_left _ (h.status q' hq'
        fun hlive => hl ((update_of_ne he _ _).trans hlive))

theorem Written.advance (h : Written s log) (hi : TableInv s) (hs : s.advance = some s') :
    Written s' (log ++ s.nextAccesses) := by
  unfold State.advance at hs
  have hsafe := hi.safe s.kernel.currentThread
  cases hc : s.place s.kernel.currentThread with
  | outside => simp [hc] at hs
  | getPID =>
    simp only [hc] at hs
    obtain ⟨⟨n, bitmap⟩, -, hs⟩ := Option.bind_eq_some_iff.mp hs
    obtain ⟨k, -, rfl⟩ := Option.map_eq_some_iff.mp hs
    exact h.keep (fun _ => id) (fun _ _ => rfl) fun _ _ => id
  | found n =>
    simp only [hc, Option.some.injEq] at hs
    rw [← hs, State.nextAccesses, hc]
    exact h.create
  | clearPID q =>
    simp only [hc] at hs
    obtain ⟨c, -, hs⟩ := Option.bind_eq_some_iff.mp hs
    obtain ⟨l, -, hs⟩ := Option.bind_eq_some_iff.mp hs
    obtain ⟨k, -, rfl⟩ := Option.map_eq_some_iff.mp hs
    rw [hc] at hsafe
    refine h.keep (fun _ => id) (fun _ _ => rfl) fun q' _ hl => ?_
    by_cases he : q' = q
    · exact he ▸ hsafe.2
    · exact fun hlive => hl ((update_of_ne he _ _).trans hlive)
  | broadcast q =>
    simp only [hc] at hs
    obtain ⟨l, -, hs⟩ := Option.bind_eq_some_iff.mp hs
    exact h.call hs
  | join q =>
    simp only [hc] at hs
    obtain ⟨c, -, hs⟩ := Option.bind_eq_some_iff.mp hs
    obtain ⟨l, -, hs⟩ := Option.bind_eq_some_iff.mp hs
    exact h.call hs
  | waiting q =>
    simp only [hc] at hs
    obtain ⟨l, -, hs⟩ := Option.bind_eq_some_iff.mp hs
    exact h.call hs
  | joined q =>
    simp only [hc, Option.some.injEq] at hs
    exact hs ▸ h.keep (fun _ => id) (fun _ _ => rfl) fun _ _ => id

theorem Written.step (h : Written s log) (hi : TableInv s) (hs : s.attempt c = some s') :
    Written s' (log ++ s.accesses c) := by
  cases c with
  | other a =>
    obtain ⟨-, hs⟩ := Option.ite_none_right_eq_some.mp hs
    obtain ⟨k, -, rfl⟩ := Option.map_eq_some_iff.mp hs
    exact h.keep (fun _ => id) (fun _ _ => rfl) fun _ _ => id
  | getPID =>
    obtain ⟨-, hs⟩ := Option.ite_none_right_eq_some.mp hs
    exact h.call hs
  | exit q st =>
    obtain ⟨-, hs⟩ := Option.ite_none_right_eq_some.mp hs
    exact h.exit hs
  | join arg =>
    rw [State.attempt] at hs
    split at hs
    · obtain ⟨q, -, hs⟩ := Option.bind_eq_some_iff.mp hs
      obtain ⟨-, hs⟩ := Option.ite_none_right_eq_some.mp hs
      obtain ⟨l, -, hs⟩ := Option.bind_eq_some_iff.mp hs
      exact h.call hs
    · obtain ⟨-, hs⟩ := Option.ite_none_right_eq_some.mp hs
      cases hs
      exact h.keep (fun _ => id) (fun _ _ => rfl) fun _ _ => id
  | advance =>
    rw [State.attempt] at hs
    split at hs
    · cases hs
      exact h.keep (fun _ => id) (fun _ _ => rfl) fun _ _ => id
    · obtain ⟨-, hs⟩ := Option.ite_none_right_eq_some.mp hs
      exact h.advance hi hs

/-! ## Runs inside the tables -/

theorem initialised_append
    (h : ∀ l₁ l₂ table j, log = l₁ ++ .read table j :: l₂ → Access.write table j ∈ l₁)
    (hes : ∀ x ∈ es, x.Valid log) :
    ∀ l₁ l₂ table j, log ++ es = l₁ ++ .read table j :: l₂ → Access.write table j ∈ l₁ := by
  intro l₁ l₂ table j heq
  rcases List.append_eq_append_iff.mp heq with ⟨l, hl₁, hl⟩ | ⟨l, hlog, hl⟩
  · have hmem : Access.read table j ∈ es := by simp [hl]
    rw [hl₁]
    exact List.mem_append_left _ ((hes _ hmem).2.2 table j rfl)
  · cases l with
    | nil =>
      have hmem : Access.read table j ∈ es := by
        rw [List.nil_append] at hl
        simp [← hl]
      have hw := (hes _ hmem).2.2 table j rfl
      rwa [hlog, List.append_nil] at hw
    | cons x l =>
      rw [List.cons_append, List.cons.injEq] at hl
      exact h l₁ l table j (by rw [hlog, hl.1])

/-- In every run inside the tables, all accesses are inside the tables and read what has been
written, and live processes have different ids. -/
theorem tables_safe {s : State × List Access}
    (h : Reachable ((tableSystem.guard State.InTables).record State.accesses) s) :
    TablesSafe s.1 s.2 := by
  refine (h.invariant (P := fun s => TableInv s.1 ∧ Written s.1 s.2 ∧ TablesSafe s.1 s.2) ?_ ?_).2.2
  · rintro ⟨s, log⟩ ⟨hi, hl⟩
    cases hl
    have hinv := TableInv.of_initial hi
    have hno := fun q => not_created_of_initial (q := q) hi
    exact ⟨hinv, ⟨fun q hq => absurd hq (hno q), fun q hq => absurd hq (hno q)⟩, by simp, by simp,
      hinv.distinct⟩
  · rintro ⟨s, log⟩ c ⟨s', log'⟩ ⟨hi, hw, hb, hr, -⟩ ⟨⟨hin, hs⟩, hl⟩
    cases hl
    have hvalid := hw.accesses hi hin hs
    have hi' := hi.step hin hs
    refine ⟨hi', hw.step hi hs, fun x hx => ?_, initialised_append hr hvalid, hi'.distinct⟩
    rcases List.mem_append.mp hx with hx | hx
    · exact hb x hx
    · exact ⟨(hvalid x hx).1, (hvalid x hx).2.1⟩

theorem reachable_of_guarded {f : State × List Access → Bool} (cs : List Call)
    (h : (exec (recorded State.accesses (guarded State.InTables State.attempt)) (boot, []) cs).any
      f = true) :
    ∃ s, Reachable ((tableSystem.guard State.InTables).record State.accesses) s ∧ f s = true := by
  obtain ⟨s, hr, hf⟩ := run_of_any_exec (I := fun s => State.Initial s.1 ∧ s.2 = []) h
  rw [tableSystem, guard_ofStep, record_ofStep]
  exact ⟨s, ⟨_, cs, ⟨initial_boot, rfl⟩, hr⟩, hf⟩

theorem reachable_of_attempts {f : State × List Access → Bool} (cs : List Call)
    (h : (exec (recorded State.accesses State.attempt) (boot, []) cs).any f = true) :
    ∃ s, Reachable (tableSystem.record State.accesses) s ∧ f s = true := by
  obtain ⟨s, hr, hf⟩ := run_of_any_exec (I := fun s => State.Initial s.1 ∧ s.2 = []) h
  rw [tableSystem, record_ofStep]
  exact ⟨s, ⟨_, cs, ⟨initial_boot, rfl⟩, hr⟩, hf⟩

/-- A process is made, joined and exits. -/
theorem tables_safe_join :
    ∃ s, Reachable ((tableSystem.guard State.InTables).record State.accesses) s ∧
    .read .returnStatus 0 ∈ s.2 ∧ TablesSafe s.1 s.2 := by
  obtain ⟨s, hr, hf⟩ := reachable_of_guarded
    [.getPID, .advance, .advance, .other (.fork 1), .join 0, .advance, .other .dispatch, .exit 1 7,
      .advance, .advance, .other .yield, .other .reacquire, .advance, .advance]
    (f := fun s => Access.read .returnStatus 0 ∈ s.2) (by decide)
  exact ⟨s, hr, of_decide_eq_true hf, tables_safe hr⟩

/-- Without a free id `getPID` writes in front of the tables, and `Join` reads at any index. -/
theorem exists_not_tables_safe :
    (∃ s, Reachable (tableSystem.record State.accesses) s ∧ .write .conditionTable (-1) ∈ s.2 ∧
      ¬ TablesSafe s.1 s.2) ∧
    ∃ s, Reachable (tableSystem.record State.accesses) s ∧ .read .lockTable 100 ∈ s.2 ∧
      ¬ TablesSafe s.1 s.2 := by
  constructor
  · obtain ⟨s, hr, hf⟩ := reachable_of_attempts
      ((List.replicate 10 [Call.getPID, .advance, .advance]).flatten ++ [.getPID, .advance])
      (f := fun s => Access.write .conditionTable (-1) ∈ s.2) (by decide +kernel)
    have hm := of_decide_eq_true hf
    exact ⟨s, hr, hm, fun h => absurd (h.bounds _ hm).1 (by decide)⟩
  · obtain ⟨s, hr, hf⟩ := reachable_of_attempts [.join 100]
      (f := fun s => Access.read .lockTable 100 ∈ s.2) (by decide)
    have hm := of_decide_eq_true hf
    exact ⟨s, hr, hm, fun h => absurd (h.bounds _ hm).2 (by decide)⟩

end Nachos.Userprog.ProcessManager
