import Nachos.Threads.Placement

/-! # The threads to be deleted

`Finish` leaves its thread to the next one that comes back from `SWITCH`. A new
thread starts in `ThreadRoot` instead, so it deletes nothing, and when it
finishes as well the thread before it is forgotten. In a run all finished
threads but the last are deleted exactly when no two calls of `Finish` follow
each other without a return from `SWITCH` in between.
-/

namespace Nachos.Threads

open Function Transition Kernel

inductive CarcassEvent
  /-- A thread calls `Finish`, with the value of `threadToBeDestroyed` before it is set. -/
  | finishes (t : ThreadId) (carcass : Option ThreadId)
  /-- A thread comes back from `SWITCH` in `Scheduler::Run` and deletes what is there. -/
  | returns (t : ThreadId) (deleted : Option ThreadId)
  deriving DecidableEq, Repr

open CarcassEvent

variable {k k' : Kernel} {o : Object} {p : Pc} {t u : ThreadId} {a : Action} {b c l n s : ℕ}
  {log : List CarcassEvent}

/-- The thread at the head of the ready list comes back from `SWITCH`, if it has run before. -/
def Kernel.switchEvents (k : Kernel) : List CarcassEvent :=
  match k.readyList with
  | [] => []
  | t :: _ => if k.pc t = .root then [] else [returns t k.threadToBeDestroyed]

def Kernel.carcassEvents (k : Kernel) : Action → List CarcassEvent
  | .finish => [finishes k.currentThread k.threadToBeDestroyed]
  | .yield | .dispatch => k.switchEvents
  | _ => []

/-- The runs of the kernel with their events. -/
def carcassSystem : System (Kernel × List CarcassEvent) Action := system.record carcassEvents

/-- The threads that were deleted, in their order. -/
def deletions (log : List CarcassEvent) : List ThreadId :=
  log.filterMap fun e => match e with
    | finishes _ _ => none
    | returns _ d => d

/-- `Finish` finds no other thread to be destroyed, at most one finished thread is not deleted, and
the others were deleted once, by another thread than themselves. -/
structure Carcasses (k : Kernel) (log : List CarcassEvent) : Prop where
  null : ∀ t c, finishes t c ∈ log → c = none
  one : ∀ t u, k.pc t = .finished → k.pc u = .finished → t ∉ deletions log → u ∉ deletions log →
    t = u
  once : ∀ t, (deletions log).count t ≤ 1
  finished : ∀ t ∈ deletions log, k.pc t = .finished
  other : ∀ t u, returns t (some u) ∈ log → u ≠ t

/-- Between two calls of `Finish` a thread comes back from `SWITCH`. -/
def Separated (log : List CarcassEvent) : Prop :=
  ∀ t c u d l₁ l₂, log ≠ l₁ ++ finishes t c :: finishes u d :: l₂

/-! ## What the routines leave -/

namespace Kernel

structure Keeps (k k' : Kernel) : Prop where
  carcass : k'.threadToBeDestroyed = k.threadToBeDestroyed
  finished : ∀ t, k'.pc t = .finished ↔ k.pc t = .finished

theorem Keeps.of_eq (hd : k'.threadToBeDestroyed = k.threadToBeDestroyed) (hp : k'.pc = k.pc) :
    Keeps k k' := ⟨hd, fun t => by rw [hp]⟩

theorem Keeps.trans {k'' : Kernel} (h : Keeps k k') (h' : Keeps k' k'') : Keeps k k'' :=
  ⟨h'.carcass.trans h.carcass, fun t => (h'.finished t).trans (h.finished t)⟩

theorem keeps_goTo (hc : k.pc k.currentThread ≠ .finished) (hp : p ≠ .finished)
    (hd : k'.threadToBeDestroyed = k.threadToBeDestroyed)
    (hk : k'.pc = update k.pc k.currentThread p) :
    Keeps k k' := by
  refine ⟨hd, fun t => ?_⟩
  rw [hk]
  by_cases ht : t = k.currentThread
  · subst ht
    rw [update_self]
    exact iff_of_false hp hc
  · rw [update_of_ne ht]

theorem keeps_wakeOne : Keeps k (wakeOne o k) := by
  unfold wakeOne
  split
  · exact .of_eq rfl rfl
  · exact .of_eq rfl rfl

theorem keeps_semaphoreP (hc : k.pc k.currentThread ≠ .finished) : Keeps k (semaphoreP s k) := by
  unfold semaphoreP
  split
  · exact keeps_goTo hc (by simp) rfl rfl
  · exact keeps_goTo hc (by simp) rfl rfl

theorem keeps_semaphoreV : Keeps k (semaphoreV s k) := keeps_wakeOne.trans (.of_eq rfl rfl)

theorem keeps_acquire (hc : k.pc k.currentThread ≠ .finished) (hp : p ≠ .finished) :
    Keeps k (acquire p l k) := by
  unfold acquire
  split
  · exact keeps_goTo hc hp rfl rfl
  · exact keeps_goTo hc (by simp) rfl rfl

theorem keeps_release : Keeps k (release l k) := by
  unfold release
  split
  · exact .of_eq rfl rfl
  · have hw : Keeps (setHolding l false k) (wakeOne (.lock l) (setHolding l false k)) :=
      keeps_wakeOne
    exact .of_eq hw.carcass pc_wakeOne

theorem keeps_wait (hc : k.pc k.currentThread ≠ .finished) : Keeps k (wait c l k) := by
  unfold wait
  split
  · exact .of_eq rfl rfl
  · have hr : Keeps k (release l k) := keeps_release
    refine hr.trans (keeps_goTo ?_ (by simp) rfl rfl)
    rw [pc_release, currentThread_release]
    exact hc

theorem keeps_wakeWaiting : Keeps k (wakeWaiting c k) := by
  unfold wakeWaiting
  split
  · exact .of_eq rfl rfl
  · exact keeps_wakeOne.trans (.of_eq rfl rfl)

theorem Keeps.iterate {f : Kernel → Kernel} (h : Keeps k k') (hf : ∀ k, Keeps k (f k)) :
    Keeps k (f^[n] k') := by
  induction n generalizing k' with
  | zero => exact h
  | succ n ih => exact ih (h.trans (hf k'))

theorem keeps_signal : Keeps k (signal c l k) := by
  unfold signal
  split
  · exact .of_eq rfl rfl
  · exact keeps_wakeWaiting

theorem keeps_broadcast : Keeps k (broadcast c l k) := by
  unfold broadcast
  split
  · exact .of_eq rfl rfl
  · exact (Keeps.of_eq rfl rfl).iterate fun _ => keeps_wakeWaiting

theorem keeps_barrierRelease : Keeps k (barrierRelease b k) :=
  have h : Keeps _ (wakeOne (.barrier b) _) := keeps_wakeOne
  ⟨h.carcass, h.finished⟩

theorem keeps_block (hc : k.pc k.currentThread ≠ .finished) : Keeps k (block b k) := by
  unfold block
  dsimp only
  split
  · exact Keeps.iterate (.of_eq rfl rfl) fun _ => keeps_barrierRelease
  · exact keeps_goTo hc (by simp) rfl rfl

theorem keeps_resume (hc : k.pc k.currentThread ≠ .finished) (hr : k.pc k.currentThread ≠ .root) :
    Keeps (destroy k) (resume k) := by
  unfold resume
  split
  case h_1 h => exact absurd h hr
  case h_2 => exact keeps_semaphoreP hc
  case h_3 => exact keeps_acquire hc (by simp)
  case h_4 => exact keeps_goTo hc (by simp) rfl rfl
  case h_5 => exact keeps_acquire hc (by simp)
  case h_6 => exact keeps_goTo hc (by simp) rfl rfl
  all_goals exact .of_eq rfl rfl

theorem keeps_resume_root (hr : k.pc k.currentThread = .root) : Keeps k (resume k) := by
  unfold resume
  rw [hr]
  exact keeps_goTo (by rw [hr]; decide) (by simp) rfl rfl

end Kernel

/-! ## What a step records -/

/-- A step leaves the finished threads and `threadToBeDestroyed` alone, or it is `Finish`, or a
thread comes back from `SWITCH`. -/
inductive CarcassStep (k k' : Kernel) : List CarcassEvent → Prop
  | keeps : Keeps k k' → CarcassStep k k' []
  | finishes : k.pc k.currentThread ≠ .finished → k'.threadToBeDestroyed = some k.currentThread →
      (∀ t, k'.pc t = .finished ↔ t = k.currentThread ∨ k.pc t = .finished) →
      CarcassStep k k' [finishes k.currentThread k.threadToBeDestroyed]
  | returns {t : ThreadId} : k.pc t ≠ .finished → Keeps (destroy k) k' →
      CarcassStep k k' [returns t k.threadToBeDestroyed]

theorem carcassStep_resume {rest : List ThreadId} (hk : Placed k) (hl : k.readyList = t :: rest)
    (ht : k'.currentThread = t) (hd : k'.threadToBeDestroyed = k.threadToBeDestroyed)
    (hp : k'.pc = k.pc) : CarcassStep k (resume k') k.switchEvents := by
  have hfin : k.pc t ≠ .finished := fun h => by
    have hready := (hk.ready t).mp (hl ▸ List.mem_cons_self)
    rw [hk.finished t h] at hready
    cases hready
  have hpc : k'.pc k'.currentThread = k.pc t := by rw [ht, hp]
  rw [switchEvents, hl]
  dsimp only
  split
  case isTrue hr =>
    exact .keeps ((Keeps.of_eq hd hp).trans (keeps_resume_root (hpc.trans hr)))
  case isFalse hr =>
    have hdestroy : Keeps (destroy k) (destroy k') := .of_eq rfl hp
    exact .returns hfin (hdestroy.trans (keeps_resume (by rwa [hpc]) (by rwa [hpc])))

theorem carcassStep_finish (h : k.AtCall) :
    CarcassStep k (Kernel.finish k) [finishes k.currentThread k.threadToBeDestroyed] := by
  refine .finishes (by simp [h.2]) rfl fun t => ?_
  by_cases ht : t = k.currentThread
  · simp [Kernel.finish, ht]
  · simp [Kernel.finish, ht]

theorem carcassStep (hk : Placed k) (hs : k.step a = some k') :
    CarcassStep k k' (k.carcassEvents a) := by
  cases a with
  | fork t =>
    simp only [Kernel.step, Option.ite_none_right_eq_some, Option.some.injEq] at hs
    obtain ⟨-, rfl⟩ := hs
    exact .keeps (.of_eq rfl rfl)
  | yield =>
    simp only [Kernel.step, Option.ite_none_right_eq_some, Option.some.injEq] at hs
    obtain ⟨-, rfl⟩ := hs
    cases hl : k.readyList with
    | nil =>
      simp only [carcassEvents, switchEvents, hl, yield]
      exact .keeps (.of_eq rfl rfl)
    | cons t rest =>
      rw [yield_eq hl]
      exact carcassStep_resume hk hl rfl rfl rfl
  | reacquire =>
    simp only [Kernel.step] at hs
    split at hs
    case h_1 c l hp =>
      simp only [Option.ite_none_right_eq_some, Option.some.injEq] at hs
      obtain ⟨-, rfl⟩ := hs
      exact .keeps (keeps_acquire (by simp [hp]) (by simp))
    case h_2 => cases hs
  | dispatch =>
    simp only [Kernel.step, Option.ite_none_left_eq_some] at hs
    obtain ⟨-, hd⟩ := hs
    cases hl : k.readyList with
    | nil => simp [dispatch, hl] at hd
    | cons t rest =>
      rw [dispatch_eq hl, Option.some.injEq] at hd
      subst hd
      exact carcassStep_resume hk hl rfl rfl rfl
  | interruptV s =>
    simp only [Kernel.step, Option.some.injEq] at hs
    subst hs
    exact .keeps keeps_semaphoreV
  | _ =>
    -- the remaining actions are calls by the running thread
    simp only [Kernel.step, Option.ite_none_right_eq_some, call, Option.map_some,
      Option.some.injEq] at hs
    obtain ⟨hcall, rfl⟩ := hs
    have hc : k.pc k.currentThread ≠ .finished := by simp [hcall.2]
    first
    | exact carcassStep_finish hcall
    | exact .keeps (keeps_semaphoreP hc)
    | exact .keeps keeps_semaphoreV
    | exact .keeps (keeps_acquire hc (by simp))
    | exact .keeps keeps_release
    | exact .keeps (keeps_wait hc)
    | exact .keeps keeps_signal
    | exact .keeps keeps_broadcast
    | exact .keeps (keeps_block hc)

/-! ## The record of a run -/

/-- The thread that the last event leaves to be destroyed. -/
def pending (log : List CarcassEvent) : Option ThreadId :=
  match log.getLast? with
  | some (finishes t _) => some t
  | _ => none

structure CarcassLog (k : Kernel) (log : List CarcassEvent) : Prop where
  carcass : k.threadToBeDestroyed = pending log
  found : ∀ l₁ l₂ t c, log = l₁ ++ finishes t c :: l₂ → c = pending l₁
  left : ∀ t, k.threadToBeDestroyed = some t → k.pc t = .finished ∧ t ∉ deletions log
  nodup : (deletions log).Nodup
  deleted : ∀ t ∈ deletions log, k.pc t = .finished
  other : ∀ t u, returns t (some u) ∈ log → u ≠ t
  all : Separated log → ∀ t, k.pc t = .finished → t ∈ deletions log ∨ k.threadToBeDestroyed = some t

@[simp] theorem pending_finishes {d : Option ThreadId} :
    pending (log ++ [finishes t d]) = some t := by
  simp [pending]

@[simp] theorem pending_returns {d : Option ThreadId} : pending (log ++ [returns t d]) = none := by
  simp [pending]

theorem pending_eq_some : pending log = some t ↔ ∃ l c, log = l ++ [finishes t c] := by
  constructor
  · intro h
    unfold pending at h
    split at h
    case h_1 u d hl =>
      cases h
      obtain ⟨l, hl⟩ := List.getLast?_eq_some_iff.mp hl
      exact ⟨l, d, hl⟩
    case h_2 => cases h
  · rintro ⟨l, c, rfl⟩
    exact pending_finishes

@[simp] theorem deletions_finishes {d : Option ThreadId} :
    deletions (log ++ [finishes t d]) = deletions log := by
  simp [deletions]

@[simp] theorem deletions_returns {d : Option ThreadId} :
    deletions (log ++ [returns t d]) = deletions log ++ d.toList := by
  cases d <;> simp [deletions]

theorem eq_append_concat {x e : CarcassEvent} {l₁ l₂ : List CarcassEvent}
    (h : log ++ [e] = l₁ ++ x :: l₂) :
    (log = l₁ ∧ x = e) ∨ ∃ l, log = l₁ ++ x :: l := by
  rcases List.eq_nil_or_concat' l₂ with rfl | ⟨l, y, rfl⟩
  · obtain ⟨h₁, h₂⟩ := List.append_inj' h rfl
    cases h₂
    exact .inl ⟨h₁, rfl⟩
  · rw [← List.cons_append, ← List.append_assoc] at h
    exact .inr ⟨l, (List.append_inj' h rfl).1⟩

theorem Separated.of_append {es : List CarcassEvent} (h : Separated (log ++ es)) :
    Separated log := by
  intro t c u d l₁ l₂ hl
  exact h t c u d l₁ (l₂ ++ es) (by rw [hl, List.append_assoc]; rfl)

theorem Separated.pending_eq_none {d : Option ThreadId} (h : Separated (log ++ [finishes t d])) :
    pending log = none := by
  refine Option.eq_none_iff_forall_ne_some.mpr fun u hu => ?_
  obtain ⟨l, c, rfl⟩ := pending_eq_some.mp hu
  exact h u c t d l [] (by rw [List.append_assoc]; rfl)

namespace CarcassLog

theorem init (h : Initial k) : CarcassLog k [] where
  carcass := h.threadToBeDestroyed
  found l₁ l₂ t c hl := by simp at hl
  left t ht := by simp [h.threadToBeDestroyed] at ht
  nodup := List.nodup_nil
  deleted t ht := by simp [deletions] at ht
  other t u hu := by simp at hu
  all _ t ht := by
    rw [h.pc] at ht
    split at ht
    · cases ht
    · cases ht

theorem keeps (h : CarcassLog k log) (hk : Keeps k k') : CarcassLog k' log where
  carcass := hk.carcass.trans h.carcass
  found := h.found
  left t ht := by
    obtain ⟨hfin, hdel⟩ := h.left t (hk.carcass ▸ ht)
    exact ⟨(hk.finished t).mpr hfin, hdel⟩
  nodup := h.nodup
  deleted t ht := (hk.finished t).mpr (h.deleted t ht)
  other := h.other
  all hsep t ht := by
    rw [hk.carcass]
    exact h.all hsep t ((hk.finished t).mp ht)

theorem finishes (h : CarcassLog k log) (hc : k.pc k.currentThread ≠ .finished)
    (hd : k'.threadToBeDestroyed = some k.currentThread)
    (hp : ∀ t, k'.pc t = .finished ↔ t = k.currentThread ∨ k.pc t = .finished) :
    CarcassLog k' (log ++ [finishes k.currentThread k.threadToBeDestroyed]) where
  carcass := by rw [hd, pending_finishes]
  found l₁ l₂ t c hl := by
    rcases eq_append_concat hl with ⟨rfl, he⟩ | ⟨l, hl⟩
    · cases he
      exact h.carcass
    · exact h.found l₁ l t c hl
  left t ht := by
    cases hd.symm.trans ht
    rw [deletions_finishes]
    exact ⟨(hp _).mpr (.inl rfl), fun hm => hc (h.deleted _ hm)⟩
  nodup := by rw [deletions_finishes]; exact h.nodup
  deleted t ht := by
    rw [deletions_finishes] at ht
    exact (hp t).mpr (.inr (h.deleted t ht))
  other t u hu := by
    rw [List.mem_append, List.mem_singleton] at hu
    rcases hu with hu | hu
    · exact h.other t u hu
    · cases hu
  all hsep t ht := by
    rw [deletions_finishes, hd]
    rcases (hp t).mp ht with rfl | ht
    · exact .inr rfl
    · rcases h.all hsep.of_append t ht with hm | hm
      · exact .inl hm
      · rw [h.carcass, hsep.pending_eq_none] at hm
        cases hm

theorem returns (h : CarcassLog k log) (ht : k.pc t ≠ .finished) (hk : Keeps (destroy k) k') :
    CarcassLog k' (log ++ [returns t k.threadToBeDestroyed]) where
  carcass := by rw [hk.carcass, pending_returns]; rfl
  found l₁ l₂ u c hl := by
    rcases eq_append_concat hl with ⟨-, he⟩ | ⟨l, hl⟩
    · cases he
    · exact h.found l₁ l u c hl
  left u hu := by
    rw [hk.carcass] at hu
    cases hu
  nodup := by
    rw [deletions_returns]
    cases hd : k.threadToBeDestroyed with
    | none => simpa using h.nodup
    | some u =>
      rw [Option.toList_some, ← List.concat_eq_append, List.nodup_concat]
      exact ⟨(h.left u hd).2, h.nodup⟩
  deleted u hu := by
    rw [deletions_returns, List.mem_append, Option.mem_toList] at hu
    refine (hk.finished u).mpr ?_
    rcases hu with hu | hu
    · exact h.deleted u hu
    · exact (h.left u hu).1
  other v u hu := by
    rw [List.mem_append, List.mem_singleton] at hu
    rcases hu with hu | hu
    · exact h.other v u hu
    · injection hu with hv hd
      rintro rfl
      exact ht (hv ▸ (h.left u hd.symm).1)
  all hsep u hu := by
    rw [deletions_returns, List.mem_append, Option.mem_toList]
    rcases h.all hsep.of_append u ((hk.finished u).mp hu) with hm | hm
    · exact .inl (.inl hm)
    · exact .inl (.inr hm)

theorem step {es : List CarcassEvent} (h : CarcassLog k log) (hs : CarcassStep k k' es) :
    CarcassLog k' (log ++ es) := by
  cases hs with
  | keeps hk =>
    rw [List.append_nil]
    exact h.keeps hk
  | finishes hc hd hp => exact h.finishes hc hd hp
  | returns ht hk => exact h.returns ht hk

theorem of_reachable {s : Kernel × List CarcassEvent} (h : Reachable carcassSystem s) :
    CarcassLog s.1 s.2 := by
  refine (h.invariant (P := fun s => Placed s.1 ∧ CarcassLog s.1 s.2) ?_ ?_).2
  · rintro ⟨k, log⟩ ⟨hi, hl⟩
    cases hl
    exact ⟨Initial.placed hi, init hi⟩
  · rintro ⟨k, log⟩ a ⟨k', log'⟩ ⟨hk, hlog⟩ ⟨hs, hl⟩
    cases hl
    exact ⟨Placed.stable.step hk hk hs, hlog.step (carcassStep hk hs)⟩

theorem separated_of_null (h : CarcassLog k log)
    (hn : ∀ t c, CarcassEvent.finishes t c ∈ log → c = none) :
    Separated log := by
  rintro t c u d l₁ l₂ rfl
  have hd := h.found (l₁ ++ [.finishes t c]) l₂ u d (by rw [List.append_assoc]; rfl)
  rw [pending_finishes] at hd
  cases hd.symm.trans (hn u d (by simp))

theorem null_of_separated (h : CarcassLog k log) (hsep : Separated log) {d : Option ThreadId}
    (hm : CarcassEvent.finishes t d ∈ log) : d = none := by
  obtain ⟨l₁, l₂, rfl⟩ := List.append_of_mem hm
  rw [h.found l₁ l₂ t d rfl]
  have happ : l₁ ++ .finishes t d :: l₂ = l₁ ++ [.finishes t d] ++ l₂ := by
    rw [List.append_assoc]; rfl
  exact (happ ▸ hsep).of_append.pending_eq_none

end CarcassLog

/-- Finished threads are kept and deleted one by one exactly in the runs in which between two calls
of `Finish` a thread comes back from `SWITCH`. -/
theorem carcasses_iff {s : Kernel × List CarcassEvent} (h : Reachable carcassSystem s) :
    Carcasses s.1 s.2 ↔ Separated s.2 := by
  have hlog := CarcassLog.of_reachable h
  constructor
  · intro hc
    exact hlog.separated_of_null hc.null
  · intro hsep
    refine ⟨fun t c hm => hlog.null_of_separated hsep hm, fun t u ht hu hdt hdu => ?_,
      List.nodup_iff_count_le_one.mp hlog.nodup, hlog.deleted, hlog.other⟩
    have hcarcass := (hlog.all hsep t ht).resolve_left hdt
    exact Option.some.inj (hcarcass.symm.trans ((hlog.all hsep u hu).resolve_left hdu))

theorem carcassSystem_eq : carcassSystem =
    .ofStep (fun s => Initial s.1 ∧ s.2 = []) (recorded carcassEvents Kernel.step) :=
  record_ofStep carcassEvents

theorem reachable_of_exec (as : List Action) {p : Kernel × List CarcassEvent → Bool}
    (h : (exec (recorded carcassEvents Kernel.step) (boot 0, []) as).any p = true) :
    ∃ s, Reachable carcassSystem s ∧ p s = true := by
  rw [carcassSystem_eq]
  obtain ⟨s, hr, hp⟩ := run_of_any_exec h
  exact ⟨s, ⟨_, as, ⟨initial_boot (by decide), rfl⟩, hr⟩, hp⟩

/-- A thread forks another, which finishes and is deleted. -/
theorem carcasses_iff_fork : ∃ s, Reachable carcassSystem s ∧ s.1.pc 1 = .finished ∧
    deletions s.2 = [1] ∧ (Carcasses s.1 s.2 ↔ Separated s.2) := by
  obtain ⟨s, hr, hp⟩ := reachable_of_exec [.fork 1, .yield, .finish, .dispatch]
    (p := fun s => s.1.pc 1 = .finished ∧ deletions s.2 = [1]) (by decide)
  obtain ⟨h₁, h₂⟩ := of_decide_eq_true hp
  exact ⟨s, hr, h₁, h₂, carcasses_iff hr⟩

/-- Two new threads finish one after the other, and the first is never deleted. -/
theorem exists_not_carcasses : ∃ s, Reachable carcassSystem s ∧ s.1.pc 1 = .finished ∧
    1 ∉ deletions s.2 ∧ s.1.threadToBeDestroyed = none ∧ ¬ Carcasses s.1 s.2 := by
  obtain ⟨s, hr, hp⟩ := reachable_of_exec
    [.fork 1, .fork 2, .yield, .finish, .dispatch, .finish, .dispatch]
    (p := fun s => CarcassEvent.finishes 2 (some 1) ∈ s.2 ∧ s.1.pc 1 = .finished ∧
      deletions s.2 = [2] ∧
      s.1.threadToBeDestroyed = none) (by decide)
  obtain ⟨hfin, hpc, hdel, hnone⟩ := of_decide_eq_true hp
  refine ⟨s, hr, hpc, by simp [hdel], hnone, fun hc => ?_⟩
  cases hc.null 2 (some 1) hfin

end Nachos.Threads
