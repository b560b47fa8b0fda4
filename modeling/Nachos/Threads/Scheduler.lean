import Nachos.Threads.Placement

/-! # One place for each thread

A thread is blocked only at one of the `Sleep`s of the routines, or for good in
`Finish`. So a forked thread that has not finished is in the one place that its
status names: it runs, it is once on the ready list, or it is once in one queue.
-/

namespace Nachos.Threads

open Function Transition Kernel

variable {k k' : Kernel} {o : Object} {p : Pc} {t : ThreadId} {s l c b : ℕ}

def Asleep (k : Kernel) : Prop :=
  ∀ t, k.status t = .blocked → (∃ o, (k.pc t).object = some o) ∨ k.pc t = .finished

namespace Asleep

theorem of_eq (h : Asleep k) (hs : k'.status = k.status) (hp : k'.pc = k.pc) : Asleep k' := by
  intro t ht
  rw [hs] at ht
  rw [hp]
  exact h t ht

theorem goTo (h : Asleep k) (hr : k.IsRunning) : Asleep (goTo p k) := by
  intro t ht
  have hne : t ≠ k.currentThread := by
    rintro rfl
    exact absurd (hr.symm.trans ht) (by simp)
  simpa [Kernel.goTo, update_of_ne hne] using h t ht

theorem sleepOn (h : Asleep k) (hp : p.object = some o) : Asleep (sleepOn p o k) := by
  intro t ht
  by_cases he : t = k.currentThread
  · subst he
    exact .inl ⟨o, by simpa [Kernel.sleepOn] using hp⟩
  · simp only [Kernel.sleepOn, update_of_ne he] at ht ⊢
    exact h t ht

theorem readyToRun (h : Asleep k) : Asleep (readyToRun t k) := by
  intro u hu
  have hne : u ≠ t := by
    rintro rfl
    simp [Kernel.readyToRun] at hu
  exact h u (by simpa [Kernel.readyToRun, update_of_ne hne] using hu)

theorem wakeOne (h : Asleep k) : Asleep (wakeOne o k) := by
  unfold Kernel.wakeOne
  split
  · exact h
  · exact (h.of_eq rfl rfl).readyToRun

theorem acquire (h : Asleep k) (hr : k.IsRunning) (hp : p.object = some (.lock l)) :
    Asleep (acquire p l k) := by
  unfold Kernel.acquire
  split
  · exact h.sleepOn hp
  · exact (h.goTo (p := .outside) hr).of_eq rfl rfl

theorem stable : Stable Asleep where
  semaphoreP s hk hr hp h := by
    unfold semaphoreP
    split
    · exact h.sleepOn rfl
    · exact (h.goTo (p := .outside) hr).of_eq rfl rfl
  semaphoreV s hk h := h.wakeOne.of_eq rfl rfl
  acquire l hk hr hp h := h.acquire hr rfl
  reacquire c l hk hr hp h := h.acquire hr rfl
  release {k} l hk hr hp h := by
    have h' : Asleep (setHolding l false k) := h.of_eq rfl rfl
    unfold release
    split
    · exact h'
    · exact h'.wakeOne.of_eq rfl rfl
  wait {k} c l hk hr hp _ h := by
    have h' : Asleep (noteWait k) := h.of_eq rfl rfl
    exact h'.sleepOn rfl
  wakeWaiting c hk hr h := by
    unfold wakeWaiting
    split
    · exact h
    · exact h.wakeOne.of_eq rfl rfl
  setBlockCount f h := h.of_eq rfl rfl
  wakeBarrier b hk h := h.wakeOne
  sleepBarrier b hk hr hp h := h.sleepOn rfl
  leaveRoot hk hr hp h := h.goTo hr
  leaveBarrier b hk hr hp h := h.goTo hr
  leaveWait c l hk hr hp h := h.goTo hr
  destroy h := h.of_eq rfl rfl
  switchTo {k t rest} hk hr hl h := by
    intro u hu
    have hne : u ≠ t := by
      rintro rfl
      simp [switchTo] at hu
    exact h u (by simpa [switchTo, update_of_ne hne] using hu)
  readyToRun hk ht h := h.readyToRun
  finish {k} hk hr hp h := by
    intro t ht
    by_cases he : t = k.currentThread
    · subst he
      exact .inr (by simp [finish])
    · simp only [finish, update_of_ne he] at ht ⊢
      exact h t ht

theorem of_initial (h : Kernel.Initial k) : Asleep k := by
  intro t ht
  rw [h.status] at ht
  split at ht <;> cases ht

end Asleep

theorem Placed.not_mem_readyList (h : Placed k) (ht : k.status t ≠ .ready) : t ∉ k.readyList :=
  fun hm => ht ((h.ready t).mp hm)

theorem Placed.not_mem_queue_of_ne (h : Placed k) (ht : k.status t ≠ .blocked) (o : Object) :
    t ∉ k.queue o :=
  fun hm => ht ((h.queued t o).mp hm).1

/-- The place of a forked thread that has not finished, read from its status. -/
def Kernel.AtPlace (k : Kernel) (t : ThreadId) : Prop :=
  match k.status t with
  | .running => t = k.currentThread ∧ t ∉ k.readyList ∧ ∀ o, t ∉ k.queue o
  | .ready => k.readyList.count t = 1 ∧ ∀ o, t ∉ k.queue o
  | .blocked =>
    t ∉ k.readyList ∧ ∃ o, (k.queue o).count t = 1 ∧ ∀ o', t ∈ k.queue o' → o' = o
  | .justCreated => False

/-- In every reachable state, also one in which `Sleep` idles, each forked thread that has not
finished is in exactly one place, the one that matches its status; a finished thread is on no
list; and at most one thread is running. -/
theorem scheduler_one_place (h : Reachable system k) :
    (∀ t, k.status t ≠ .justCreated → k.pc t ≠ .finished → k.AtPlace t) ∧
    (∀ t, k.pc t = .finished → t ∉ k.readyList ∧ ∀ o, t ∉ k.queue o) ∧
    (∀ t u, k.status t = .running → k.status u = .running → t = u) := by
  have hk := placed_of_reachable h
  have ha : Asleep k := Asleep.stable.reachable (fun _ => Asleep.of_initial) h
  refine ⟨fun t hc hf => ?_, fun t hf => ?_, fun t u ht hu => ?_⟩
  · unfold AtPlace
    cases hs : k.status t with
    | justCreated => exact hc hs
    | running =>
      exact ⟨hk.running t hs, hk.not_mem_readyList (by simp [hs]),
        hk.not_mem_queue_of_ne (by simp [hs])⟩
    | ready =>
      exact ⟨List.count_eq_one_of_mem hk.readyList_nodup ((hk.ready t).mpr hs),
        hk.not_mem_queue_of_ne (by simp [hs])⟩
    | blocked =>
      obtain ⟨o, ho⟩ := (ha t hs).resolve_right hf
      have hm : t ∈ k.queue o := (hk.queued t o).mpr ⟨hs, ho⟩
      refine ⟨hk.not_mem_readyList (by simp [hs]), o,
        List.count_eq_one_of_mem (hk.queue_nodup o) hm, fun o' hm' => ?_⟩
      have ho' := ((hk.queued t o').mp hm').2
      rw [ho] at ho'
      exact (Option.some.inj ho').symm
  · have hs := hk.finished t hf
    refine ⟨hk.not_mem_readyList (by simp [hs]), fun o hm => ?_⟩
    have ho := ((hk.queued t o).mp hm).2
    simp [hf, Pc.object] at ho
  · rw [hk.running t ht, hk.running u hu]

/-- A thread idles in `Sleep` and a handler has made it ready before it switched away. -/
theorem scheduler_one_place_idle :
    ∃ k, exec step (boot 0) [.p 0, .interruptV 0] = some k ∧ k.status 0 = .ready ∧
      k.AtPlace 0 := by
  obtain ⟨k, hk⟩ : ∃ k, exec step (boot 0) [.p 0, .interruptV 0] = some k := ⟨_, rfl⟩
  have hr : Reachable system k := ⟨_, _, initial_boot (by decide), run_ofStep_iff.mpr hk⟩
  have hs : k.status 0 = .ready ∧ k.pc 0 = .semaphoreP 0 := by
    obtain rfl := Option.some.inj hk
    exact ⟨rfl, rfl⟩
  exact ⟨k, hk, hs.1, (scheduler_one_place hr).1 0 (by simp [hs.1]) (by simp [hs.2])⟩

end Nachos.Threads
