import Nachos.Threads.Placement

/-! # The rounds of `Barrier`

`blockCount` counts the arrivals of the current round and then drives the loop
that releases it. Numbering the calls of `block` by their arrival, the calls
that sleep are exactly those of the round that is not full yet.
-/

namespace Nachos.Threads

open Function Transition Kernel

variable {k k' : Kernel} {o : Object} {p : Pc} {t : ThreadId} {s l c b b' n : ℕ}
  {arr : List ThreadId}

/-- The thread that an action makes call `block`. -/
def arrival (b : ℕ) (k : Kernel) : Action → List ThreadId
  | .block b' => if b' = b then [k.currentThread] else []
  | _ => []

/-- The call with number `i` sleeps: its thread is blocked in `block` and has not called
`block` again. -/
def asleepAt (b : ℕ) (k : Kernel) (arr : List ThreadId) (i : ℕ) : Bool :=
  match arr[i]? with
  | some t => k.status t == .blocked && k.pc t == .barrierBlock b && !(arr.drop (i + 1)).contains t
  | none => false

/-! ## What the other steps leave alone -/

structure SameBarrier (b : ℕ) (k k' : Kernel) : Prop where
  queue : k'.queue (.barrier b) = k.queue (.barrier b)
  blockCount : k'.blockCount b = k.blockCount b
  blockUntil : k'.blockUntil = k.blockUntil

namespace SameBarrier

theorem refl (k : Kernel) : SameBarrier b k k := ⟨rfl, rfl, rfl⟩

theorem trans {k₁ k₂ k₃ : Kernel} (h : SameBarrier b k₁ k₂) (h' : SameBarrier b k₂ k₃) :
    SameBarrier b k₁ k₃ :=
  ⟨h'.queue.trans h.queue, h'.blockCount.trans h.blockCount, h'.blockUntil.trans h.blockUntil⟩

theorem sleepOn (ho : o ≠ .barrier b) : SameBarrier b k (sleepOn p o k) :=
  ⟨by simp [Kernel.sleepOn, update_of_ne ho.symm], rfl, rfl⟩

theorem wakeOne (ho : o ≠ .barrier b) : SameBarrier b k (wakeOne o k) := by
  unfold Kernel.wakeOne
  split
  · exact refl k
  · exact ⟨by simp [readyToRun, update_of_ne ho.symm], rfl, rfl⟩

theorem semaphoreP : SameBarrier b k (semaphoreP s k) := by
  unfold Kernel.semaphoreP
  split
  · exact sleepOn (by simp)
  · exact ⟨rfl, rfl, rfl⟩

theorem semaphoreV : SameBarrier b k (semaphoreV s k) :=
  (wakeOne (o := .semaphore s) (by simp)).trans ⟨rfl, rfl, rfl⟩

theorem acquire : SameBarrier b k (acquire p l k) := by
  unfold Kernel.acquire
  split
  · exact sleepOn (by simp)
  · exact ⟨rfl, rfl, rfl⟩

theorem release : SameBarrier b k (release l k) := by
  have h : SameBarrier b k (setHolding l false k) := ⟨rfl, rfl, rfl⟩
  unfold Kernel.release
  split
  · exact h
  · exact (h.trans (wakeOne (o := .lock l) (by simp))).trans ⟨rfl, rfl, rfl⟩

theorem wait : SameBarrier b k (wait c l k) := by
  unfold Kernel.wait
  split
  · exact refl k
  · have h : SameBarrier b k (noteWait (Kernel.release l k)) := release.trans ⟨rfl, rfl, rfl⟩
    exact h.trans (sleepOn (by simp))

theorem wakeWaiting : SameBarrier b k (wakeWaiting c k) := by
  unfold Kernel.wakeWaiting
  split
  · exact refl k
  · exact (wakeOne (o := .condition c) (by simp)).trans ⟨rfl, rfl, rfl⟩

theorem wakeWaiting_iterate (n : ℕ) : SameBarrier b k ((Kernel.wakeWaiting c)^[n] k) := by
  induction n generalizing k with
  | zero => exact refl k
  | succ n ih => exact wakeWaiting.trans ih

theorem resume : SameBarrier b k (resume k) := by
  have h : SameBarrier b k (destroy k) := ⟨rfl, rfl, rfl⟩
  unfold Kernel.resume
  split
  case h_2 => exact h.trans semaphoreP
  case h_3 => exact h.trans acquire
  case h_5 => exact h.trans acquire
  all_goals exact ⟨rfl, rfl, rfl⟩

theorem setBlockCount (hb : b' ≠ b) {v : ℤ} :
    SameBarrier b k { k with blockCount := update k.blockCount b' v } :=
  ⟨rfl, by simp [update_of_ne hb.symm], rfl⟩

theorem barrierRelease_iterate (hb : b' ≠ b) (n : ℕ) :
    SameBarrier b k ((barrierRelease b')^[n] k) := by
  induction n generalizing k with
  | zero => exact refl k
  | succ n ih =>
    have h : SameBarrier b k (barrierRelease b' k) :=
      (setBlockCount hb).trans (wakeOne (by simpa using hb))
    exact h.trans ih

theorem block (hb : b' ≠ b) : SameBarrier b k (block b' k) := by
  unfold Kernel.block
  dsimp only
  split
  · exact (setBlockCount hb).trans (barrierRelease_iterate hb _)
  · exact (setBlockCount hb).trans (sleepOn (by simpa using hb))

theorem step {a : Action} (hs : k.step a = some k') (ha : a ≠ .block b) : SameBarrier b k k' := by
  cases a with
  | fork t =>
    simp only [Kernel.step, Option.ite_none_right_eq_some, Option.some.injEq] at hs
    obtain ⟨-, rfl⟩ := hs
    exact ⟨rfl, rfl, rfl⟩
  | yield =>
    simp only [Kernel.step, Option.ite_none_right_eq_some, Option.some.injEq] at hs
    obtain ⟨-, rfl⟩ := hs
    cases hl : k.readyList with
    | nil =>
      rw [Kernel.yield, hl]
      exact refl k
    | cons t rest =>
      rw [yield_eq hl]
      have h : SameBarrier b k (switchTo t (rest ++ [k.currentThread])
          (readyToRun k.currentThread k)) := ⟨rfl, rfl, rfl⟩
      exact h.trans resume
  | reacquire =>
    simp only [Kernel.step] at hs
    split at hs
    · simp only [Option.ite_none_right_eq_some, Option.some.injEq] at hs
      obtain ⟨-, rfl⟩ := hs
      exact acquire
    · cases hs
  | dispatch =>
    simp only [Kernel.step, Option.ite_none_left_eq_some] at hs
    cases hl : k.readyList with
    | nil => simp [Kernel.dispatch, hl] at hs
    | cons t rest =>
      rw [dispatch_eq hl, Option.some.injEq] at hs
      obtain ⟨-, rfl⟩ := hs
      have h : SameBarrier b k (switchTo t rest k) := ⟨rfl, rfl, rfl⟩
      exact h.trans resume
  | interruptV s =>
    simp only [Kernel.step, Option.some.injEq] at hs
    subst hs
    exact semaphoreV
  | _ =>
    simp only [Kernel.step, Option.ite_none_right_eq_some, call, Option.map_some,
      Option.some.injEq] at hs
    obtain ⟨-, rfl⟩ := hs
    first
    | exact semaphoreP
    | exact semaphoreV
    | exact acquire
    | exact release
    | exact wait
    | (unfold Kernel.signal; split; exacts [refl k, wakeWaiting])
    | (unfold Kernel.broadcast; split; exacts [refl k, wakeWaiting_iterate _])
    | exact block (by simpa using ha)
    | exact ⟨rfl, rfl, rfl⟩

end SameBarrier

/-! ## A call of `block` -/

theorem barrierRelease_iterate (n : ℕ) :
    ((barrierRelease b)^[n] k).queue (.barrier b) = (k.queue (.barrier b)).drop n ∧
    ((barrierRelease b)^[n] k).blockCount b = k.blockCount b - n ∧
    ((barrierRelease b)^[n] k).blockUntil = k.blockUntil := by
  induction n generalizing k with
  | zero => simp
  | succ n ih =>
    rw [iterate_succ_apply]
    obtain ⟨h₁, h₂, h₃⟩ := ih (k := barrierRelease b k)
    have hq : (barrierRelease b k).queue (.barrier b) = (k.queue (.barrier b)).tail := by
      unfold barrierRelease wakeOne
      split <;> simp_all [readyToRun]
    have hc : (barrierRelease b k).blockCount b = k.blockCount b - 1 ∧
        (barrierRelease b k).blockUntil = k.blockUntil := by
      unfold barrierRelease wakeOne
      split <;> simp [readyToRun]
    rw [h₁, h₂, h₃, hq, hc.1, hc.2]
    refine ⟨by rw [List.drop_tail], ?_, rfl⟩
    push_cast
    omega

/-- The sleeping calls are those since the last full round, and `blockCount` is their number. -/
structure BarrierInv (b n : ℕ) (k : Kernel) (arr : List ThreadId) : Prop where
  blockUntil : k.blockUntil b = n
  blockCount : k.blockCount b = (arr.length % n : ℕ)
  queue : k.queue (.barrier b) = arr.drop (n * (arr.length / n))

namespace BarrierInv

theorem same (h : BarrierInv b n k arr) (hs : SameBarrier b k k') : BarrierInv b n k' arr :=
  ⟨by rw [hs.blockUntil, h.blockUntil], by rw [hs.blockCount, h.blockCount],
    by rw [hs.queue, h.queue]⟩

theorem length_queue (h : BarrierInv b n k arr) :
    (k.queue (.barrier b)).length = arr.length % n := by
  have := Nat.div_add_mod arr.length n
  rw [h.queue, List.length_drop]
  omega

theorem block (h : BarrierInv b n k arr) (hn : 1 ≤ n) :
    BarrierInv b n (block b k) (arr ++ [k.currentThread]) := by
  have hmod := Nat.mod_lt arr.length hn
  have hlen := Nat.div_add_mod arr.length n
  have hsum : (arr ++ [k.currentThread]).length = n * (arr.length / n) + (arr.length % n + 1) := by
    simp only [List.length_append, List.length_singleton]
    omega
  unfold Kernel.block
  simp only [update_self, h.blockUntil, h.blockCount]
  by_cases hfull : arr.length % n + 1 = n
  · -- the loop runs once more than there are sleepers
    have hdiv : (arr ++ [k.currentThread]).length = n * (arr.length / n + 1) := by
      rw [hsum, hfull, Nat.mul_succ]
    rw [if_pos (by omega)]
    obtain ⟨h₁, h₂, h₃⟩ := barrierRelease_iterate (b := b)
      (k := { k with blockCount := update k.blockCount b ((arr.length % n : ℕ) + 1) })
      (((arr.length % n : ℕ) + 1 : ℤ).toNat)
    constructor
    · rw [h₃]
      exact h.blockUntil
    · rw [h₂, hdiv, Nat.mul_mod_right]
      simp only [update_self]
      omega
    · have hq := h.length_queue
      have hend : n * ((arr ++ [k.currentThread]).length / n) =
          (arr ++ [k.currentThread]).length := by
        rw [hdiv, Nat.mul_div_cancel_left _ hn]
      rw [h₁, hend, List.drop_length, List.drop_of_length_le]
      simp only
      omega
  · have hlt : arr.length % n + 1 < n := by omega
    rw [if_neg (by omega)]
    constructor
    · exact h.blockUntil
    · rw [hsum, Nat.mul_add_mod, Nat.mod_eq_of_lt hlt]
      simp [sleepOn]
    · have hdiv : (arr ++ [k.currentThread]).length / n = arr.length / n := by
        rw [hsum, Nat.mul_add_div hn, Nat.div_eq_of_lt hlt, Nat.add_zero]
      rw [hdiv, List.drop_append_of_le_length (Nat.mul_div_le _ _)]
      simp [sleepOn, h.queue]

theorem step {a : Action} (h : BarrierInv b n k arr) (hn : 1 ≤ n) (hs : k.step a = some k') :
    BarrierInv b n k' (arr ++ arrival b k a) := by
  by_cases ha : a = .block b
  · subst ha
    simp only [Kernel.step, Option.ite_none_right_eq_some, call, Option.map_some,
      Option.some.injEq] at hs
    obtain ⟨-, rfl⟩ := hs
    simpa [arrival] using h.block hn
  · have he : arrival b k a = [] := by
      unfold arrival
      split <;> simp_all
    rw [he, List.append_nil]
    exact h.same (SameBarrier.step hs ha)

theorem asleepAt_iff (h : BarrierInv b n k arr) (hk : Placed k) {i : ℕ} (hi : i < arr.length) :
    asleepAt b k arr i = true ↔ n * (arr.length / n) ≤ i := by
  have hq : ∀ t, t ∈ k.queue (.barrier b) ↔ k.status t = .blocked ∧ k.pc t = .barrierBlock b := by
    intro t
    rw [hk.queued]
    cases k.pc t <;> simp [Pc.object]
  have hnd := hk.queue_nodup (.barrier b)
  have hsleep : asleepAt b k arr i = true ↔
      arr[i] ∈ k.queue (.barrier b) ∧ arr[i] ∉ arr.drop (i + 1) := by
    simp [asleepAt, List.getElem?_eq_getElem hi, hq]
  rw [hsleep, h.queue]
  rw [h.queue] at hnd
  constructor
  · rintro ⟨hm, hl⟩
    -- a thread that sleeps was the caller of a later call otherwise
    by_contra hlt
    have he : n * (arr.length / n) = i + 1 + (n * (arr.length / n) - (i + 1)) := by omega
    rw [he, ← List.drop_drop] at hm
    exact hl (List.mem_of_mem_drop hm)
  · intro hle
    obtain ⟨d, rfl⟩ := Nat.exists_eq_add_of_le hle
    have hs : arr.drop (n * (arr.length / n) + d) =
        arr[n * (arr.length / n) + d] :: arr.drop (n * (arr.length / n) + d + 1) :=
      List.drop_eq_getElem_cons hi
    have hsub : (arr.drop (n * (arr.length / n) + d)).Sublist
        (arr.drop (n * (arr.length / n))) := by
      rw [← List.drop_drop]
      exact List.drop_sublist _ _
    rw [hs] at hsub
    exact ⟨hsub.subset (List.mem_cons_self ..), (List.nodup_cons.mp (hnd.sublist hsub)).1⟩

end BarrierInv

theorem blockUntil_step {a : Action} (hs : k.step a = some k') :
    k'.blockUntil = k.blockUntil := by
  by_cases ha : ∃ b, a = .block b
  · obtain ⟨b, rfl⟩ := ha
    simp only [Kernel.step, Option.ite_none_right_eq_some, call, Option.map_some,
      Option.some.injEq] at hs
    obtain ⟨-, rfl⟩ := hs
    unfold block
    dsimp only
    split
    · exact (barrierRelease_iterate _).2.2
    · rfl
  · exact (SameBarrier.step (b := 0) hs fun he => ha ⟨0, he⟩).blockUntil

theorem barrierInv_of_reachable (h : Reachable (system.record (arrival b)) (k, arr))
    (hn : k.blockUntil b = n) (h₁ : 1 ≤ n) : BarrierInv b n k arr := by
  refine Reachable.invariant (S := system.record (arrival b))
    (P := fun s => s.1.blockUntil b = n → BarrierInv b n s.1 s.2) ?_ ?_ h hn
  · rintro ⟨k, r⟩ ⟨hi, rfl⟩ hn
    exact ⟨hn, by simpa using hi.blockCount b, by simpa using hi.queue (.barrier b)⟩
  · rintro ⟨k, r⟩ a ⟨k', r'⟩ ih ⟨hs, rfl⟩ hn
    have hs' : k.step a = some k' := hs
    have hk : k.blockUntil b = n := by
      rw [← blockUntil_step hs']
      exact hn
    exact (ih hk).step h₁ hs'

theorem BarrierInv.countP_released (h : BarrierInv b n k arr) (hk : Placed k) :
    (List.range arr.length).countP (fun i => !asleepAt b k arr i) = n * (arr.length / n) := by
  have hle : n * (arr.length / n) ≤ arr.length := Nat.mul_div_le _ _
  have hc : (List.range arr.length).countP (fun i => !asleepAt b k arr i) =
      (List.range arr.length).countP fun i => decide (i < n * (arr.length / n)) := by
    refine List.countP_congr fun i hi => ?_
    have := h.asleepAt_iff hk (List.mem_range.mp hi)
    simp only [Bool.not_eq_true', ← Bool.not_eq_true, this, decide_eq_true_eq]
    omega
  rw [hc]
  generalize n * (arr.length / n) = m at hle
  obtain ⟨d, hd⟩ := Nat.exists_eq_add_of_le hle
  rw [hd, List.range_add, List.countP_append, List.countP_eq_length.mpr, List.countP_eq_zero.mpr]
  · simp
  · simp
  · simp

/-- For a barrier of `n ≥ 1` threads and any interleaving of the calls of `block`: the queue has
exactly `blockCount` threads, fewer than `n`; the calls that have returned or been made ready
are `n` for each full round of arrivals; and a call sleeps until its own round is full. -/
theorem barrier_rounds (h : Reachable (system.record (arrival b)) (k, arr))
    (hn : k.blockUntil b = n) (h₁ : 1 ≤ n) :
    ((k.queue (.barrier b)).length = k.blockCount b ∧ k.blockCount b < n) ∧
    (List.range arr.length).countP (fun i => !asleepAt b k arr i) = n * (arr.length / n) ∧
    ∀ a, 1 ≤ a → a ≤ arr.length → arr.length < n * ((a + n - 1) / n) →
      asleepAt b k arr (a - 1) = true := by
  have hk : Placed k := placed_of_reachable h.of_record
  have hb := barrierInv_of_reachable h hn h₁
  refine ⟨⟨?_, ?_⟩, hb.countP_released hk, fun a ha hle hlt => ?_⟩
  · rw [hb.length_queue, hb.blockCount]
  · rw [hb.blockCount]
    exact_mod_cast Nat.mod_lt arr.length h₁
  · rw [hb.asleepAt_iff hk (by omega)]
    have hceil : (a + n - 1) / n = (a - 1) / n + 1 := by
      rw [show a + n - 1 = a - 1 + n by omega, Nat.add_div_right _ h₁]
    rw [hceil] at hlt
    have hround : arr.length / n ≤ (a - 1) / n := by
      have := Nat.div_lt_of_lt_mul hlt
      omega
    exact Nat.le_trans (Nat.mul_le_mul_left n hround) (Nat.mul_div_le _ _)

/-- Two threads at a barrier of two: the first round is over, and thread 1 sleeps in the next. -/
theorem barrier_rounds_next_round :
    ∃ k, Reachable (system.record (arrival 0)) (k, [0, 1, 1]) ∧ k.queue (.barrier 0) = [1] ∧
      (List.range 3).countP (fun i => !asleepAt 0 k [0, 1, 1] i) = 2 := by
  have hi : Initial { boot 0 with blockUntil := fun _ => 2 } := by
    have h := initial_boot (Int.le_refl 0)
    exact ⟨h.status, h.pc, h.readyList, h.queue, h.value, h.locked, h.blockCount,
      h.threadToBeDestroyed, h.holding, h.completedP, h.completedV⟩
  obtain ⟨k, hk⟩ : ∃ k, exec (recorded (arrival 0) step)
      ({ boot 0 with blockUntil := fun _ => 2 }, [])
      [.fork 1, .block 0, .dispatch, .block 0, .block 0] = some (k, [0, 1, 1]) := ⟨_, rfl⟩
  have hr : Reachable (system.record (arrival 0)) (k, [0, 1, 1]) := by
    rw [system, record_ofStep]
    exact ⟨_, _, ⟨hi, rfl⟩, run_ofStep_iff.mpr hk⟩
  have hs : k.blockUntil 0 = 2 ∧ k.queue (.barrier 0) = [1] := by
    obtain rfl := congrArg Prod.fst (Option.some.inj hk)
    exact ⟨rfl, rfl⟩
  exact ⟨k, hr, hs.2, (barrier_rounds hr (n := 2) hs.1 (by decide)).2.1⟩

end Nachos.Threads
