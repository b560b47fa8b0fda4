import Nachos.Threads.Condition
import Nachos.Threads.Semaphore

/-! # What code on top of the kernel sees of a step

Code that uses the synchronisation objects does not see the scheduler. It sees
where each thread is, which locks it holds, the semaphores and the queues of the
conditions. A call changes this view in one of a few ways, and a step that is no
call lets at most one thread go on from the `Sleep` it is at.
-/

namespace Nachos.Threads

open Function Transition Kernel

structure Observed where
  pc : ThreadId → Pc
  holding : ℕ → ThreadId → Bool
  value : ℕ → ℤ
  /-- The queues of the conditions. -/
  waiting : ℕ → List ThreadId

def Kernel.observed (k : Kernel) : Observed where
  pc := k.pc
  holding := k.history.holding
  value := k.value
  waiting c := k.queue (.condition c)

namespace Observed

def goTo (t : ThreadId) (p : Pc) (v : Observed) : Observed := { v with pc := update v.pc t p }

def hold (l : ℕ) (t : ThreadId) (b : Bool) (v : Observed) : Observed :=
  { v with holding := update v.holding l (update (v.holding l) t b) }

def add (s : ℕ) (n : ℤ) (v : Observed) : Observed :=
  { v with value := update v.value s (v.value s + n) }

def setWaiting (c : ℕ) (q : List ThreadId) (v : Observed) : Observed :=
  { v with waiting := update v.waiting c q }

inductive Resume (t : ThreadId) (v : Observed) : Observed → Prop
  | stay : Resume t v v
  | root : v.pc t = .root → Resume t v (v.goTo t .outside)
  | semaphoreP {s : ℕ} : v.pc t = .semaphoreP s → v.value s ≠ 0 →
      Resume t v ((v.add s (-1)).goTo t .outside)
  | lockAcquire {l : ℕ} : v.pc t = .lockAcquire l →
      Resume t v ((v.hold l t true).goTo t .outside)
  | conditionWait {c l : ℕ} : v.pc t = .conditionWait c l →
      Resume t v (v.goTo t (.conditionWoken c l))
  | conditionWoken {c l : ℕ} : v.pc t = .conditionWoken c l →
      Resume t v (v.goTo t (.conditionAcquire c l))
  | reacquire {c l : ℕ} : v.pc t = .conditionWoken c l ∨ v.pc t = .conditionAcquire c l →
      Resume t v ((v.hold l t true).goTo t .outside)
  | barrierBlock {b : ℕ} : v.pc t = .barrierBlock b → Resume t v (v.goTo t .outside)

end Observed

open Observed

variable {k k' : Kernel} {o : Object} {p : Pc} {t u : ThreadId} {s l c b : ℕ}

theorem step_call {a : Action} {f : Kernel → Kernel} (hc : call a = some f)
    (hs : k.step a = some k') : k.AtCall ∧ k' = f k := by
  cases a with
  | fork | yield | reacquire | dispatch | interruptV => simp [call] at hc
  | _ =>
    simp only [step, hc, Option.ite_none_right_eq_some, Option.map_some, Option.some.injEq] at hs
    exact ⟨hs.1, hs.2.symm⟩

theorem Observed.Resume.again {v : Observed} (h : v.pc t = p) : Resume t v (v.goTo t p) := by
  have he : v.goTo t p = v := by simp [Observed.goTo, ← h]
  rw [he]
  exact .stay

theorem observed_sleepOn (ho : ∀ c, o ≠ .condition c) :
    (sleepOn p o k).observed = k.observed.goTo k.currentThread p := by
  simp [observed, Observed.goTo, sleepOn, update_of_ne (ho _).symm]

theorem observed_wakeOne (ho : ∀ c, o ≠ .condition c) : (wakeOne o k).observed = k.observed := by
  unfold wakeOne
  split
  · rfl
  · simp [observed, readyToRun, update_of_ne (ho _).symm]

theorem observed_semaphoreV : (semaphoreV s k).observed = k.observed.add s 1 := by
  have h := observed_wakeOne (k := k) (o := .semaphore s) (by simp)
  have hv : (wakeOne (.semaphore s) k).value = k.value := congrArg Observed.value h
  simp only [observed, Observed.add, Observed.mk.injEq] at h ⊢
  exact ⟨h.1, h.2.1, by simp [semaphoreV, hv], h.2.2.2⟩

theorem observed_semaphoreP :
    (k.value s = 0 ∧ (semaphoreP s k).observed = k.observed.goTo k.currentThread (.semaphoreP s)) ∨
    (k.value s ≠ 0 ∧
      (semaphoreP s k).observed = (k.observed.add s (-1)).goTo k.currentThread .outside) := by
  unfold semaphoreP
  split
  case isTrue hz => exact .inl ⟨hz, observed_sleepOn (by simp)⟩
  case isFalse hz => exact .inr ⟨hz, rfl⟩

theorem observed_acquire :
    (Kernel.acquire p l k).observed = k.observed.goTo k.currentThread p ∨
    (Kernel.acquire p l k).observed =
      (k.observed.hold l k.currentThread true).goTo k.currentThread .outside := by
  unfold Kernel.acquire
  split
  · exact .inl (observed_sleepOn (by simp))
  · exact .inr rfl

theorem observed_release :
    (Kernel.release l k).observed = k.observed.hold l k.currentThread false := by
  unfold Kernel.release
  split
  · rfl
  · exact observed_wakeOne (k := setHolding l false k) (o := .lock l) (by simp)

theorem observed_wait :
    (Kernel.wait c l k).observed =
      if k.isHeldByCurrentThread l then
        ((k.observed.hold l k.currentThread false).setWaiting c
          (k.observed.waiting c ++ [k.currentThread])).goTo k.currentThread (.conditionWait c l)
      else k.observed := by
  unfold Kernel.wait
  cases hh : k.isHeldByCurrentThread l with
  | false => rfl
  | true =>
    have hr := observed_release (k := k) (l := l)
    have hq := queue_release (k := k) c l
    simp only [observed, Observed.hold, Observed.mk.injEq] at hr
    simp only [Bool.true_eq_false, ↓reduceIte, observed, Observed.goTo, Observed.setWaiting,
      Observed.hold, Observed.mk.injEq, sleepOn, noteWait, currentThread_release, pc_release,
      hr.2.1, hr.2.2.1, true_and]
    funext d
    by_cases hd : d = c
    · subst hd
      simp [hq]
    · simp [update_of_ne hd, update_of_ne
        (show Object.condition d ≠ .condition c by simpa using hd), queue_release]

theorem observed_wakeWaiting :
    (wakeWaiting c k).observed = k.observed.setWaiting c (k.observed.waiting c).tail := by
  unfold wakeWaiting
  split
  case h_1 hq =>
    have hw : (k.observed.waiting c).tail = k.observed.waiting c := by
      rw [show k.observed.waiting c = [] from hq, List.tail_nil]
    simp [hw, Observed.setWaiting]
  case h_2 t rest hq =>
    simp only [observed, Observed.setWaiting, wakeOne, hq, readyToRun, Observed.mk.injEq, true_and,
      List.tail_cons]
    funext d
    by_cases hd : d = c
    · subst hd
      simp
    · simp [update_of_ne hd, update_of_ne
        (show Object.condition d ≠ .condition c by simpa using hd)]

theorem observed_signal :
    (Kernel.signal c l k).observed =
      if k.isHeldByCurrentThread l then k.observed.setWaiting c (k.observed.waiting c).tail
      else k.observed := by
  unfold Kernel.signal
  cases hh : k.isHeldByCurrentThread l with
  | false => rfl
  | true => simpa using observed_wakeWaiting

theorem observed_wakeWaiting_iterate (n : ℕ) :
    ((wakeWaiting c)^[n] k).observed =
      k.observed.setWaiting c ((k.observed.waiting c).drop n) := by
  induction n generalizing k with
  | zero => simp [Observed.setWaiting]
  | succ n ih =>
    rw [iterate_succ_apply, ih, observed_wakeWaiting]
    simp [Observed.setWaiting]

theorem observed_broadcast :
    (Kernel.broadcast c l k).observed =
      if k.isHeldByCurrentThread l then k.observed.setWaiting c [] else k.observed := by
  unfold Kernel.broadcast
  cases hh : k.isHeldByCurrentThread l with
  | false => rfl
  | true =>
    simp only [Bool.true_eq_false, ↓reduceIte, observed_wakeWaiting_iterate]
    simp [observed]

theorem observed_barrierRelease_iterate (n : ℕ) :
    ((barrierRelease b)^[n] k).observed = k.observed := by
  induction n generalizing k with
  | zero => rfl
  | succ n ih =>
    rw [iterate_succ_apply, ih]
    exact observed_wakeOne
      (k := { k with blockCount := update k.blockCount b (k.blockCount b - 1) }) (by simp)

theorem observed_block :
    (Kernel.block b k).observed = k.observed ∨
    (Kernel.block b k).observed = k.observed.goTo k.currentThread (.barrierBlock b) := by
  unfold Kernel.block
  dsimp only
  split
  · exact .inl (observed_barrierRelease_iterate _)
  · exact .inr (observed_sleepOn (by simp))

theorem observed_resume : Resume k.currentThread k.observed (resume k).observed := by
  unfold resume
  split
  case h_1 hp => exact .root hp
  case h_2 s hp =>
    rcases observed_semaphoreP (s := s) (k := destroy k) with ⟨-, h⟩ | ⟨hv, h⟩
    · rw [h]
      exact Resume.again (v := k.observed) hp
    · rw [h]
      exact .semaphoreP hp hv
  case h_3 l hp =>
    rcases observed_acquire (p := .lockAcquire l) (l := l) (k := destroy k) with h | h
    · rw [h]
      exact Resume.again (v := k.observed) hp
    · rw [h]
      exact .lockAcquire hp
  case h_4 hp => exact .conditionWait hp
  case h_5 c l hp =>
    rcases observed_acquire (p := .conditionAcquire c l) (l := l) (k := destroy k) with h | h
    · rw [h]
      exact Resume.again (v := k.observed) hp
    · rw [h]
      exact .reacquire (.inr hp)
  case h_6 hp => exact .barrierBlock hp
  all_goals exact .stay

theorem observed_switch {a : Action} (ha : a = .yield ∨ a = .dispatch ∨ a = .reacquire)
    (hs : k.step a = some k') : ∃ t, Resume t k.observed k'.observed := by
  rcases ha with rfl | rfl | rfl
  · simp only [step, Option.ite_none_right_eq_some, Option.some.injEq] at hs
    obtain ⟨-, rfl⟩ := hs
    cases hl : k.readyList with
    | nil =>
      rw [yield, hl]
      exact ⟨0, .stay⟩
    | cons t rest =>
      rw [yield_eq hl]
      exact ⟨t, observed_resume (k := switchTo t _ (readyToRun k.currentThread k))⟩
  · simp only [step, Option.ite_none_left_eq_some] at hs
    cases hl : k.readyList with
    | nil => simp [dispatch, hl] at hs
    | cons t rest =>
      rw [dispatch_eq hl, Option.some.injEq] at hs
      obtain ⟨-, rfl⟩ := hs
      exact ⟨t, observed_resume (k := switchTo t rest k)⟩
  · simp only [step] at hs
    split at hs
    case h_1 c l hp =>
      simp only [Option.ite_none_right_eq_some, Option.some.injEq] at hs
      obtain ⟨-, rfl⟩ := hs
      refine ⟨k.currentThread, ?_⟩
      rcases observed_acquire (p := .conditionAcquire c l) (l := l) (k := k) with h | h
      · rw [h]
        exact .conditionWoken hp
      · rw [h]
        exact .reacquire (.inl hp)
    case h_2 => cases hs

theorem Observed.holding_hold_of_ne {v : Observed} {x : Bool} (hu : u ≠ t) (m : ℕ) :
    (v.hold l t x).holding m u = v.holding m u := by
  by_cases hm : m = l
  · subst hm
    simp [Observed.hold, update_of_ne hu]
  · simp [Observed.hold, update_of_ne hm]

theorem call_other {a : Action} {f : Kernel → Kernel} (hc : call a = some f)
    (hu : u ≠ k.currentThread) :
    (f k).pc u = k.pc u ∧ ∀ m, (f k).history.holding m u = k.history.holding m u := by
  change (f k).observed.pc u = k.observed.pc u ∧
    ∀ m, (f k).observed.holding m u = k.observed.holding m u
  have hh := fun (v : Observed) l x => Observed.holding_hold_of_ne (v := v) (l := l) (x := x) hu
  cases a with
  | fork | yield | reacquire | dispatch | interruptV => simp [call] at hc
  | p s =>
    obtain rfl := Option.some.inj hc
    rcases observed_semaphoreP (s := s) (k := k) with ⟨-, h⟩ | ⟨-, h⟩ <;>
      simp [h, Observed.goTo, Observed.add, update_of_ne hu]
  | v s =>
    obtain rfl := Option.some.inj hc
    simp [observed_semaphoreV, Observed.add]
  | acquire l =>
    obtain rfl := Option.some.inj hc
    rcases observed_acquire (p := .lockAcquire l) (l := l) (k := k) with h | h
    · simp [h, Observed.goTo, update_of_ne hu]
    · rw [h]
      exact ⟨update_of_ne hu _ _, hh k.observed l true⟩
  | release l =>
    obtain rfl := Option.some.inj hc
    rw [observed_release]
    exact ⟨rfl, hh k.observed l false⟩
  | wait c l =>
    obtain rfl := Option.some.inj hc
    rw [observed_wait]
    split
    · exact ⟨update_of_ne hu _ _, hh k.observed l false⟩
    · exact ⟨rfl, fun _ => rfl⟩
  | signal c l =>
    obtain rfl := Option.some.inj hc
    rw [observed_signal]
    split <;> exact ⟨rfl, fun _ => rfl⟩
  | broadcast c l =>
    obtain rfl := Option.some.inj hc
    rw [observed_broadcast]
    split <;> exact ⟨rfl, fun _ => rfl⟩
  | block b =>
    obtain rfl := Option.some.inj hc
    rcases observed_block (b := b) (k := k) with h | h <;>
      simp [h, Observed.goTo, update_of_ne hu]
  | finish =>
    obtain rfl := Option.some.inj hc
    exact ⟨update_of_ne hu _ _, fun _ => rfl⟩

/-! ## Objects that code on top of the kernel keeps to itself -/

def Pc.uses : Pc → List Object
  | .semaphoreP s => [.semaphore s]
  | .lockAcquire l => [.lock l]
  | .conditionWait c l | .conditionWoken c l | .conditionAcquire c l => [.condition c, .lock l]
  | .barrierBlock b => [.barrier b]
  | .root | .outside | .finished => []

def Action.uses : Action → List Object
  | .p s | .v s | .interruptV s => [.semaphore s]
  | .acquire l | .release l => [.lock l]
  | .wait c l | .signal c l | .broadcast c l => [.condition c, .lock l]
  | .block b => [.barrier b]
  | .fork _ | .finish | .yield | .reacquire | .dispatch => []

def Action.isCode : Action → Bool
  | .yield | .reacquire | .dispatch | .interruptV _ => false
  | _ => true

def Action.Avoids (a : Action) (own : List Object) : Prop := ∀ o ∈ a.uses, o ∉ own

instance (a : Action) (own : List Object) : Decidable (a.Avoids own) :=
  inferInstanceAs (Decidable (∀ o ∈ a.uses, o ∉ own))

theorem Action.Avoids.mono {a : Action} {own own' : List Object} (h : a.Avoids own)
    (hs : ∀ o ∈ own', o ∈ own) : a.Avoids own' :=
  fun o ho hm => h o ho (hs o hm)

def Pc.Avoids (p : Pc) (own : List Object) : Prop := ∀ o ∈ p.uses, o ∉ own

/-- A call or a handler that does not touch some objects; only thread `t` may change its place. -/
structure Observed.Elsewhere (own : List Object) (t : ThreadId) (v v' : Observed) : Prop where
  pc : ∀ u, v'.pc u = v.pc u ∨ u = t ∧ v.pc u = .outside ∧ (v'.pc u).Avoids own
  holding : ∀ l, .lock l ∈ own → v'.holding l = v.holding l
  value : ∀ s, .semaphore s ∈ own → v'.value s = v.value s
  waiting : ∀ c, .condition c ∈ own → v'.waiting c = v.waiting c

namespace Observed

variable {own : List Object} {v v' : Observed}

theorem Elsewhere.refl : Elsewhere own t v v :=
  ⟨fun _ => .inl rfl, fun _ _ => rfl, fun _ _ => rfl, fun _ _ => rfl⟩

theorem Elsewhere.goTo (h : Elsewhere own t v v') (ht : v.pc t = .outside) (hp : p.Avoids own) :
    Elsewhere own t v (v'.goTo t p) := by
  refine ⟨fun u => ?_, h.holding, h.value, h.waiting⟩
  by_cases hu : u = t
  · subst hu
    exact .inr ⟨rfl, ht, by simpa [Observed.goTo] using hp⟩
  · simpa [Observed.goTo, update_of_ne hu] using h.pc u

theorem Elsewhere.hold (h : Elsewhere own t v v') (hl : .lock l ∉ own) {x : Bool} :
    Elsewhere own t v (v'.hold l u x) := by
  refine ⟨h.pc, fun m hm => ?_, h.value, h.waiting⟩
  have hne : m ≠ l := by
    rintro rfl
    exact hl hm
  simpa [Observed.hold, update_of_ne hne] using h.holding m hm

theorem Elsewhere.add (h : Elsewhere own t v v') (hs : .semaphore s ∉ own) {n : ℤ} :
    Elsewhere own t v (v'.add s n) := by
  refine ⟨h.pc, h.holding, fun m hm => ?_, h.waiting⟩
  have hne : m ≠ s := by
    rintro rfl
    exact hs hm
  simpa [Observed.add, update_of_ne hne] using h.value m hm

theorem Elsewhere.setWaiting (h : Elsewhere own t v v') (hc : .condition c ∉ own)
    {q : List ThreadId} : Elsewhere own t v (v'.setWaiting c q) := by
  refine ⟨h.pc, h.holding, h.value, fun m hm => ?_⟩
  have hne : m ≠ c := by
    rintro rfl
    exact hc hm
  simpa [Observed.setWaiting, update_of_ne hne] using h.waiting m hm

theorem Resume.other (h : Resume t v v') (hu : u ≠ t) :
    v'.pc u = v.pc u ∧ ∀ l, v'.holding l u = v.holding l u := by
  have hl : ∀ l' l, (v.hold l' t true).holding l u = v.holding l u := fun l' =>
    holding_hold_of_ne hu
  cases h with
  | lockAcquire | reacquire => exact ⟨update_of_ne hu _ _, hl _⟩
  | _ => simp [Observed.goTo, Observed.add, update_of_ne hu]

theorem Resume.waiting (h : Resume t v v') : v'.waiting = v.waiting := by
  cases h <;> rfl

/-- A semaphore changes when a thread gets past its `P`, and then only that thread goes on. -/
theorem Resume.value_cases (h : Resume t v v') (m : ℕ) :
    v'.value m = v.value m ∧ (∀ u, v'.pc u = .semaphoreP m ↔ v.pc u = .semaphoreP m) ∨
    v.pc t = .semaphoreP m ∧ v.value m ≠ 0 ∧ v' = (v.add m (-1)).goTo t .outside := by
  have hpc : ∀ {p : Pc} u, v.pc t ≠ .semaphoreP m → p ≠ .semaphoreP m →
      (update v.pc t p u = .semaphoreP m ↔ v.pc u = .semaphoreP m) := by
    intro p u ht hp
    by_cases hu : u = t
    · subst hu
      simp [ht, hp]
    · simp [update_of_ne hu]
  cases h with
  | stay => exact .inl ⟨rfl, fun _ => Iff.rfl⟩
  | @semaphoreP s hp hv =>
    by_cases hs : s = m
    · subst hs
      exact .inr ⟨hp, hv, rfl⟩
    · exact .inl ⟨by simp [Observed.goTo, Observed.add, update_of_ne (Ne.symm hs)],
        fun u => hpc u (by simp [hp, hs]) (by simp)⟩
  | reacquire hp => exact .inl ⟨rfl, fun u => hpc u (by rcases hp with hp | hp <;> simp [hp])
      (by simp)⟩
  | root hp | lockAcquire hp | conditionWait hp | conditionWoken hp | barrierBlock hp =>
    exact .inl ⟨rfl, fun u => hpc u (by simp [hp]) (by simp)⟩

theorem Resume.avoids (h : Resume t v v') (hu : (v.pc u).Avoids own) : (v'.pc u).Avoids own := by
  by_cases he : u = t
  · subst he
    cases h with
    | stay => exact hu
    | conditionWait hp =>
      rw [hp] at hu
      simpa [Observed.goTo, Pc.Avoids, Pc.uses] using hu
    | conditionWoken hp =>
      rw [hp] at hu
      simpa [Observed.goTo, Pc.Avoids, Pc.uses] using hu
    | _ => simp [Observed.goTo, Pc.Avoids, Pc.uses]
  · cases h <;> simpa [Observed.goTo, Observed.hold, Observed.add, update_of_ne he] using hu

theorem Elsewhere.avoids (h : Elsewhere own t v v') (hu : (v.pc u).Avoids own) :
    (v'.pc u).Avoids own := by
  rcases h.pc u with he | ⟨-, -, hp⟩
  · rwa [he]
  · exact hp

end Observed

/-! ## Calls that happen elsewhere -/

section Calls

variable {own : List Object} (hp : k.pc k.currentThread = .outside)

include hp

theorem elsewhere_semaphoreP (hs : .semaphore s ∉ own) :
    Elsewhere own k.currentThread k.observed (semaphoreP s k).observed := by
  rcases observed_semaphoreP (s := s) (k := k) with ⟨-, h⟩ | ⟨-, h⟩
  · exact h ▸ Elsewhere.refl.goTo hp (by simpa [Pc.Avoids, Pc.uses] using hs)
  · exact h ▸ (Elsewhere.refl.add hs).goTo hp (by simp [Pc.Avoids, Pc.uses])

theorem elsewhere_acquire (hl : .lock l ∉ own) :
    Elsewhere own k.currentThread k.observed
      (Kernel.acquire (.lockAcquire l) l k).observed := by
  rcases observed_acquire (p := .lockAcquire l) (l := l) (k := k) with h | h
  · exact h ▸ Elsewhere.refl.goTo hp (by simpa [Pc.Avoids, Pc.uses] using hl)
  · exact h ▸ (Elsewhere.refl.hold hl).goTo hp (by simp [Pc.Avoids, Pc.uses])

theorem elsewhere_wait (hc : .condition c ∉ own) (hl : .lock l ∉ own) :
    Elsewhere own k.currentThread k.observed (Kernel.wait c l k).observed := by
  rw [observed_wait]
  split
  · exact ((Elsewhere.refl.hold hl).setWaiting hc).goTo hp
      (by simpa [Pc.Avoids, Pc.uses] using ⟨hc, hl⟩)
  · exact .refl

theorem elsewhere_block (hb : .barrier b ∉ own) :
    Elsewhere own k.currentThread k.observed (Kernel.block b k).observed := by
  rcases observed_block (b := b) (k := k) with h | h
  · exact h ▸ .refl
  · exact h ▸ Elsewhere.refl.goTo hp (by simpa [Pc.Avoids, Pc.uses] using hb)

omit hp

theorem elsewhere_signal (hc : .condition c ∉ own) :
    Elsewhere own k.currentThread k.observed (Kernel.signal c l k).observed := by
  rw [observed_signal]
  split
  · exact Elsewhere.refl.setWaiting hc
  · exact .refl

theorem elsewhere_broadcast (hc : .condition c ∉ own) :
    Elsewhere own k.currentThread k.observed (Kernel.broadcast c l k).observed := by
  rw [observed_broadcast]
  split
  · exact Elsewhere.refl.setWaiting hc
  · exact .refl

theorem elsewhere_call {a : Action} {f : Kernel → Kernel} (hcall : call a = some f)
    (ha : a.Avoids own) (hp : k.pc k.currentThread = .outside) :
    a.isCode = true ∧ Elsewhere own k.currentThread k.observed (f k).observed := by
  cases a with
  | fork | yield | reacquire | dispatch | interruptV => simp [call] at hcall
  | p =>
    obtain rfl := Option.some.inj hcall
    exact ⟨rfl, elsewhere_semaphoreP hp (ha _ (by simp [Action.uses]))⟩
  | v =>
    obtain rfl := Option.some.inj hcall
    exact ⟨rfl, observed_semaphoreV ▸ Elsewhere.refl.add (ha _ (by simp [Action.uses]))⟩
  | acquire =>
    obtain rfl := Option.some.inj hcall
    exact ⟨rfl, elsewhere_acquire hp (ha _ (by simp [Action.uses]))⟩
  | release =>
    obtain rfl := Option.some.inj hcall
    exact ⟨rfl, observed_release ▸ Elsewhere.refl.hold (ha _ (by simp [Action.uses]))⟩
  | wait =>
    obtain rfl := Option.some.inj hcall
    exact ⟨rfl, elsewhere_wait hp (ha _ (by simp [Action.uses])) (ha _ (by simp [Action.uses]))⟩
  | signal =>
    obtain rfl := Option.some.inj hcall
    exact ⟨rfl, elsewhere_signal (ha _ (by simp [Action.uses]))⟩
  | broadcast =>
    obtain rfl := Option.some.inj hcall
    exact ⟨rfl, elsewhere_broadcast (ha _ (by simp [Action.uses]))⟩
  | block =>
    obtain rfl := Option.some.inj hcall
    exact ⟨rfl, elsewhere_block hp (ha _ (by simp [Action.uses]))⟩
  | finish =>
    obtain rfl := Option.some.inj hcall
    exact ⟨rfl, Elsewhere.refl.goTo (p := .finished) hp (by simp [Pc.Avoids, Pc.uses])⟩

end Calls

/-- A step that names none of the objects lets one thread go on, or happens elsewhere; only the
code of the current thread changes its place. -/
theorem observed_elsewhere {a : Action} {own : List Object} (ha : a.Avoids own)
    (hs : k.step a = some k') :
    (∃ t, Resume t k.observed k'.observed) ∨
    Elsewhere own k.currentThread k.observed k'.observed ∧
      ∀ t, k'.pc t = k.pc t ∨ t = k.currentThread ∧ a.isCode = true := by
  cases hcall : call a with
  | some f =>
    obtain ⟨hp, rfl⟩ := step_call hcall hs
    obtain ⟨hcode, helse⟩ := elsewhere_call hcall ha hp.2
    exact .inr ⟨helse, fun t => (helse.pc t).imp_right fun ht => ⟨ht.1, hcode⟩⟩
  | none =>
    cases a with
    | yield => exact .inl (observed_switch (.inl rfl) hs)
    | dispatch => exact .inl (observed_switch (.inr (.inl rfl)) hs)
    | reacquire => exact .inl (observed_switch (.inr (.inr rfl)) hs)
    | fork t =>
      simp only [step, Option.ite_none_right_eq_some, Option.some.injEq] at hs
      obtain ⟨-, rfl⟩ := hs
      exact .inr ⟨.refl, fun _ => .inl rfl⟩
    | interruptV s =>
      simp only [step, Option.some.injEq] at hs
      subst hs
      rw [observed_semaphoreV]
      exact .inr ⟨Elsewhere.refl.add (by simpa [Action.Avoids, Action.uses] using ha),
        fun _ => .inl (by simp [semaphoreV])⟩
    | _ => simp [call] at hcall

theorem queue_condition_eq {a : Action} (ha : .condition c ∉ a.uses) (hs : k.step a = some k') :
    k'.queue (.condition c) = k.queue (.condition c) := by
  have hav : a.Avoids [.condition c] := by
    rintro o ho hm
    exact ha (List.mem_singleton.mp hm ▸ ho)
  rcases observed_elsewhere hav hs with ⟨t, hr⟩ | ⟨he, -⟩
  · exact congrFun hr.waiting c
  · exact he.waiting c (List.mem_singleton_self _)

theorem value_cases {a : Action} (ha : a.Avoids [.semaphore s]) (hs : k.step a = some k') :
    k'.value s = k.value s ∧ (∀ t, k'.pc t = .semaphoreP s ↔ k.pc t = .semaphoreP s) ∨
    ∃ t, k.pc t = .semaphoreP s ∧ k.value s ≠ 0 ∧
      k'.observed = (k.observed.add s (-1)).goTo t .outside := by
  rcases observed_elsewhere ha hs with ⟨t, hr⟩ | ⟨he, -⟩
  · exact (hr.value_cases s).imp_right fun h => ⟨t, h⟩
  · refine .inl ⟨he.value s (by simp), fun t => ?_⟩
    rcases he.pc t with hp | ⟨-, ho, hav⟩
    · exact (show k'.pc t = k.pc t from hp) ▸ Iff.rfl
    · refine ⟨fun hm => ?_, fun hm => ?_⟩
      · rw [show k'.observed.pc t = .semaphoreP s from hm] at hav
        simp [Pc.Avoids, Pc.uses] at hav
      · rw [show k.observed.pc t = .semaphoreP s from hm] at ho
        cases ho

end Nachos.Threads
