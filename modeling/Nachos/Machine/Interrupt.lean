import Mathlib.Data.List.Range
import Nachos.Threads.LinkedList

/-! # The interrupt queue

`Schedule`, `OneTick` and `Idle`, with one step for each turn of their loops, so
that a handler may schedule further interrupts while it runs. The pending list
is the sequence that its `List` represents, and ticks do not overflow. Each
interrupt has the number of interrupts that were scheduled before it, and the
handlers that have been called are recorded with the time of the call.
-/

namespace Nachos.Machine

open Threads Transition

inductive IntStatus | off | on
  deriving DecidableEq

inductive MachineStatus | idle | system | user
  deriving DecidableEq

inductive IntType | timer | disk | consoleWrite | consoleRead | networkSend | networkRecv
  deriving DecidableEq

structure PendingInterrupt where
  handler : ℕ
  arg : ℤ
  when : ℤ
  type : IntType
  serial : ℕ

/-- The routine whose loop calls `CheckIfDue(FALSE)`. -/
inductive Caller | oneTick | idle
  deriving DecidableEq

inductive Place
  /-- In the kernel or in a user program, outside of the routines. -/
  | running
  /-- `CheckIfDue(TRUE)` of `Idle` is next. -/
  | idle
  /-- `CheckIfDue(FALSE)` of a loop is next. -/
  | loop (caller : Caller)
  /-- In a handler, behind which `status` becomes `old` again and the loop goes on. -/
  | handler (caller : Caller) (old : MachineStatus)
  /-- `Halt` does not return. -/
  | halted
  deriving DecidableEq

structure Interrupt where
  level : IntStatus
  pending : List (Entry PendingInterrupt)
  yieldOnReturn : Bool
  status : MachineStatus
  totalTicks : ℤ
  idleTicks : ℤ
  systemTicks : ℤ
  userTicks : ℤ
  place : Place
  scheduled : ℕ
  fired : List (PendingInterrupt × ℤ)

namespace Interrupt

abbrev UserTick : ℤ := 1

abbrev SystemTick : ℤ := 10

/-- `pending->SortedInsert(toOccur, when)`. -/
def putBack (e : Entry PendingInterrupt) (s : Interrupt) : Interrupt :=
  { s with pending := LinkedList.insertSorted e s.pending }

def schedule (handler : ℕ) (arg fromNow : ℤ) (type : IntType) (s : Interrupt) :
    Option Interrupt :=
  let when := s.totalTicks + fromNow
  if 0 < fromNow then
    some { s.putBack ⟨when, ⟨handler, arg, when, type, s.scheduled⟩⟩ with
      scheduled := s.scheduled + 1 }
  else none

def advance (when : ℤ) (s : Interrupt) : Interrupt :=
  { s with idleTicks := s.idleTicks + (when - s.totalTicks), totalTicks := when }

/-- The second half of `CheckIfDue`, up to the call of the handler. -/
def invoke (e : Entry PendingInterrupt) (s : Interrupt) : Bool × Interrupt :=
  if s.status = .idle ∧ e.item.type = .timer ∧ s.pending = [] then (false, s.putBack e)
  else (true, { s with status := .system, fired := s.fired ++ [(e.item, s.totalTicks)] })

/-- `CheckIfDue`, up to the call of the handler: whether one is called. -/
def checkIfDue (advanceClock : Bool) (s : Interrupt) : Option (Bool × Interrupt) :=
  if s.level = .off then
    match s.pending with
    | [] => some (false, s)
    | e :: pending =>
      let s := { s with pending := pending }
      if advanceClock ∧ s.totalTicks < e.key then some (invoke e (s.advance e.key))
      else if s.totalTicks < e.key then some (false, s.putBack e)
      else some (invoke e s)
  else none

def oneTick (s : Interrupt) : Interrupt :=
  if s.status = .system then
    { s with
      totalTicks := s.totalTicks + SystemTick
      systemTicks := s.systemTicks + SystemTick
      level := .off
      place := .loop .oneTick }
  else
    { s with
      totalTicks := s.totalTicks + UserTick
      userTicks := s.userTicks + UserTick
      level := .off
      place := .loop .oneTick }

/-- What follows the loop of `OneTick`, up to the call of `Yield`, and that of `Idle`. -/
def leave (caller : Caller) (s : Interrupt) : Interrupt :=
  match caller with
  | .oneTick =>
    if s.yieldOnReturn then
      { s with level := .on, yieldOnReturn := false, status := .system, place := .running }
    else { s with level := .on, place := .running }
  | .idle => { s with yieldOnReturn := false, status := .system, place := .running }

inductive Action
  | schedule (handler : ℕ) (arg fromNow : ℤ) (type : IntType)
  | yieldOnReturn
  | oneTick
  | idle
  | checkIfDue
  /-- A handler returns. -/
  | return_
  /-- `SetLevel(IntOff)`. -/
  | disable
  /-- A user program is entered or left. -/
  | setStatus (user : Bool)

def step (s : Interrupt) : Action → Option Interrupt
  | .schedule handler arg fromNow type =>
    match s.place with
    | .running | .handler .. => s.schedule handler arg fromNow type
    | _ => none
  | .yieldOnReturn =>
    match s.place with
    | .handler .. => some { s with yieldOnReturn := true }
    | _ => none
  | .oneTick => if s.place = .running then some s.oneTick else none
  | .idle => if s.place = .running then some { s with status := .idle, place := .idle } else none
  | .checkIfDue =>
    match s.place with
    | .idle => (s.checkIfDue true).map fun r =>
      { r.2 with place := if r.1 then .handler .idle s.status else .halted }
    | .loop caller => (s.checkIfDue false).map fun r =>
      if r.1 then { r.2 with place := .handler caller s.status } else r.2.leave caller
    | _ => none
  | .return_ =>
    match s.place with
    | .handler caller old => some { s with status := old, place := .loop caller }
    | _ => none
  | .disable =>
    match s.place with
    | .running | .handler .. => some { s with level := .off }
    | _ => none
  | .setStatus user =>
    if s.place = .running then some { s with status := if user then .user else .system } else none

/-- `Interrupt::Interrupt`, where the clock starts. -/
def new : Interrupt :=
  { level := .off
    pending := []
    yieldOnReturn := false
    status := .system
    totalTicks := 0
    idleTicks := 0
    systemTicks := 0
    userTicks := 0
    place := .running
    scheduled := 0
    fired := [] }

/-- As `new`, with a clock that may have gone on. -/
def Init (s : Interrupt) : Prop :=
  s.pending = [] ∧ s.fired = [] ∧ s.scheduled = 0 ∧ s.status = .system ∧ s.place = .running

def system : System Interrupt Action := .ofStep Init step

/-! ## What a step does to the queue -/

variable {s t : Interrupt} {a : Action} {e : Entry PendingInterrupt} {b : Bool}
  {l : List (Entry PendingInterrupt)}

inductive Effect (s t : Interrupt) : Prop
  | keep : t.pending = s.pending → t.fired = s.fired → t.scheduled = s.scheduled →
      s.totalTicks ≤ t.totalTicks → Effect s t
  | schedule (i : PendingInterrupt) : i.serial = s.scheduled → s.totalTicks < i.when →
      t.pending = LinkedList.insertSorted ⟨i.when, i⟩ s.pending → t.fired = s.fired →
      t.scheduled = s.scheduled + 1 → s.totalTicks ≤ t.totalTicks → Effect s t
  | putBack (e : Entry PendingInterrupt) (l : List (Entry PendingInterrupt)) :
      s.pending = e :: l → s.totalTicks < e.key ∨ l = [] → t.pending = LinkedList.insertSorted e l →
        t.fired = s.fired →
      t.scheduled = s.scheduled → s.totalTicks ≤ t.totalTicks → Effect s t
  | fire (e : Entry PendingInterrupt) (l : List (Entry PendingInterrupt)) :
      s.pending = e :: l → t.pending = l → t.fired = s.fired ++ [(e.item, t.totalTicks)] →
      t.scheduled = s.scheduled → e.key ≤ t.totalTicks → s.totalTicks ≤ t.totalTicks → Effect s t

theorem Effect.totalTicks_le (h : Effect s t) : s.totalTicks ≤ t.totalTicks := by
  cases h <;> assumption

theorem Effect.congr {t' : Interrupt} (h : Effect s t) (hp : t'.pending = t.pending)
    (hf : t'.fired = t.fired) (hn : t'.scheduled = t.scheduled)
    (ht : t'.totalTicks = t.totalTicks) : Effect s t' := by
  cases h with
  | keep h₁ h₂ h₃ h₄ => exact .keep (hp.trans h₁) (hf.trans h₂) (hn.trans h₃) (ht ▸ h₄)
  | schedule i h₁ h₂ h₃ h₄ h₅ h₆ =>
    exact .schedule i h₁ h₂ (hp.trans h₃) (hf.trans h₄) (hn.trans h₅) (ht ▸ h₆)
  | putBack e l h₁ h₂ h₃ h₄ h₅ h₆ =>
    exact .putBack e l h₁ h₂ (hp.trans h₃) (hf.trans h₄) (hn.trans h₅) (ht ▸ h₆)
  | fire e l h₁ h₂ h₃ h₄ h₅ h₆ =>
    exact .fire e l h₁ (hp.trans h₂) (by rw [hf, ht, h₃]) (hn.trans h₄) (ht ▸ h₅) (ht ▸ h₆)

theorem effect_schedule {handler : ℕ} {arg fromNow : ℤ} {type : IntType}
    (h : s.schedule handler arg fromNow type = some t) : Effect s t := by
  obtain ⟨hpos, ht⟩ := Option.ite_none_right_eq_some.mp h
  obtain rfl := Option.some.inj ht
  exact .schedule ⟨handler, arg, s.totalTicks + fromNow, type, s.scheduled⟩ rfl
    (Int.lt_add_of_pos_right _ hpos) rfl rfl rfl le_rfl

theorem invoke_cases (h : invoke e s = (b, t)) :
    s.status = .idle ∧ s.pending = [] ∧ b = false ∧ t = s.putBack e ∨
      b = true ∧
        t = { s with status := .system, fired := s.fired ++ [(e.item, s.totalTicks)] } := by
  unfold invoke at h
  split at h
  next hidle =>
    cases h
    exact .inl ⟨hidle.1, hidle.2.2, rfl, rfl⟩
  next =>
    cases h
    exact .inr ⟨rfl, rfl⟩

/-- No interrupt is pending, or the first one is not due, or it is, perhaps as the clock has been
advanced, and is taken off the list before the second half. -/
theorem checkIfDue_cases {advanceClock : Bool} (h : s.checkIfDue advanceClock = some (b, t)) :
    s.pending = [] ∧ b = false ∧ t = s ∨
    ∃ e l, s.pending = e :: l ∧
      (s.totalTicks < e.key ∧ b = false ∧
          t = { s with pending := LinkedList.insertSorted e l } ∨
        ∃ u : Interrupt, u.pending = l ∧ u.fired = s.fired ∧ u.scheduled = s.scheduled ∧
          u.status = s.status ∧ s.totalTicks ≤ u.totalTicks ∧ e.key ≤ u.totalTicks ∧
          invoke e u = (b, t)) := by
  obtain ⟨-, h⟩ := Option.ite_none_right_eq_some.mp h
  split at h
  next hs =>
    cases h
    exact .inl ⟨hs, rfl, rfl⟩
  next e l hs =>
    refine .inr ⟨e, l, hs, ?_⟩
    dsimp only at h
    split at h
    next hadvance =>
      exact .inr ⟨({ s with pending := l } : Interrupt).advance e.key, rfl, rfl, rfl, rfl,
        hadvance.2.le, le_rfl, Option.some.inj h⟩
    next =>
      split at h
      next hlater =>
        cases h
        exact .inl ⟨hlater, rfl, rfl⟩
      next hdue =>
        exact .inr ⟨{ s with pending := l }, rfl, rfl, rfl, rfl, le_rfl, not_lt.mp hdue,
          Option.some.inj h⟩

theorem effect_checkIfDue {advanceClock : Bool} (h : s.checkIfDue advanceClock = some (b, t)) :
    Effect s t := by
  obtain ⟨-, -, rfl⟩ | ⟨e, l, hs, ⟨hlater, -, rfl⟩ | ⟨u, hp, hf, hn, -, hle, he, h⟩⟩ :=
    checkIfDue_cases h
  · exact .keep rfl rfl rfl le_rfl
  · exact .putBack e l hs (.inl hlater) rfl rfl rfl le_rfl
  · obtain ⟨-, hnil, -, rfl⟩ | ⟨-, rfl⟩ := invoke_cases h
    · exact .putBack e l hs (.inr (hp ▸ hnil)) (by rw [putBack, hp]) hf hn hle
    · exact .fire e l hs hp (by rw [hf]) hn he hle

theorem leave_cases (caller : Caller) (s : Interrupt) :
    ∃ level yieldOnReturn status, s.leave caller =
      { s with level, yieldOnReturn, status, place := .running } := by
  cases caller with
  | oneTick =>
    unfold leave
    dsimp only
    split
    · exact ⟨_, _, _, rfl⟩
    · exact ⟨_, _, _, rfl⟩
  | idle => exact ⟨_, _, _, rfl⟩

theorem effect_leave {caller : Caller} (h : Effect s t) : Effect s (t.leave caller) := by
  obtain ⟨level, yieldOnReturn, status, heq⟩ := leave_cases caller t
  rw [heq]
  exact h.congr rfl rfl rfl rfl

theorem effect_oneTick : Effect s s.oneTick := by
  unfold oneTick
  split
  · exact .keep rfl rfl rfl (Int.le_add_of_nonneg_right (by decide))
  · exact .keep rfl rfl rfl (Int.le_add_of_nonneg_right (by decide))

theorem effect_step (h : s.step a = some t) : Effect s t := by
  cases a with
  | schedule handler arg fromNow type =>
    simp only [step] at h
    split at h
    · exact effect_schedule h
    · exact effect_schedule h
    · cases h
  | yieldOnReturn =>
    simp only [step] at h
    split at h
    · cases h
      exact .keep rfl rfl rfl le_rfl
    · cases h
  | oneTick =>
    obtain ⟨-, ht⟩ := Option.ite_none_right_eq_some.mp h
    obtain rfl := Option.some.inj ht
    exact effect_oneTick
  | idle =>
    obtain ⟨-, ht⟩ := Option.ite_none_right_eq_some.mp h
    obtain rfl := Option.some.inj ht
    exact .keep rfl rfl rfl le_rfl
  | checkIfDue =>
    simp only [step] at h
    split at h
    · obtain ⟨⟨b, t'⟩, hcheck, rfl⟩ := Option.map_eq_some_iff.mp h
      exact (effect_checkIfDue hcheck).congr rfl rfl rfl rfl
    · obtain ⟨⟨b, t'⟩, hcheck, rfl⟩ := Option.map_eq_some_iff.mp h
      dsimp only
      split
      · exact (effect_checkIfDue hcheck).congr rfl rfl rfl rfl
      · exact effect_leave (effect_checkIfDue hcheck)
    · cases h
  | return_ =>
    simp only [step] at h
    split at h
    · cases h
      exact .keep rfl rfl rfl le_rfl
    · cases h
  | disable =>
    simp only [step] at h
    split at h
    · cases h
      exact .keep rfl rfl rfl le_rfl
    · cases h
      exact .keep rfl rfl rfl le_rfl
    · cases h
  | setStatus user =>
    obtain ⟨-, ht⟩ := Option.ite_none_right_eq_some.mp h
    obtain rfl := Option.some.inj ht
    exact .keep rfl rfl rfl le_rfl

/-! ## The order of the interrupts -/

/-- Pending interrupts are in the order of their times and not before those that have run, whose
handlers were called in order and not too early. Each interrupt is pending or has run, once. -/
structure Ordered (s : Interrupt) : Prop where
  sorted : s.pending.Pairwise (·.key ≤ ·.key)
  key_eq : ∀ e ∈ s.pending, e.key = e.item.when
  fired_le : ∀ f ∈ s.fired, f.1.when ≤ f.2 ∧ f.2 ≤ s.totalTicks
  fired_sorted : s.fired.Pairwise (·.1.when ≤ ·.1.when)
  fired_before : ∀ f ∈ s.fired, ∀ e ∈ s.pending, f.1.when ≤ e.key
  serials : (s.fired.map (·.1.serial) ++ s.pending.map (·.item.serial)).Perm
    (List.range s.scheduled)

theorem ordered_of_init (h : Init s) : s.Ordered := by
  obtain ⟨hp, hf, hn, -, -⟩ := h
  constructor <;> simp [hp, hf, hn]

theorem Ordered.fired_le_of_le (h : s.Ordered) (ht : s.totalTicks ≤ t.totalTicks) :
    ∀ f ∈ s.fired, f.1.when ≤ f.2 ∧ f.2 ≤ t.totalTicks :=
  fun f hmem => ⟨(h.fired_le f hmem).1, (h.fired_le f hmem).2.trans ht⟩

theorem Ordered.perm (h : s.Ordered) (hperm : t.pending.Perm s.pending)
    (hsorted : t.pending.Pairwise (·.key ≤ ·.key)) (hf : t.fired = s.fired)
    (hn : t.scheduled = s.scheduled) (ht : s.totalTicks ≤ t.totalTicks) : t.Ordered where
  sorted := hsorted
  key_eq e he := h.key_eq e (hperm.mem_iff.mp he)
  fired_le := hf ▸ h.fired_le_of_le ht
  fired_sorted := hf ▸ h.fired_sorted
  fired_before f hmem e he := h.fired_before f (hf ▸ hmem) e (hperm.mem_iff.mp he)
  serials := by
    rw [hf, hn]
    exact ((hperm.map _).append_left _).trans h.serials

theorem Ordered.schedule (h : s.Ordered) {i : PendingInterrupt} (hi : i.serial = s.scheduled)
    (hlt : s.totalTicks < i.when)
    (hp : t.pending = LinkedList.insertSorted ⟨i.when, i⟩ s.pending) (hf : t.fired = s.fired)
    (hn : t.scheduled = s.scheduled + 1) (ht : s.totalTicks ≤ t.totalTicks) : t.Ordered := by
  have hperm : t.pending.Perm (⟨i.when, i⟩ :: s.pending) := hp ▸ LinkedList.perm_insertSorted
  constructor
  case sorted => exact hp ▸ LinkedList.pairwise_insertSorted h.sorted
  case key_eq =>
    intro e he
    rcases List.mem_cons.mp (hperm.mem_iff.mp he) with rfl | he
    · rfl
    · exact h.key_eq e he
  case fired_le => exact hf ▸ h.fired_le_of_le ht
  case fired_sorted => exact hf ▸ h.fired_sorted
  case fired_before =>
    intro f hmem e he
    rw [hf] at hmem
    rcases List.mem_cons.mp (hperm.mem_iff.mp he) with rfl | he
    · -- what has run was due by now
      exact (h.fired_le f hmem).1.trans ((h.fired_le f hmem).2.trans hlt.le)
    · exact h.fired_before f hmem e he
  case serials =>
    rw [hf, hn, List.range_succ]
    calc (s.fired.map (·.1.serial) ++ t.pending.map (·.item.serial)).Perm
          (s.fired.map (·.1.serial) ++ i.serial :: s.pending.map (·.item.serial)) :=
        (hperm.map (·.item.serial)).append_left _
      _ |>.Perm (i.serial :: (s.fired.map (·.1.serial) ++ s.pending.map (·.item.serial))) :=
        List.perm_middle
      _ |>.Perm (i.serial :: List.range s.scheduled) := h.serials.cons _
      _ |>.Perm (List.range s.scheduled ++ [s.scheduled]) :=
        hi ▸ (List.perm_append_singleton _ _).symm

theorem Ordered.fire (h : s.Ordered) (hs : s.pending = e :: t.pending)
    (hf : t.fired = s.fired ++ [(e.item, t.totalTicks)]) (hn : t.scheduled = s.scheduled)
    (he : e.key ≤ t.totalTicks) (ht : s.totalTicks ≤ t.totalTicks) : t.Ordered := by
  have hmem : e ∈ s.pending := hs ▸ List.mem_cons_self
  have hsorted := h.sorted
  rw [hs, List.pairwise_cons] at hsorted
  have hbefore : ∀ f ∈ t.fired, f ∈ s.fired ∨ f = (e.item, t.totalTicks) := by
    intro f hf'
    rw [hf] at hf'
    simpa using hf'
  constructor
  case sorted => exact hsorted.2
  case key_eq => exact fun e' he' => h.key_eq e' (hs ▸ List.mem_cons_of_mem _ he')
  case fired_le =>
    intro f hf'
    rcases hbefore f hf' with hf' | rfl
    · exact h.fired_le_of_le ht f hf'
    · exact ⟨h.key_eq e hmem ▸ he, le_rfl⟩
  case fired_sorted =>
    rw [hf, List.pairwise_append]
    refine ⟨h.fired_sorted, List.pairwise_singleton _ _, fun f hf' g hg => ?_⟩
    rw [List.mem_singleton.mp hg, ← h.key_eq e hmem]
    exact h.fired_before f hf' e hmem
  case fired_before =>
    intro f hf' e' he'
    rcases hbefore f hf' with hf' | rfl
    · exact h.fired_before f hf' e' (hs ▸ List.mem_cons_of_mem _ he')
    · exact h.key_eq e hmem ▸ hsorted.1 e' he'
  case serials =>
    have hserials := h.serials
    rw [hs] at hserials
    rw [hf, hn, List.map_append, List.append_assoc]
    exact hserials

theorem Ordered.effect (h : s.Ordered) (heffect : Effect s t) : t.Ordered := by
  cases heffect with
  | keep hp hf hn ht => exact h.perm (.of_eq hp) (hp ▸ h.sorted) hf hn ht
  | schedule i hi hlt hp hf hn ht => exact h.schedule hi hlt hp hf hn ht
  | putBack e l hs _ hp hf hn ht =>
    have hsorted := h.sorted
    rw [hs, List.pairwise_cons] at hsorted
    refine h.perm ?_ (hp ▸ LinkedList.pairwise_insertSorted hsorted.2) hf hn ht
    rw [hp, hs]
    exact LinkedList.perm_insertSorted
  | fire e l hs hp hf hn he ht => exact h.fire (hp ▸ hs) hf hn he ht

theorem Effect.pending (h : Effect s t) (he : e ∈ s.pending) :
    e ∈ t.pending ∨ ∃ time, t.fired = s.fired ++ [(e.item, time)] := by
  cases h with
  | keep hp => exact .inl (hp ▸ he)
  | schedule i _ _ hp =>
    rw [hp, LinkedList.perm_insertSorted.mem_iff]
    exact .inl (List.mem_cons_of_mem _ he)
  | putBack e' l hs _ hp =>
    rw [hp, LinkedList.perm_insertSorted.mem_iff, ← hs]
    exact .inl he
  | fire e' l hs hp hf =>
    rw [hs] at he
    rcases List.mem_cons.mp he with rfl | he
    · exact .inr ⟨_, hf⟩
    · exact .inl (hp ▸ he)

theorem Effect.fired (h : Effect s t) : s.fired <+: t.fired := by
  cases h with
  | keep _ hf => exact hf ▸ List.prefix_rfl
  | schedule i _ _ _ hf => exact hf ▸ List.prefix_rfl
  | putBack e l _ _ _ hf => exact hf ▸ List.prefix_rfl
  | fire e l _ _ hf => exact hf ▸ List.prefix_append _ _

/-! ## The loop of `OneTick` -/

def Awake (s : Interrupt) : Prop :=
  match s.place with
  | .running | .loop .oneTick => s.status ≠ .idle
  | .handler .oneTick old => old ≠ .idle
  | _ => True

theorem awake_leave {caller : Caller} (h : caller = .oneTick → s.status ≠ .idle) :
    (s.leave caller).Awake := by
  have hsystem : MachineStatus.system ≠ .idle := by decide
  cases caller with
  | oneTick =>
    unfold leave
    dsimp only
    split
    · exact hsystem
    · exact h rfl
  | idle => exact hsystem

theorem status_checkIfDue {advanceClock : Bool} (h : s.checkIfDue advanceClock = some (false, t)) :
    t.status = s.status := by
  obtain ⟨-, -, rfl⟩ | ⟨e, l, -, ⟨-, -, rfl⟩ | ⟨u, -, -, -, hstatus, -, -, h⟩⟩ :=
    checkIfDue_cases h
  · rfl
  · rfl
  · obtain ⟨-, -, -, rfl⟩ | ⟨hfalse, -⟩ := invoke_cases h
    · exact hstatus
    · cases hfalse

/-- A call that calls no handler leaves no interrupt that is due, unless the machine is idle. -/
theorem not_due_of_checkIfDue {advanceClock : Bool} (hs : s.Ordered) (hstatus : s.status ≠ .idle)
    (h : s.checkIfDue advanceClock = some (false, t)) (he : e ∈ t.pending) :
    t.totalTicks < e.key := by
  obtain ⟨hnil, -, rfl⟩ | ⟨e', l, hcons, ⟨hlater, -, rfl⟩ | ⟨u, -, -, -, hu, -, -, h⟩⟩ :=
    checkIfDue_cases h
  · rw [hnil] at he
    cases he
  · -- the first one is not due, and the others are not before it
    have hsorted := hs.sorted
    rw [hcons, List.pairwise_cons] at hsorted
    rcases List.mem_cons.mp (LinkedList.perm_insertSorted.mem_iff.mp he) with rfl | he
    · exact hlater
    · exact hlater.trans_le (hsorted.1 e he)
  · obtain ⟨hidle, -⟩ | ⟨hfalse, -⟩ := invoke_cases h
    · exact absurd (hu ▸ hidle) hstatus
    · cases hfalse

theorem Awake.congr (hs : s.Awake) (hplace : t.place = s.place) (hstatus : t.status = s.status) :
    t.Awake := by
  unfold Awake at hs ⊢
  rw [hplace, hstatus]
  exact hs

theorem Awake.status_ne {caller : Caller} (hs : s.Awake) (hplace : s.place = .loop caller) :
    caller = .oneTick → s.status ≠ .idle := by
  rintro rfl
  rw [Awake, hplace] at hs
  exact hs

theorem Awake.checkIfDue (hs : s.Awake) (h : s.step .checkIfDue = some t) : t.Awake := by
  simp only [Interrupt.step] at h
  split at h
  next =>
    obtain ⟨⟨b, u⟩, -, rfl⟩ := Option.map_eq_some_iff.mp h
    cases b
    · trivial
    · trivial
  next caller hplace =>
    obtain ⟨⟨b, u⟩, hcheck, rfl⟩ := Option.map_eq_some_iff.mp h
    cases b with
    | false =>
      refine awake_leave fun hcaller => ?_
      rw [status_checkIfDue hcheck]
      exact hs.status_ne hplace hcaller
    | true =>
      cases caller with
      | oneTick => exact hs.status_ne hplace rfl
      | idle => trivial
  next => cases h

theorem Awake.step (hs : s.Awake) (h : s.step a = some t) : t.Awake := by
  cases a with
  | schedule handler arg fromNow type =>
    simp only [Interrupt.step] at h
    split at h
    iterate 2
      obtain ⟨-, ht⟩ := Option.ite_none_right_eq_some.mp h
      obtain rfl := Option.some.inj ht
      exact hs.congr rfl rfl
    cases h
  | yieldOnReturn =>
    simp only [Interrupt.step] at h
    split at h
    · cases h
      exact hs.congr rfl rfl
    · cases h
  | oneTick =>
    obtain ⟨hplace, ht⟩ := Option.ite_none_right_eq_some.mp h
    obtain rfl := Option.some.inj ht
    rw [Awake, hplace] at hs
    unfold Interrupt.oneTick
    split
    · exact hs
    · exact hs
  | idle =>
    obtain ⟨-, ht⟩ := Option.ite_none_right_eq_some.mp h
    obtain rfl := Option.some.inj ht
    trivial
  | checkIfDue => exact hs.checkIfDue h
  | return_ =>
    simp only [Interrupt.step] at h
    split at h
    next caller old hplace =>
      cases h
      cases caller with
      | oneTick =>
        rw [Awake, hplace] at hs
        exact hs
      | idle => trivial
    next => cases h
  | disable =>
    simp only [Interrupt.step] at h
    split at h
    · cases h
      exact hs.congr rfl rfl
    · cases h
      exact hs.congr rfl rfl
    · cases h
  | setStatus user =>
    obtain ⟨hplace, ht⟩ := Option.ite_none_right_eq_some.mp h
    obtain rfl := Option.some.inj ht
    cases user with
    | false => simp [Awake, hplace]
    | true => simp [Awake, hplace]

theorem step_of_loop {caller : Caller} (hplace : s.place = .loop caller) (h : s.step a = some t) :
    ∃ u, s.checkIfDue false = some (true, u) ∧
        t = { u with place := .handler caller s.status } ∨
      s.checkIfDue false = some (false, u) ∧ t = u.leave caller := by
  have ha : a = .checkIfDue := by
    cases a <;> simp_all [Interrupt.step]
  subst ha
  simp only [Interrupt.step, hplace] at h
  obtain ⟨⟨b, u⟩, hcheck, rfl⟩ := Option.map_eq_some_iff.mp h
  cases b with
  | false => exact ⟨u, .inr ⟨hcheck, rfl⟩⟩
  | true => exact ⟨u, .inl ⟨hcheck, rfl⟩⟩

theorem not_due_of_step (hs : s.Ordered) (hawake : s.Awake) (hplace : s.place = .loop .oneTick)
    (h : s.step a = some t) (ht : t.place = .running) (he : e ∈ t.pending) :
    t.totalTicks < e.key := by
  obtain ⟨u, ⟨-, rfl⟩ | ⟨hcheck, rfl⟩⟩ := step_of_loop hplace h
  · cases ht
  · obtain ⟨level, yieldOnReturn, status, heq⟩ := leave_cases .oneTick u
    rw [heq] at he ⊢
    have hlt := not_due_of_checkIfDue hs (hawake.status_ne hplace rfl) hcheck he
    exact hlt

/-! ## Runs -/

theorem ordered_and_awake_of_reachable (h : Reachable system s) : s.Ordered ∧ s.Awake := by
  refine Reachable.invariant (P := fun s => s.Ordered ∧ s.Awake) ?_ ?_ h
  · intro s hinit
    refine ⟨ordered_of_init hinit, ?_⟩
    obtain ⟨-, -, -, hstatus, hplace⟩ := hinit
    simp [Awake, hplace, hstatus]
  · rintro s a t ⟨hordered, hawake⟩ hstep
    exact ⟨hordered.effect (effect_step hstep), hawake.step hstep⟩

/-- In every run the pending list is in the order of the times. Handlers are called in this order
and not before their time. Each interrupt is pending or its handler has been called, once. A step
does not set the clock back and drops no interrupt, and where the loop of `OneTick` ends, none is
due. -/
theorem queue_of_reachable {s : Interrupt} (h : Reachable system s) :
    s.pending.Pairwise (·.key ≤ ·.key) ∧ (∀ e ∈ s.pending, e.key = e.item.when) ∧
    (∀ f ∈ s.fired, f.1.when ≤ f.2) ∧ s.fired.Pairwise (·.1.when ≤ ·.1.when) ∧
    (s.fired.map (·.1.serial) ++ s.pending.map (·.item.serial)).Perm (List.range s.scheduled) ∧
    ∀ a t, s.step a = some t →
      s.totalTicks ≤ t.totalTicks ∧ s.fired <+: t.fired ∧
      (∀ e ∈ s.pending, e ∈ t.pending ∨ ∃ time, t.fired = s.fired ++ [(e.item, time)]) ∧
      (s.place = .loop .oneTick → t.place = .running → ∀ e ∈ t.pending, t.totalTicks < e.key) := by
  obtain ⟨hordered, hawake⟩ := ordered_and_awake_of_reachable h
  refine ⟨hordered.sorted, hordered.key_eq, fun f hf => (hordered.fired_le f hf).1,
    hordered.fired_sorted, hordered.serials, fun a t hstep => ?_⟩
  have heffect := effect_step hstep
  exact ⟨heffect.totalTicks_le, heffect.fired, fun e he => heffect.pending he,
    fun hplace ht e he => not_due_of_step hordered hawake hplace hstep ht he⟩

/-! ## The handlers of a tick -/

def due (s : Interrupt) : List (PendingInterrupt × ℤ) :=
  (s.pending.filter (·.key ≤ s.totalTicks)).map fun e => (e.item, s.totalTicks)

def InTick (s : Interrupt) : Prop :=
  s.place = .loop .oneTick ∨ ∃ old, s.place = .handler .oneTick old

/-- While the clock stands still, interrupts that are due go to the record one after the other, and
no others become due. -/
theorem Effect.fired_append_due (h : Effect s t) (ht : t.totalTicks = s.totalTicks) :
    t.fired ++ t.due = s.fired ++ s.due := by
  cases h with
  | keep hp hf => rw [due, due, hp, hf, ht]
  | schedule i _ hlt hp hf =>
    rw [due, due, hp, hf, ht, LinkedList.filter_insertSorted (decide_eq_false (not_le.mpr hlt))]
  | putBack e l hs hlater hp hf =>
    rw [due, due, hp, hf, ht, hs]
    rcases hlater with hlater | rfl
    · have hnot : decide (e.key ≤ s.totalTicks) = false := decide_eq_false (not_le.mpr hlater)
      rw [LinkedList.filter_insertSorted hnot, List.filter_cons_of_neg (by simpa using hlater)]
    · rfl
  | fire e l hs hp hf _ he =>
    rw [due, due, hp, hf, hs, List.append_assoc, ht,
      List.filter_cons_of_pos (by simpa using ht ▸ he)]
    rfl

theorem totalTicks_checkIfDue (h : s.checkIfDue false = some (b, t)) :
    t.totalTicks = s.totalTicks := by
  obtain ⟨-, h⟩ := Option.ite_none_right_eq_some.mp h
  split at h
  next =>
    cases h
    rfl
  next e l _ =>
    simp only [Bool.false_eq_true, false_and, if_false] at h
    split at h
    · cases h
      rfl
    · obtain ⟨-, -, -, rfl⟩ | ⟨-, rfl⟩ := invoke_cases (Option.some.inj h)
      · rfl
      · rfl

theorem step_of_handler {old : MachineStatus} (hplace : s.place = .handler .oneTick old)
    (h : s.step a = some t) : t.totalTicks = s.totalTicks ∧ t.InTick := by
  cases a with
  | schedule handler arg fromNow type =>
    simp only [Interrupt.step, hplace] at h
    obtain ⟨-, ht⟩ := Option.ite_none_right_eq_some.mp h
    obtain rfl := Option.some.inj ht
    exact ⟨rfl, .inr ⟨old, hplace⟩⟩
  | yieldOnReturn | disable =>
    simp only [Interrupt.step, hplace] at h
    cases h
    exact ⟨rfl, .inr ⟨old, rfl⟩⟩
  | return_ =>
    simp only [Interrupt.step, hplace] at h
    cases h
    exact ⟨rfl, .inl rfl⟩
  | oneTick | idle | checkIfDue | setStatus user => simp [Interrupt.step, hplace] at h

theorem InTick.step (hin : s.InTick) (hs : s.Ordered) (hawake : s.Awake)
    (h : s.step a = some t) :
    t.totalTicks = s.totalTicks ∧ (t.InTick ∨ t.place = .running ∧ t.due = []) := by
  obtain hplace | ⟨old, hplace⟩ := hin
  · obtain ⟨u, ⟨hcheck, rfl⟩ | ⟨hcheck, rfl⟩⟩ := step_of_loop hplace h
    · have hticks := totalTicks_checkIfDue hcheck
      exact ⟨hticks, .inl (.inr ⟨s.status, rfl⟩)⟩
    · have hticks := totalTicks_checkIfDue hcheck
      obtain ⟨level, yieldOnReturn, status, heq⟩ := leave_cases .oneTick u
      have hrunning : (u.leave .oneTick).place = .running := by rw [heq]
      refine ⟨by rw [heq, hticks], .inr ⟨hrunning, ?_⟩⟩
      rw [due, List.map_eq_nil_iff, List.filter_eq_nil_iff]
      intro e he
      simpa using not_due_of_step hs hawake hplace h hrunning he
  · obtain ⟨ht, hin⟩ := step_of_handler hplace h
    exact ⟨ht, .inl hin⟩

/-- A tick calls the handlers of the interrupts that are due at its start, in their order and at its
time, whatever these handlers schedule, and then there is no interrupt that is due. -/
theorem fired_of_tick {u : Interrupt} {as : List Action} (hs : Reachable system s)
    (hu : s.step .oneTick = some u) (h : Run (system.guard fun s _ => s.InTick) u as t)
    (ht : t.place = .running) :
    t.fired = u.fired ++ u.due ∧ t.due = [] ∧ t.totalTicks = u.totalTicks := by
  have hinv := h.preserves (P := fun x => x.Ordered ∧ x.Awake ∧ x.totalTicks = u.totalTicks ∧
    x.fired ++ x.due = u.fired ++ u.due ∧ (x.InTick ∨ x.place = .running ∧ x.due = [])) ?_ ?_
  · obtain ⟨-, -, hticks, hfired, hin | ⟨-, hdue⟩⟩ := hinv
    · simp [InTick, ht] at hin
    · rw [hdue, List.append_nil] at hfired
      exact ⟨hfired, hdue, hticks⟩
  · rintro x a y ⟨hordered, hawake, hticks, hfired, -⟩ ⟨hin, hstep⟩
    have heffect := effect_step hstep
    obtain ⟨hstill, hy⟩ := hin.step hordered hawake hstep
    exact ⟨hordered.effect heffect, hawake.step hstep, hstill.trans hticks,
      (heffect.fired_append_due hstill).trans hfired, hy⟩
  · obtain ⟨hordered, hawake⟩ := ordered_and_awake_of_reachable (hs.step hu)
    refine ⟨hordered, hawake, rfl, rfl, .inl (.inl ?_)⟩
    obtain ⟨-, hu⟩ := Option.ite_none_right_eq_some.mp hu
    obtain rfl := Option.some.inj hu
    unfold oneTick
    split
    · rfl
    · rfl

/-- Two interrupts at the same time, and one that the handler of the first of them schedules. -/
def sameTime : List Action :=
  [.schedule 0 0 10 .disk, .schedule 1 0 10 .timer, .oneTick, .checkIfDue,
    .schedule 2 0 1 .consoleRead, .return_, .checkIfDue, .return_, .checkIfDue]

theorem queue_of_reachable_sameTime : ∃ s : Interrupt, Run system new sameTime s ∧
    s.fired.length = 2 ∧ s.fired.Pairwise (·.1.when ≤ ·.1.when) ∧
    (s.fired.map (·.1.serial) ++ s.pending.map (·.item.serial)).Perm (List.range s.scheduled) := by
  have hexec : (exec step new sameTime).any (fun s => s.fired.length == 2) = true := by
    decide +kernel
  obtain ⟨s, hrun, hs⟩ := run_of_any_exec (I := Init) hexec
  have hreach : Reachable system s := ⟨new, sameTime, ⟨rfl, rfl, rfl, rfl, rfl⟩, hrun⟩
  obtain ⟨-, -, -, hsorted, hserials, -⟩ := queue_of_reachable hreach
  exact ⟨s, hrun, by simpa using hs, hsorted, hserials⟩

end Interrupt

end Nachos.Machine
