import Nachos.Machine.Interrupt

/-! # Devices

A device schedules interrupts of its own type and runs when they are called. The
other steps of the machine, and those of the other devices, leave its pending
interrupts alone.
-/

namespace Nachos.Machine.Interrupt

open Threads

def Action.schedules (type : IntType) : Action → Bool
  | .schedule _ _ _ type' => type' = type
  | _ => false

def called (s t : Interrupt) : Option PendingInterrupt :=
  (t.fired[s.fired.length]?).map Prod.fst

/-- The places in which a device may be used. -/
def InKernel (s : Interrupt) : Prop :=
  s.place = .running ∨ ∃ caller old, s.place = .handler caller old

def pendingOf (type : IntType) (s : Interrupt) : List (Entry PendingInterrupt) :=
  s.pending.filter fun e => e.item.type = type

variable {s t : Interrupt} {a : Action} {type : IntType}

def Keeps (type : IntType) (s t : Interrupt) : Prop :=
  s.called t = none ∧ (t.pendingOf type).Perm (s.pendingOf type)

def Calls (s t : Interrupt) : Prop :=
  ∃ e, s.called t = some e.item ∧ s.pending = e :: t.pending ∧ e.key ≤ t.totalTicks

theorem pendingOf_of_cons {e : Entry PendingInterrupt} (h : s.pending = e :: t.pending) :
    s.pendingOf type =
      if e.item.type = type then e :: t.pendingOf type else t.pendingOf type := by
  unfold pendingOf
  rw [h, List.filter_cons]
  simp only [decide_eq_true_eq]

theorem exists_schedule {handler : ℕ} {arg fromNow : ℤ} (type : IntType) (hplace : s.InKernel)
    (hpos : 0 < fromNow) :
    ∃ t e, s.step (.schedule handler arg fromNow type) = some t ∧
      t.totalTicks = s.totalTicks ∧ e.key = s.totalTicks + fromNow ∧
      (t.pendingOf type).Perm (e :: s.pendingOf type) := by
  have hstep : s.step (.schedule handler arg fromNow type) =
      s.schedule handler arg fromNow type := by
    rcases hplace with hplace | ⟨caller, old, hplace⟩
    · simp only [step, hplace]
    · simp only [step, hplace]
  let when := s.totalTicks + fromNow
  refine ⟨_, ⟨when, ⟨handler, arg, when, type, s.scheduled⟩⟩, hstep.trans (if_pos hpos), rfl, rfl,
    ?_⟩
  refine (LinkedList.perm_insertSorted.filter _).trans (.of_eq ?_)
  exact List.filter_cons_of_pos (decide_eq_true rfl)

theorem called_of_fired (h : t.fired = s.fired) : s.called t = none := by
  simp [called, h]

theorem Keeps.of_perm (hf : t.fired = s.fired) (hp : t.pending.Perm s.pending) : s.Keeps type t :=
  ⟨called_of_fired hf, hp.filter _⟩

theorem keeps_or_calls_checkIfDue {advanceClock b : Bool}
    (h : s.checkIfDue advanceClock = some (b, t)) : s.Keeps type t ∨ s.Calls t := by
  obtain ⟨-, -, rfl⟩ | ⟨e, l, hs, ⟨-, -, rfl⟩ | ⟨u, hp, hf, -, -, -, he, h⟩⟩ := checkIfDue_cases h
  · exact .inl (.of_perm rfl (.refl _))
  · exact .inl (.of_perm rfl (hs ▸ LinkedList.perm_insertSorted))
  · obtain ⟨-, hnil, -, rfl⟩ | ⟨-, rfl⟩ := invoke_cases h
    · refine .inl (.of_perm hf ?_)
      rw [hs, ← hp]
      exact LinkedList.perm_insertSorted
    · exact .inr ⟨e, by simp [called, hf], by rw [hs, hp], he⟩

/-- The interrupts of a device stay when it does not schedule one, except for the one that is
called. -/
theorem keeps_or_calls (h : s.step a = some t) (ha : a.schedules type = false) :
    s.Keeps type t ∨ s.Calls t := by
  cases a with
  | schedule handler arg fromNow type' =>
    have hne : type' ≠ type := by simpa [Action.schedules] using ha
    have hinsert : s.schedule handler arg fromNow type' = some t → s.Keeps type t := by
      intro h
      obtain ⟨-, ht⟩ := Option.ite_none_right_eq_some.mp h
      obtain rfl := Option.some.inj ht
      refine ⟨called_of_fired rfl, ?_⟩
      refine .of_eq (LinkedList.filter_insertSorted ?_)
      exact decide_eq_false hne
    simp only [step] at h
    split at h
    · exact .inl (hinsert h)
    · exact .inl (hinsert h)
    · cases h
  | checkIfDue =>
    simp only [step] at h
    split at h
    · obtain ⟨⟨b, u⟩, hcheck, rfl⟩ := Option.map_eq_some_iff.mp h
      have hu : s.Keeps type u ∨ s.Calls u := keeps_or_calls_checkIfDue hcheck
      exact hu
    · obtain ⟨⟨b, u⟩, hcheck, rfl⟩ := Option.map_eq_some_iff.mp h
      have hu : s.Keeps type u ∨ s.Calls u := keeps_or_calls_checkIfDue hcheck
      dsimp only
      split
      · exact hu
      · rename_i caller _ _
        obtain ⟨level, yieldOnReturn, status, heq⟩ := leave_cases caller u
        rw [heq]
        exact hu
    · cases h
  | oneTick =>
    obtain ⟨-, ht⟩ := Option.ite_none_right_eq_some.mp h
    obtain rfl := Option.some.inj ht
    unfold oneTick
    split
    · exact .inl (.of_perm rfl (.refl _))
    · exact .inl (.of_perm rfl (.refl _))
  | yieldOnReturn | return_ | disable =>
    simp only [step] at h
    split at h <;> cases h
    all_goals exact .inl (.of_perm rfl (.refl _))
  | idle | setStatus user =>
    obtain ⟨-, ht⟩ := Option.ite_none_right_eq_some.mp h
    obtain rfl := Option.some.inj ht
    exact .inl (.of_perm rfl (.refl _))

end Nachos.Machine.Interrupt
