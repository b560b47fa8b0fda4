import Mathlib.Data.List.Basic

/-! # Runs of transition systems

A system has initial states and labelled steps. Invariants are carried along
runs, a guard on the steps gives the runs whose steps all meet a condition, and
a forward simulation maps the runs of one system to runs of another with the
same labels.
-/

namespace Nachos.Transition

variable {σ τ α : Type*}

structure System (σ α : Type*) where
  Init : σ → Prop
  Step : σ → α → σ → Prop

/-- The steps taken from one state to another, with their labels. -/
inductive Run (S : System σ α) : σ → List α → σ → Prop where
  | nil (s : σ) : Run S s [] s
  | cons {s t u : σ} {a : α} {as : List α} :
      S.Step s a t → Run S t as u → Run S s (a :: as) u

/-- States that some run from an initial state ends in. -/
def Reachable (S : System σ α) (s : σ) : Prop := ∃ s₀ as, S.Init s₀ ∧ Run S s₀ as s

/-- The system restricted to the steps that meet a condition on the state before them. -/
def System.guard (S : System σ α) (C : σ → α → Prop) : System σ α where
  Init := S.Init
  Step s a t := C s a ∧ S.Step s a t

def System.ofStep (Init : σ → Prop) (step : σ → α → Option σ) : System σ α where
  Init := Init
  Step s a t := step s a = some t

/-- The system with a record of what its steps report. -/
def System.record {β : Type*} (S : System σ α) (report : σ → α → List β) :
    System (σ × List β) α where
  Init s := S.Init s.1 ∧ s.2 = []
  Step s a t := S.Step s.1 a t.1 ∧ t.2 = s.2 ++ report s.1 a

/-- Execute the steps of a list in order. -/
def exec (step : σ → α → Option σ) : σ → List α → Option σ
  | s, [] => some s
  | s, a :: as => (step s a).bind (exec step · as)

variable {S : System σ α} {T : System τ α}

theorem Run.single {s t : σ} {a : α} (h : S.Step s a t) : Run S s [a] t :=
  .cons h (.nil t)

theorem Run.append {s t u : σ} {as bs : List α} (h : Run S s as t) (h' : Run S t bs u) :
    Run S s (as ++ bs) u := by
  induction h with
  | nil => exact h'
  | cons hs _ ih => exact .cons hs (ih h')

/-- What every step preserves, every run preserves. -/
theorem Run.preserves {P : σ → Prop} (hP : ∀ s a t, P s → S.Step s a t → P t)
    {s t : σ} {as : List α} (h : Run S s as t) (hs : P s) : P t := by
  induction h with
  | nil => exact hs
  | cons hst _ ih => exact ih (hP _ _ _ hs hst)

theorem run_ofStep_iff {Init : σ → Prop} {step : σ → α → Option σ} {s t : σ} {as : List α} :
    Run (.ofStep Init step) s as t ↔ exec step s as = some t := by
  constructor
  · intro h
    induction h with
    | nil => rfl
    | cons hs _ ih => simpa [exec, show step _ _ = some _ from hs] using ih
  · intro h
    induction as generalizing s with
    | nil => exact Option.some.inj h ▸ .nil s
    | cons a as ih =>
      obtain ⟨u, hu, ht⟩ := Option.bind_eq_some_iff.mp h
      exact .cons hu (ih ht)

theorem run_of_any_exec {I : σ → Prop} {f : σ → α → Option σ} {p : σ → Bool} {s : σ}
    {as : List α} (h : (exec f s as).any p = true) :
    ∃ t, Run (.ofStep I f) s as t ∧ p t = true := by
  obtain ⟨t, ht, hp⟩ := (Option.any_eq_true _ _).mp h
  exact ⟨t, run_ofStep_iff.mpr ht, hp⟩

def guarded (C : σ → α → Prop) [∀ s a, Decidable (C s a)] (f : σ → α → Option σ) (s : σ)
    (a : α) : Option σ :=
  if C s a then f s a else none

theorem guard_ofStep {I : σ → Prop} {f : σ → α → Option σ} (C : σ → α → Prop)
    [∀ s a, Decidable (C s a)] :
    (System.ofStep I f).guard C = .ofStep I (guarded C f) := by
  simp [System.guard, System.ofStep, guarded]

def recorded {β : Type*} (report : σ → α → List β) (f : σ → α → Option σ) (s : σ × List β)
    (a : α) : Option (σ × List β) :=
  (f s.1 a).map (·, s.2 ++ report s.1 a)

theorem record_ofStep {β : Type*} {I : σ → Prop} {f : σ → α → Option σ}
    (report : σ → α → List β) :
    (System.ofStep I f).record report =
      .ofStep (fun s => I s.1 ∧ s.2 = []) (recorded report f) := by
  simp only [System.record, System.ofStep, recorded, Option.map_eq_some_iff, System.mk.injEq,
    true_and]
  funext s a t
  exact propext ⟨fun ⟨h, ht⟩ => ⟨t.1, h, ht ▸ rfl⟩, fun ⟨u, h, hu⟩ => hu ▸ ⟨h, rfl⟩⟩

theorem Run.of_guard {C : σ → α → Prop} {s t : σ} {as : List α}
    (h : Run (S.guard C) s as t) : Run S s as t := by
  induction h with
  | nil => exact .nil _
  | cons hs _ ih => exact .cons hs.2 ih

theorem Reachable.init {s : σ} (h : S.Init s) : Reachable S s := ⟨s, [], h, .nil s⟩

theorem Reachable.step {s t : σ} {a : α} (h : Reachable S s) (hs : S.Step s a t) :
    Reachable S t := by
  obtain ⟨s₀, as, hi, hr⟩ := h
  exact ⟨s₀, as ++ [a], hi, hr.append (.single hs)⟩

theorem Reachable.run {s t : σ} {as : List α} (h : Reachable S s) (hr : Run S s as t) :
    Reachable S t := by
  obtain ⟨s₀, bs, hi, hb⟩ := h
  exact ⟨s₀, bs ++ as, hi, hb.append hr⟩

/-- An invariant holds initially and is preserved by every step, so it holds in every
reachable state. -/
theorem Reachable.invariant {P : σ → Prop} (h₀ : ∀ s, S.Init s → P s)
    (hP : ∀ s a t, P s → S.Step s a t → P t) {s : σ} (h : Reachable S s) : P s := by
  obtain ⟨s₀, as, hi, hr⟩ := h
  exact hr.preserves hP (h₀ s₀ hi)

theorem Reachable.of_guard {C : σ → α → Prop} {s : σ} (h : Reachable (S.guard C) s) :
    Reachable S s := by
  obtain ⟨s₀, as, hi, hr⟩ := h
  exact ⟨s₀, as, hi, hr.of_guard⟩

theorem Reachable.of_record {β : Type*} {report : σ → α → List β} {s : σ × List β}
    (h : Reachable (S.record report) s) : Reachable S s.1 := by
  refine Reachable.invariant (S := S.record report) (P := fun s => Reachable S s.1) ?_ ?_ h
  · intro s hi
    exact .init hi.1
  · intro s a t hr hs
    exact hr.step hs.1

theorem Reachable.exists_record {β : Type*} (report : σ → α → List β) {s : σ} (h : Reachable S s) :
    ∃ log, Reachable (S.record report) (s, log) := by
  refine Reachable.invariant (P := fun s => ∃ log, Reachable (S.record report) (s, log)) ?_ ?_ h
  · intro s hi
    exact ⟨[], .init ⟨hi, rfl⟩⟩
  · rintro s a t ⟨log, hr⟩ hs
    exact ⟨_, hr.step (a := a) ⟨hs, rfl⟩⟩

/-- A relation under which every step of `S` is matched by a step of `T` with the same label. -/
structure Simulates (S : System σ α) (T : System τ α) (R : σ → τ → Prop) : Prop where
  init : ∀ s, S.Init s → ∃ t, T.Init t ∧ R s t
  step : ∀ s t a s', R s t → S.Step s a s' → ∃ t', T.Step t a t' ∧ R s' t'

/-- A simulation maps each run to a run with the same labels. -/
theorem Simulates.run {R : σ → τ → Prop} (hR : Simulates S T R) {s s' : σ} {t : τ}
    {as : List α} (h : Run S s as s') (ht : R s t) : ∃ t', Run T t as t' ∧ R s' t' := by
  induction h generalizing t with
  | nil => exact ⟨t, .nil t, ht⟩
  | cons hs _ ih =>
    obtain ⟨u, hu, hru⟩ := hR.step _ _ _ _ ht hs
    obtain ⟨t', hr, hrt⟩ := ih hru
    exact ⟨t', .cons hu hr, hrt⟩

end Nachos.Transition
