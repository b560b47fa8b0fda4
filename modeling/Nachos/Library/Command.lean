import Mathlib.Tactic.Common

/-! # Commands and the part of the state they leave

A command changes a state and may have no result. A view is a function on
states. A command keeps a view if it leaves its value, and settles a view if it
leaves a given value whatever the value was before.
-/

namespace Nachos.Command

variable {σ α β ν : Type} {v : σ → ν} {x : ν} {s t : σ} {a : α} {b : β}
  {c : StateT σ Option α} {f : α → StateT σ Option β}

def stop : StateT σ Option α := fun _ => none

def require (o : Option α) : StateT σ Option α := fun s => o.map (·, s)

@[simp] theorem run_stop : (stop : StateT σ Option α).run s = none := rfl

@[simp] theorem run_require {o : Option α} : (require o).run s = o.map (·, s) := rfl

theorem run_bind_eq_some : (c >>= f).run s = some (b, t) ↔
    ∃ a s', c.run s = some (a, s') ∧ (f a).run s' = some (b, t) := by
  rw [StateT.run_bind]
  constructor
  · intro h
    obtain ⟨⟨a, s'⟩, hc, hf⟩ := Option.bind_eq_some_iff.mp h
    exact ⟨a, s', hc, hf⟩
  · rintro ⟨a, s', hc, hf⟩
    exact Option.bind_eq_some_iff.mpr ⟨(a, s'), hc, hf⟩

/-! ## The first command of a sequence -/

theorem run_bind_of_run (h : c.run s = some (a, t)) : (c >>= f).run s = (f a).run t := by
  rw [StateT.run_bind, h]
  rfl

theorem run_get_bind {f : σ → StateT σ Option β} : (get >>= f).run s = (f s).run s :=
  run_bind_of_run rfl

theorem run_modify_bind {g : σ → σ} {f : PUnit → StateT σ Option β} :
    (modify g >>= f).run s = (f ⟨⟩).run (g s) :=
  run_bind_of_run rfl

theorem run_require_bind {o : Option α} :
    (require o >>= f).run s = o.bind fun a => (f a).run s := by
  cases o <;> rfl

/-! ## Views -/

def Keeps (v : σ → ν) (c : StateT σ Option α) : Prop :=
  ∀ s a s', c.run s = some (a, s') → v s' = v s

def Settles (v : σ → ν) (x : ν) (c : StateT σ Option α) : Prop :=
  ∀ s a s', c.run s = some (a, s') → v s' = x

namespace Keeps

theorem pure : Keeps v (Pure.pure a : StateT σ Option α) := by
  intro s b s' h
  simp only [StateT.run_pure, Option.pure_def, Option.some.injEq, Prod.mk.injEq] at h
  rw [h.2]

theorem require {o : Option α} : Keeps v (Command.require o) := by
  intro s a s' h
  obtain ⟨b, -, he⟩ := Option.map_eq_some_iff.mp h
  rw [(Prod.mk.inj he).2]

theorem get : Keeps v (get : StateT σ Option σ) := by
  intro s a s' h
  simp only [StateT.run_get, Option.pure_def, Option.some.injEq, Prod.mk.injEq] at h
  rw [h.2]

theorem modify {g : σ → σ} (hg : ∀ s, v (g s) = v s) :
    Keeps v (modify g : StateT σ Option PUnit) := by
  intro s a s' h
  simp only [StateT.run_modify, Option.pure_def, Option.some.injEq, Prod.mk.injEq] at h
  rw [← h.2, hg]

theorem bind (hc : Keeps v c) (hf : ∀ a, Keeps v (f a)) : Keeps v (c >>= f) := by
  intro s b t h
  obtain ⟨a, s', hs, ht⟩ := run_bind_eq_some.mp h
  exact (hf a s' b t ht).trans (hc s a s' hs)

theorem ite {p : Prop} [Decidable p] {c' : StateT σ Option α} (hc : Keeps v c)
    (hc' : Keeps v c') : Keeps v (if p then c else c') := by
  split
  · exact hc
  · exact hc'

end Keeps

namespace Settles

theorem of_run (hr : c.run s = some (a, t)) (h : Settles v x c) : v t = x := h s a t hr

theorem bind (hf : ∀ a, Settles v x (f a)) : Settles v x (c >>= f) := by
  intro s b t h
  obtain ⟨a, s', -, ht⟩ := run_bind_eq_some.mp h
  exact hf a s' b t ht

theorem bind_keeps (hc : Settles v x c) (hf : ∀ a, Keeps v (f a)) : Settles v x (c >>= f) := by
  intro s b t h
  obtain ⟨a, s', hs, ht⟩ := run_bind_eq_some.mp h
  exact (hf a s' b t ht).trans (hc s a s' hs)

end Settles

end Nachos.Command
