import Nachos.Library.Outcome

/-! # Objects and what they stand for

An object has operations that answer and may fail. A specification is an object
whose operations do not fail. An object meets a specification under a relation
of the states if each of its operations, in related states, succeeds with the
answer of the specification and leads to related states; then the answers to
every sequence of operations are those of the specification.
-/

namespace Nachos.Object

open Outcome

variable {σ τ α ε β : Type}

/-- Perform operations in order and collect the answers. -/
def run (op : α → σ → Except ε (β × σ)) : List α → σ → Except ε (List β × σ)
  | [], s => .ok ([], s)
  | a :: as, s => do
    let (b, s) ← op a s
    let (bs, s) ← run op as s
    return (b :: bs, s)

/-- The operations of a specification in order, with their answers. -/
def runSpec (spec : α → τ → β × τ) : List α → τ → List β × τ
  | [], t => ([], t)
  | a :: as, t =>
    let (b, t) := spec a t
    let (bs, t) := runSpec spec as t
    (b :: bs, t)

def Refines (op : α → σ → Except ε (β × σ)) (spec : α → τ → β × τ) (A : α → Prop)
    (R : σ → τ → Prop) : Prop :=
  ∀ s t a, R s t → A a → ∃ s', op a s = .ok ((spec a t).1, s') ∧ R s' (spec a t).2

variable {op : α → σ → Except ε (β × σ)} {spec : α → τ → β × τ} {A : α → Prop}
  {R : σ → τ → Prop}

/-- The answers to a sequence of operations, and the states after it. -/
theorem Refines.run (h : Refines op spec A R) {as : List α} (hA : ∀ a ∈ as, A a) {s : σ} {t : τ}
    (hR : R s t) :
    ∃ s', run op as s = .ok ((runSpec spec as t).1, s') ∧ R s' (runSpec spec as t).2 := by
  induction as generalizing s t with
  | nil => exact ⟨s, rfl, hR⟩
  | cons a as ih =>
    obtain ⟨s₁, hop, hR₁⟩ := h s t a hR (hA a (List.mem_cons_self ..))
    obtain ⟨s', hrun, hR'⟩ := ih (fun b hb => hA b (List.mem_cons_of_mem _ hb)) hR₁
    refine ⟨s', ?_, hR'⟩
    rw [Object.run, hop, ok_bind]
    dsimp only
    rw [hrun]
    rfl

end Nachos.Object
