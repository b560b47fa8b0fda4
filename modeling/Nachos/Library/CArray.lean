import Mathlib.Algebra.Order.Ring.Int

/-! # Arrays with checked accesses

An access to an array has a result only if its index, which may be any
integer, is one of the array.
-/

namespace Nachos.CArray

variable {α : Type*} {q q₁ q₂ : List α} {i : ℤ} {x y : α}

def load (q : List α) (i : ℤ) : Option α :=
  if 0 ≤ i then q[i.toNat]? else none

/-- The array with another value at an index. -/
def store (i : ℤ) (x : α) (q : List α) : Option (List α) :=
  if 0 ≤ i ∧ i < q.length then some (q.set i.toNat x) else none

theorem isSome_load : (load q i).isSome ↔ 0 ≤ i ∧ i < q.length := by
  unfold load
  split
  · rw [Option.isSome_iff_ne_none, Ne, List.getElem?_eq_none_iff]
    omega
  · simp only [Option.isSome_none, Bool.false_eq_true, false_iff]
    omega

theorem load_append_cons (h : i = q₁.length) : load (q₁ ++ x :: q₂) i = some x := by
  simp [load, h]

theorem store_append_cons (h : i = q₁.length) :
    store i y (q₁ ++ x :: q₂) = some (q₁ ++ y :: q₂) := by
  subst h
  have hi : (0 : ℤ) ≤ q₁.length ∧ (q₁.length : ℤ) < (q₁ ++ x :: q₂).length := by
    rw [List.length_append, List.length_cons]
    omega
  rw [store, if_pos hi]
  simp

theorem store_eq_none (h : i = q.length) : store i x q = none := by
  rw [store, if_neg (by omega)]

theorem exists_store (h0 : 0 ≤ i) (hlt : i < q.length) :
    ∃ q', store i x q = some q' ∧ q'.length = q.length := by
  refine ⟨_, if_pos ⟨h0, hlt⟩, ?_⟩
  rw [List.length_set]

end Nachos.CArray
