import Mathlib.Data.Fintype.Card
import Mathlib.Logic.Function.Basic

/-! # Chains of cells

A heap maps addresses to cells with a pointer to a next cell. A chain leads
from one pointer to another through the cells of some addresses. Chains can be
cut and joined, and do not depend on other cells.
-/

namespace Nachos

open Function

/-- A cell of a heap with addresses in `A`. -/
structure Cell (A β : Type*) where
  value : β
  next : Option A

variable {A β : Type*}

inductive Chain (heap : A → Option (Cell A β)) :
    Option A → List A → List β → Option A → Prop
  | nil (p : Option A) : Chain heap p [] [] p
  | cons {a : A} {n q : Option A} {as : List A} {v : β} {l : List β} :
      heap a = some ⟨v, n⟩ → Chain heap n as l q → Chain heap (some a) (a :: as) (v :: l) q

variable {heap heap' : A → Option (Cell A β)} {p q r : Option A} {a b : A} {as bs : List A}
  {v w : β} {l m : List β}

namespace Chain

theorem length_eq (h : Chain heap p as l q) : as.length = l.length := by
  induction h with
  | nil p => rfl
  | cons _ _ ih => rw [List.length_cons, List.length_cons, ih]

theorem eq_nil_iff (h : Chain heap p as l q) : as = [] ↔ l = [] := by
  rw [← List.length_eq_zero_iff, h.length_eq, List.length_eq_zero_iff]

theorem congr (h : Chain heap p as l q) (hheap : ∀ a ∈ as, heap' a = heap a) :
    Chain heap' p as l q := by
  induction h with
  | nil p => exact .nil p
  | cons ha _ ih =>
    refine .cons ?_ (ih fun b hb => hheap b (List.mem_cons_of_mem _ hb))
    rw [hheap _ (List.mem_cons_self ..), ha]

theorem append (h : Chain heap p as l r) (h' : Chain heap r bs m q) :
    Chain heap p (as ++ bs) (l ++ m) q := by
  induction h with
  | nil p => exact h'
  | cons ha _ ih => exact .cons ha (ih h')

theorem split (h : Chain heap p as (l ++ m) q) :
    ∃ as₁ as₂ r, as = as₁ ++ as₂ ∧ Chain heap p as₁ l r ∧ Chain heap r as₂ m q := by
  induction l generalizing p as with
  | nil => exact ⟨[], as, p, rfl, .nil p, h⟩
  | cons v l ih =>
    cases h with
    | cons ha h =>
      obtain ⟨as₁, as₂, r, rfl, h₁, h₂⟩ := ih h
      exact ⟨_, as₂, r, rfl, .cons ha h₁, h₂⟩

theorem notMem (h : Chain heap p as l q) (ha : heap a = none) : a ∉ as := by
  induction h with
  | nil p => exact List.not_mem_nil
  | cons hb _ ih =>
    rw [List.mem_cons, not_or]
    refine ⟨?_, ih⟩
    rintro rfl
    rw [ha] at hb
    cases hb

theorem uncons (h : Chain heap p as (v :: l) q) :
    ∃ a n as', p = some a ∧ as = a :: as' ∧ heap a = some ⟨v, n⟩ ∧ Chain heap n as' l q := by
  cases h with
  | cons ha h => exact ⟨_, _, _, rfl, rfl, ha, h⟩

theorem head (h : Chain heap p as l none) : p = as.head? := by
  cases h with
  | nil => rfl
  | cons => rfl

theorem last (h : Chain heap p as (l ++ [v]) q) :
    ∃ as' b, as = as' ++ [b] ∧ Chain heap p as' l (some b) ∧ heap b = some ⟨v, q⟩ := by
  obtain ⟨as', bs, r, rfl, hfront, hlast⟩ := h.split
  cases hlast with
  | cons hb hnil =>
    cases hnil
    exact ⟨as', _, rfl, hfront, hb⟩

variable [DecidableEq A]

theorem update (h : Chain heap p as l q) {c : Option (Cell A β)} (ha : a ∉ as) :
    Chain (update heap a c) p as l q :=
  h.congr fun _ hb => update_of_ne (ne_of_mem_of_not_mem hb ha) ..

theorem insert (h : Chain heap p as l (some b)) (h' : Chain heap r bs m q)
    (hnd : (as ++ b :: bs).Nodup) (ha : a ∉ as ++ b :: bs) :
    Chain (Function.update (Function.update heap a (some ⟨v, r⟩)) b (some ⟨w, some a⟩)) p
      (as ++ b :: a :: bs) (l ++ w :: v :: m) q := by
  obtain ⟨-, hbnd, hdisj⟩ := List.nodup_append.mp hnd
  obtain ⟨hbbs, -⟩ := List.nodup_cons.mp hbnd
  rw [List.mem_append, List.mem_cons, not_or, not_or] at ha
  obtain ⟨haas, hab, habs⟩ := ha
  have hbas : b ∉ as := fun hb => hdisj b hb b (List.mem_cons_self ..) rfl
  have hrest := (h'.update (c := some ⟨v, r⟩) habs).update (c := some ⟨w, some a⟩) hbbs
  refine ((h.update haas).update hbas).append (.cons (update_self ..) (.cons ?_ hrest))
  rw [update_of_ne hab, update_self]

end Chain

end Nachos
