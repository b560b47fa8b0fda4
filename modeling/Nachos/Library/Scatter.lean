import Mathlib.Data.Nat.Find

/-! # Scattered writes

A write to a list of addresses stores the value with each number at the address
with this number. An address that occurs twice keeps the value with the larger
number. Writes are put together from writes to parts of the list.
-/

namespace Nachos

variable {α β : Type*} {addr : ℕ → Option β} {n k : ℕ} {g g' : ℕ → α} {m m₁ m' : β → α}

/-- What a memory has after a write of `n` values; a number may have no address. -/
structure Scatter (addr : ℕ → Option β) (n : ℕ) (g : ℕ → α) (m m' : β → α) : Prop where
  other : ∀ b, (∀ i < n, addr i ≠ some b) → m' b = m b
  last : ∀ i < n, ∀ b, addr i = some b → (∀ j, i < j → j < n → addr j ≠ some b) → m' b = g i

namespace Scatter

theorem zero : Scatter addr 0 g m m where
  other _ _ := rfl
  last i hi := absurd hi (Nat.not_lt_zero i)

theorem add (h : Scatter addr n g m m₁)
    (h' : Scatter (fun i => addr (n + i)) k (fun i => g (n + i)) m₁ m') :
    Scatter addr (n + k) g m m' where
  other b hb := by
    rw [h'.other b fun i hi => hb (n + i) (by omega), h.other b fun i hi => hb i (by omega)]
  last i hi b hb hlater := by
    rcases Nat.lt_or_ge i n with hlt | hge
    · -- the second part does not reach the address
      rw [h'.other b fun j hj => hlater (n + j) (by omega) (by omega)]
      exact h.last i hlt b hb fun j hij hj => hlater j hij (by omega)
    · obtain ⟨j, rfl⟩ := Nat.exists_eq_add_of_le hge
      exact h'.last j (by omega) b hb fun j' hj hj' => hlater (n + j') (by omega) (by omega)

theorem congr (h : Scatter addr n g m m') (hg : ∀ i < n, g i = g' i) : Scatter addr n g' m m' where
  other := h.other
  last i hi b hb hlater := by rw [← hg i hi, h.last i hi b hb hlater]

theorem value (h : Scatter addr n g m m') (hinj : ∀ i < n, ∀ j < n, ∀ b, addr i = some b →
    addr j = some b → i = j) {i : ℕ} (hi : i < n) {b : β} (hb : addr i = some b) : m' b = g i := by
  refine h.last i hi b hb fun j hij hj hjb => ?_
  have := hinj i hi j hj b hb hjb
  omega

theorem const (h : Scatter addr n g m m') {a : α} (ha : ∀ i < n, g i = a) {i : ℕ} (hi : i < n)
    {b : β} (hb : addr i = some b) : m' b = a := by
  classical
  let P : ℕ → Prop := fun i => addr i = some b
  have hlast : P (Nat.findGreatest P (n - 1)) := Nat.findGreatest_spec (m := i) (by omega) hb
  have hlt : Nat.findGreatest P (n - 1) < n := by
    have := Nat.findGreatest_le (P := P) (n - 1)
    omega
  rw [h.last _ hlt b hlast fun j hij hj => Nat.findGreatest_is_greatest hij (by omega), ha _ hlt]

end Scatter

end Nachos
