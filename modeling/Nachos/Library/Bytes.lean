import Mathlib.Data.Fin.Basic
import Mathlib.Tactic.Common

/-! # Byte arrays in blocks

An array is a function on addresses. `blit` overwrites a range, and `block`
reads the array in blocks of a fixed size. A write inside one block changes
this block only.
-/

namespace Nachos.Bytes

variable {α : Type*} {f g : ℕ → α} {a b m n p q : ℕ}

/-- Overwrite `n` cells from `a` on with the cells of `g` from the start. -/
def blit (f : ℕ → α) (a n : ℕ) (g : ℕ → α) : ℕ → α :=
  fun i => if a ≤ i ∧ i < a + n then g (i - a) else f i

def block (f : ℕ → α) (n p : ℕ) : Fin n → α := fun i => f (p * n + i)

theorem blit_add (h : m < n) : blit f a n g (a + m) = g m := by
  simp [blit, h]

theorem blit_start (h : m < n) : blit f 0 n g m = g m := by
  simp [blit, h]

theorem blit_of_lt (h : b < a) : blit f a n g b = f b := by
  simp [blit, show ¬ a ≤ b by omega]

theorem blit_of_le (h : a + n ≤ b) : blit f a n g b = f b := by
  simp [blit, show ¬ b < a + n by omega]

theorem blit_congr {f' : ℕ → α} (h : f b = f' b) : blit f a n g b = blit f' a n g b := by
  simp only [blit, h]

theorem blit_source_congr {g' : ℕ → α} (h : ∀ i < n, g i = g' i) :
    blit f a n g = blit f a n g' := by
  funext i
  simp only [blit]
  split
  case isTrue hi => exact h (i - a) (by omega)
  case isFalse => rfl

@[simp] theorem blit_zero : blit f a 0 g = f := by
  funext i
  simp [blit, show ¬ (a ≤ i ∧ i < a) by omega]

@[simp] theorem blit_self : blit f a n (fun i => f (a + i)) = f := by
  funext i
  simp only [blit]
  split
  case isTrue hi => rw [Nat.add_sub_cancel' hi.1]
  case isFalse => rfl

theorem blit_append :
    blit (blit f a m g) (a + m) n (fun i => g (m + i)) = blit f a (m + n) g := by
  funext i
  simp only [blit]
  by_cases h₁ : a ≤ i <;> by_cases h₂ : i < a + m
  · simp [h₁, h₂, show ¬ a + m ≤ i by omega, show i < a + (m + n) by omega]
  · by_cases h₃ : i < a + m + n
    · simp [h₁, h₃, show a + m ≤ i by omega, show i < a + (m + n) by omega,
        show m + (i - (a + m)) = i - a by omega]
    · simp [h₂, h₃, show ¬ i < a + (m + n) by omega]
  · simp [h₁, show ¬ a + m ≤ i by omega]
  · simp [h₁, show ¬ a + m ≤ i by omega]

/-- A range is written through a buffer that holds the cells around it. -/
theorem blit_buffer {buf : ℕ → α} {v : ℕ} (ha : b ≤ a) (hn : a + n ≤ b + m)
    (h : b ≤ v → v < b + m → v < a ∨ a + n ≤ v → buf (v - b) = f v) :
    blit f b m (blit buf (a - b) n g) v = blit f a n g v := by
  by_cases hv : a ≤ v ∧ v < a + n
  · obtain ⟨i, rfl⟩ := Nat.exists_eq_add_of_le hv.1
    have hi : a + i = b + (a - b + i) := by omega
    rw [blit_add (by omega : i < n), hi, blit_add (by omega), blit_add (by omega)]
  · have hout : v < a ∨ a + n ≤ v := by omega
    have hkeep : blit f a n g v = f v := hout.elim blit_of_lt blit_of_le
    rw [hkeep]
    by_cases hb : b ≤ v ∧ v < b + m
    · obtain ⟨i, rfl⟩ := Nat.exists_eq_add_of_le hb.1
      have hbuf : blit buf (a - b) n g i = buf i :=
        hout.elim (fun _ => blit_of_lt (by omega)) fun _ => blit_of_le (by omega)
      rw [blit_add (by omega), hbuf, ← h hb.1 hb.2 hout, Nat.add_sub_cancel_left]
    · exact (by omega : v < b ∨ b + m ≤ v).elim blit_of_lt blit_of_le

theorem mul_add_lt (h : p < q) (hi : m < n) : p * n + m < q * n := by
  calc
    p * n + m < p * n + n := by omega
    _ = (p + 1) * n := by rw [Nat.succ_mul]
    _ ≤ q * n := Nat.mul_le_mul_right n h

theorem blit_other (hm : b + m ≤ n) (hne : q ≠ p) {i : ℕ} (hi : i < n) :
    blit f (p * n + b) m g (q * n + i) = f (q * n + i) := by
  rcases Nat.lt_or_gt_of_ne hne with h | h
  · have := mul_add_lt h hi
    exact blit_of_lt (by omega)
  · have : (p + 1) * n ≤ q * n := Nat.mul_le_mul_right n h
    rw [Nat.succ_mul] at this
    exact blit_of_le (by omega)

theorem block_blit_other (hm : b + m ≤ n) (hne : q ≠ p) :
    block (blit f (p * n + b) m g) n q = block f n q :=
  funext fun i => blit_other hm hne i.isLt

theorem block_blit_self : block (blit f (p * n) n g) n p = fun i : Fin n => g i :=
  funext fun i => blit_add i.isLt

theorem block_blit_ne (hne : q ≠ p) : block (blit f (p * n) n g) n q = block f n q :=
  block_blit_other (b := 0) (by omega) hne

theorem div_mod_add (h : a % n + m < n) : (a + m) / n = a / n ∧ (a + m) % n = a % n + m := by
  have ha := Nat.div_add_mod' a n
  have he : a + m = a / n * n + (a % n + m) := by omega
  rw [he, Nat.mul_comm (a / n), Nat.mul_add_div (by omega), Nat.div_eq_of_lt h, Nat.mul_add_mod,
    Nat.mod_eq_of_lt h]
  simp

theorem blit_of_div_eq {v : ℕ} (h : v / n = a / n) :
    blit f (q * n + a % n) m g (q * n + v % n) = blit (fun w => f (q * n + w % n)) a m g v := by
  have ha := Nat.div_add_mod' a n
  have hv := Nat.div_add_mod' v n
  rw [h] at hv
  by_cases hr : a ≤ v ∧ v < a + m
  · obtain ⟨i, rfl⟩ : ∃ i, v = a + i := ⟨v - a, by omega⟩
    rw [show q * n + (a + i) % n = q * n + a % n + i by omega, blit_add (by omega),
      blit_add (by omega)]
  · rcases Nat.lt_or_ge v a with hlt | hge
    · rw [blit_of_lt hlt, blit_of_lt (by omega)]
    · rw [blit_of_le (by omega : a + m ≤ v), blit_of_le (by omega)]

theorem blit_of_div_ne {v : ℕ} (hn : 0 < n) (hin : a % n + m ≤ n) (h : v / n ≠ a / n) :
    blit f a m g v = f v := by
  have ha := Nat.div_add_mod' a n
  have hv := Nat.div_add_mod' v n
  have hlt := Nat.mod_lt v hn
  have := blit_other (f := f) (g := g) hin h hlt
  rwa [ha, hv] at this

end Nachos.Bytes
