import Mathlib.Data.List.Nodup
import Mathlib.Logic.Function.Basic

/-! # Lists in the order of time

Some elements have a time, all before the present one. A list holds the
elements with a time, the oldest first. It stays in order when an element that
gets the present time goes to the end, and when an element that loses its time
leaves.
-/

namespace Nachos.Recency

open Function

variable {α : Type*} {time : α → Option ℕ} {clock : ℕ} {l : List α} {a b : α}

structure InOrder (time : α → Option ℕ) (clock : ℕ) (l : List α) : Prop where
  mem : ∀ a, a ∈ l ↔ (time a).isSome
  sorted : l.Pairwise fun a b => ∃ t u, time a = some t ∧ time b = some u ∧ t < u
  bound : ∀ a t, time a = some t → t < clock

def Oldest (time : α → Option ℕ) (a : α) : Prop :=
  ∃ t, time a = some t ∧ ∀ b u, time b = some u → t ≤ u

namespace InOrder

theorem nil : InOrder (fun _ : α => none) clock [] where
  mem := by simp
  sorted := .nil
  bound _ _ h := by cases h

theorem nodup (h : InOrder time clock l) : l.Nodup := by
  refine h.sorted.imp ?_
  rintro a b ⟨t, u, ht, hu, hlt⟩ rfl
  obtain rfl : t = u := Option.some.inj (ht.symm.trans hu)
  exact Nat.lt_irrefl t hlt

theorem oldest_head (h : InOrder time clock (a :: l)) : Oldest time a := by
  obtain ⟨t, ht⟩ := Option.isSome_iff_exists.mp ((h.mem a).mp (List.mem_cons_self ..))
  refine ⟨t, ht, fun b u hu => ?_⟩
  rcases List.mem_cons.mp ((h.mem b).mpr (by simp [hu])) with rfl | hb
  · exact Nat.le_of_eq (Option.some.inj (ht.symm.trans hu))
  · obtain ⟨t', u', ht', hu', hlt⟩ := (List.pairwise_cons.mp h.sorted).1 b hb
    obtain rfl : t = t' := Option.some.inj (ht.symm.trans ht')
    obtain rfl : u = u' := Option.some.inj (hu.symm.trans hu')
    exact Nat.le_of_lt hlt

variable [DecidableEq α]

theorem append (h : InOrder time clock l) (ha : time a = none) :
    InOrder (update time a (some clock)) (clock + 1) (l ++ [a]) := by
  have hne : ∀ b ∈ l, b ≠ a := by
    rintro b hb rfl
    simpa [ha] using (h.mem b).mp hb
  refine ⟨fun b => ?_, ?_, fun b t hb => ?_⟩
  · by_cases hb : b = a
    · simp [hb]
    · simp [hb, h.mem]
  · refine List.pairwise_append.mpr ⟨?_, List.pairwise_singleton .., fun b hb c hc => ?_⟩
    · refine h.sorted.imp_of_mem fun hb hc hbc => ?_
      rwa [update_of_ne (hne _ hb), update_of_ne (hne _ hc)]
    · obtain rfl := List.mem_singleton.mp hc
      obtain ⟨t, ht⟩ := Option.isSome_iff_exists.mp ((h.mem b).mp hb)
      exact ⟨t, clock, by rw [update_of_ne (hne b hb), ht], update_self .., h.bound b t ht⟩
  · by_cases hba : b = a
    · subst hba
      rw [update_self] at hb
      cases hb
      exact Nat.lt_succ_self clock
    · rw [update_of_ne hba] at hb
      exact Nat.lt_succ_of_lt (h.bound b t hb)

theorem erase (h : InOrder time clock l) : InOrder (update time a none) clock (l.erase a) := by
  refine ⟨fun b => ?_, ?_, fun b t hb => ?_⟩
  · rw [h.nodup.mem_erase_iff]
    by_cases hb : b = a
    · simp [hb]
    · simp [hb, h.mem]
  · refine (h.sorted.sublist List.erase_sublist).imp_of_mem fun hb hc hbc => ?_
    rwa [update_of_ne (h.nodup.mem_erase_iff.mp hb).1, update_of_ne (h.nodup.mem_erase_iff.mp hc).1]
  · by_cases hba : b = a
    · simp [hba] at hb
    · rw [update_of_ne hba] at hb
      exact h.bound b t hb

theorem refresh (h : InOrder time clock l) :
    InOrder (update time a (some clock)) (clock + 1) (l.erase a ++ [a]) := by
  have happend := (h.erase (a := a)).append (update_self ..)
  rwa [update_idem] at happend

end InOrder

end Nachos.Recency
