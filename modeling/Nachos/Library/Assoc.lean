import Mathlib.Data.List.Nodup
import Mathlib.Tactic.Common

/-! # Association lists as finite maps

A list of pairs in which no key is twice is a finite map, whatever the order of
the pairs. Lists with an entry that fits a test are split at the first one.
-/

namespace Nachos.Assoc

variable {κ α : Type*}

section Lookup

variable [BEq κ] [LawfulBEq κ] {l l' : List (κ × α)} {k k' : κ} {v : α}

theorem mem_of_lookup (h : l.lookup k = some v) : (k, v) ∈ l := by
  induction l with
  | nil => cases h
  | cons p l ih =>
    obtain ⟨k', v'⟩ := p
    rw [List.lookup_cons] at h
    cases hk : k == k' with
    | true =>
      rw [hk] at h
      obtain rfl := eq_of_beq hk
      cases h
      exact List.mem_cons_self ..
    | false =>
      rw [hk] at h
      exact List.mem_cons_of_mem _ (ih h)

theorem lookup_eq_none_iff : l.lookup k = none ↔ k ∉ l.map Prod.fst := by
  rw [List.lookup_eq_none_iff]
  simp only [List.mem_map, Prod.exists, exists_and_right, exists_eq_right, not_exists, bne_iff_ne]
  exact ⟨fun h v hv => h (k, v) hv rfl, fun h p hp he => h p.2 (he ▸ hp)⟩

theorem lookup_eq_some_iff (h : (l.map Prod.fst).Nodup) : l.lookup k = some v ↔ (k, v) ∈ l := by
  refine ⟨mem_of_lookup, fun hmem => ?_⟩
  cases hl : l.lookup k with
  | none => exact absurd (List.mem_map_of_mem hmem) (lookup_eq_none_iff.mp hl)
  | some v' =>
    have := List.inj_on_of_nodup_map h (mem_of_lookup hl) hmem rfl
    rw [(Prod.mk.inj this).2]

theorem lookup_perm (hp : l.Perm l') (h : (l.map Prod.fst).Nodup) : l.lookup k = l'.lookup k := by
  have h' : (l'.map Prod.fst).Nodup := (hp.map _).nodup_iff.mp h
  ext v
  rw [lookup_eq_some_iff h, lookup_eq_some_iff h', hp.mem_iff]

theorem lookup_cons_self : ((k, v) :: l).lookup k = some v := by simp

theorem lookup_cons_of_ne (h : k ≠ k') : ((k', v) :: l).lookup k = l.lookup k := by
  rw [List.lookup_cons, beq_false_of_ne h]

end Lookup

section Split

variable {l l₁ l₂ : List α} {p : α → Bool} {f : α → α} {a : α} {i : ℕ}

theorem split_of_findIdx? (h : l.findIdx? p = some i) :
    ∃ l₁ a l₂, l = l₁ ++ a :: l₂ ∧ l₁.length = i ∧ p a = true := by
  obtain ⟨hi, hp, -⟩ := List.findIdx?_eq_some_iff_getElem.mp h
  refine ⟨l.take i, l[i], l.drop (i + 1), ?_, List.length_take_of_le (Nat.le_of_lt hi), hp⟩
  rw [← List.drop_eq_getElem_cons hi, List.take_append_drop]

theorem modify_split : (l₁ ++ a :: l₂).modify l₁.length f = l₁ ++ f a :: l₂ := by
  induction l₁ with
  | nil => rfl
  | cons b l₁ ih => simp [ih]

end Split

end Nachos.Assoc
