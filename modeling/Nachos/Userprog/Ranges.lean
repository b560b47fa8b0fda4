import Mathlib.Data.List.GetD
import Nachos.Library.Scatter
import Nachos.Userprog.Translation

/-! # Writes to ranges of virtual addresses

A write to a range puts each byte where its own address is translated to.
Where two addresses are translated to the same one, the byte of the later one
stays.
-/

namespace Nachos.Userprog.AddrSpace

open VM

variable {space : AddrSpace} {v vAddr a : ℤ} {n n' : ℕ} {m m₁ m' : ℤ → UInt8}
  {data data' : List UInt8}

def Backed (space : AddrSpace) (vAddr : ℤ) (n : ℕ) : Prop :=
  ∀ i < n, ∃ a, space.translate (vAddr + i) = some a ∧ 0 ≤ a ∧ a < MemorySize

theorem backed_add : space.Backed v (n + n') ↔ space.Backed v n ∧ space.Backed (v + n) n' := by
  constructor
  · intro h
    refine ⟨fun i hi => h i (by omega), fun i hi => ?_⟩
    have := h (n + i) (by omega)
    rwa [Nat.cast_add, ← add_assoc] at this
  · rintro ⟨h, h'⟩ i hi
    rcases Nat.lt_or_ge i n with hlt | hge
    · exact h i hlt
    · have := h' (i - n) (by omega)
      rwa [show v + n + ((i - n : ℕ) : ℤ) = v + i by omega] at this

theorem backed_of_translate (h : space.translate v = some a) (hlen : v.tmod PageSize + n ≤ 128) :
    space.Backed v n ↔ n = 0 ∨ 0 ≤ a ∧ a + n ≤ MemorySize := by
  have hi : ∀ i < n, space.translate (v + i) = some (a + i) := fun i hi =>
    translate_add h (by omega) (by omega)
  constructor
  · intro hb
    rcases Nat.eq_zero_or_pos n with h0 | hpos
    · exact .inl h0
    · obtain ⟨b, hb₁, hb₂, -⟩ := hb 0 hpos
      obtain ⟨c, hc₁, -, hc₂⟩ := hb (n - 1) (by omega)
      rw [hi 0 hpos] at hb₁
      rw [hi (n - 1) (by omega)] at hc₁
      obtain rfl := Option.some.inj hb₁
      obtain rfl := Option.some.inj hc₁
      exact .inr ⟨by omega, by omega⟩
  · rintro h' i hlt
    exact ⟨a + i, hi i hlt, by omega, by omega⟩

def Written (space : AddrSpace) (vAddr : ℤ) (data : List UInt8) (m m' : ℤ → UInt8) : Prop :=
  Scatter (fun i => space.translate (vAddr + i)) data.length (fun i => data.getD i 0) m m'

theorem Written.nil : space.Written v [] m m := Scatter.zero

theorem Written.append (h : space.Written v data m m₁)
    (h' : space.Written (v + data.length) data' m₁ m') :
    space.Written v (data ++ data') m m' := by
  unfold Written at *
  rw [List.length_append]
  refine (h.congr fun i hi => (List.getD_append _ _ _ _ hi).symm).add ?_
  simp only [Nat.cast_add, ← add_assoc]
  refine h'.congr fun i hi => ?_
  rw [List.getD_append_right _ _ _ _ (Nat.le_add_right ..), Nat.add_sub_cancel_left]

theorem Written.copyTo_of_consecutive
    (h : ∀ i < data.length, space.translate (v + i) = some (a + i)) :
    space.Written v data m (copyTo a data.length (fun i => data.getD i 0) m) where
  other b hb := by
    unfold Userprog.copyTo
    refine if_neg fun hrange => hb (b - a).toNat (by omega) ?_
    rw [h _ (by omega)]
    congr
    omega
  last i hi c hc _ := by
    rw [h i hi] at hc
    obtain rfl := Option.some.inj hc
    unfold Userprog.copyTo
    rw [if_pos (by omega), show (a + i - a).toNat = i by omega]

theorem Written.copyTo (h : space.translate v = some a)
    (hlen : v.tmod PageSize + data.length ≤ 128) :
    space.Written v data m (copyTo a data.length (fun i => data.getD i 0) m) :=
  .copyTo_of_consecutive fun _ _ => translate_add h (by omega) (by omega)

theorem Written.byte (h : space.Written vAddr data m m') (hv : 0 ≤ vAddr)
    (hnd : space.frames.Nodup) {i : ℕ} (hi : i < data.length)
    (ha : space.translate (vAddr + i) = some a) : m' a = data.getD i 0 := by
  obtain ⟨w, rfl⟩ := Int.eq_ofNat_of_zero_le hv
  refine Scatter.value h (fun i _ j _ b hb hb' => ?_) hi ha
  have heq : w + i = w + j :=
    translate_inj hnd (a := b) (by exact_mod_cast hb) (by exact_mod_cast hb')
  omega

/-- What the memory has after a write of some bytes to a range; frames that the range reaches twice
keep bytes of the last part. -/
structure Stored (space : AddrSpace) (vAddr : ℤ) (data : List UInt8) (m m' : ℤ → UInt8) :
    Prop where
  other : ∀ a, (∀ i < data.length, space.translate (vAddr + i) ≠ some a) → m' a = m a
  same : ∀ b, (∀ x ∈ data, x = b) → ∀ i < data.length, ∀ a,
    space.translate (vAddr + i) = some a → m' a = b

theorem Written.stored (h : space.Written v data m m') : space.Stored v data m m' where
  other := h.other
  same b hb i hi a ha := by
    refine Scatter.const h (fun j hj => ?_) hi ha
    rw [List.getD_eq_getElem _ _ hj]
    exact hb _ (List.getElem_mem hj)

end Nachos.Userprog.AddrSpace
