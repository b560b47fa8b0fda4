import Mathlib.Tactic.Common

/-! # Computations that may fail

The rules for sequences of computations in `Except`.
-/

namespace Nachos.Outcome

universe u

variable {ε : Type*} {α β : Type u} {x : Except ε α} {f g : α → Except ε β} {a : α} {b : β}
  {e : ε}

@[simp] theorem ok_bind : (Except.ok a >>= f) = f a := rfl

@[simp] theorem error_bind : ((Except.error e : Except ε α) >>= f) = .error e := rfl

@[simp] theorem pure_eq_ok : (pure a : Except ε α) = .ok a := rfl

@[simp] theorem map_ok {k : α → β} : (Except.ok a : Except ε α).map k = .ok (k a) := rfl

theorem bind_eq_ok : x >>= f = .ok b ↔ ∃ a, x = .ok a ∧ f a = .ok b := by
  cases x with
  | error e => simp
  | ok a => simp

theorem bind_congr (h : ∀ a, x = .ok a → f a = g a) : x >>= f = x >>= g := by
  cases x with
  | error e => rfl
  | ok a => exact h a rfl

/-- The result meets one condition, or the failure another one. -/
def Holds (Q : α → Prop) (E : ε → Prop) : Except ε α → Prop
  | .ok a => Q a
  | .error e => E e

variable {Q : α → Prop} {R : β → Prop} {E : ε → Prop}

theorem Holds.bind (h : Holds Q E x) (hf : ∀ a, Q a → Holds R E (f a)) :
    Holds R E (x >>= f) := by
  cases x with
  | error e => exact h
  | ok a => exact hf a h

inductive Alike (S : α → β → Prop) : Except ε α → Except ε β → Prop
  | ok {a : α} {b : β} : S a b → Alike S (.ok a) (.ok b)
  | error (e : ε) : Alike S (.error e) (.error e)

theorem Alike.bind {γ δ : Type u} {S : α → β → Prop} {T : γ → δ → Prop} {y : Except ε β}
    {k : α → Except ε γ} {l : β → Except ε δ} (h : Alike S x y)
    (hkl : ∀ a b, S a b → Alike T (k a) (l b)) : Alike T (x >>= k) (y >>= l) := by
  cases h with
  | ok hab => exact hkl _ _ hab
  | error e => exact .error e

theorem Alike.ite {S : α → β → Prop} {c : Prop} [Decidable c] {x' : Except ε α}
    {y y' : Except ε β} (h : Alike S x y) (h' : Alike S x' y') :
    Alike S (if c then x else x') (if c then y else y') := by
  split
  · exact h
  · exact h'

/-! ## Loops over a list -/

section Loop

variable {σ : Type u} {ι : Type*} {step : σ → ι → Except ε σ} {l : List ι} {s t : σ}
  {P : List ι → σ → Prop}

/-- A loop succeeds exactly if each turn does, with a condition on the prefix before it. -/
theorem exists_foldlM_iff {A : List ι → ι → Prop} (h₀ : P [] s)
    (hstep : ∀ pre i post s t, l = pre ++ i :: post → P pre s → step s i = .ok t →
      P (pre ++ [i]) t)
    (hA : ∀ pre i post s, l = pre ++ i :: post → P pre s → ((∃ t, step s i = .ok t) ↔ A pre i)) :
    (∃ t, l.foldlM step s = .ok t) ↔ ∀ pre i post, l = pre ++ i :: post → A pre i := by
  suffices h : ∀ (post pre : List ι) (s : σ), l = pre ++ post → P pre s →
      ((∃ t, post.foldlM step s = .ok t) ↔
        ∀ mid i rest, post = mid ++ i :: rest → A (pre ++ mid) i) by
    simpa using h l [] s rfl h₀
  intro post
  induction post with
  | nil =>
    intro pre s _ _
    exact ⟨fun _ mid i rest he => by simp at he, fun _ => ⟨s, rfl⟩⟩
  | cons j post ih =>
    intro pre s hl hP
    have hturn := hA pre j post s hl hP
    constructor
    · rintro ⟨t, ht⟩ mid i rest he
      obtain ⟨u, hu, ht⟩ := bind_eq_ok.mp (by rwa [List.foldlM_cons] at ht)
      cases mid with
      | nil =>
        obtain ⟨rfl, -⟩ : j = i ∧ post = rest := by simpa using he
        simpa using hturn.mp ⟨u, hu⟩
      | cons k mid =>
        obtain ⟨rfl, hpost⟩ : j = k ∧ post = mid ++ i :: rest := by simpa using he
        have := (ih (pre ++ [j]) u (by simp [hl]) (hstep pre j post s u hl hP hu)).mp ⟨t, ht⟩
        simpa using this mid i rest hpost
    · intro h
      obtain ⟨u, hu⟩ := hturn.mpr (by simpa using h [] j post rfl)
      obtain ⟨t, ht⟩ := (ih (pre ++ [j]) u (by simp [hl]) (hstep pre j post s u hl hP hu)).mpr
        fun mid i rest he => by simpa using h (j :: mid) i rest (by simp [he])
      exact ⟨t, by rw [List.foldlM_cons, hu]; exact ht⟩

theorem forall_split_cons {A : List ι → ι → Prop} {i : ι} :
    (∀ pre j post, i :: l = pre ++ j :: post → A pre j) ↔
      A [] i ∧ ∀ pre j post, l = pre ++ j :: post → A (i :: pre) j := by
  constructor
  · intro h
    exact ⟨h [] i l rfl, fun pre j post hl => h (i :: pre) j post (by rw [hl]; rfl)⟩
  · rintro ⟨hi, hrest⟩ pre j post hl
    cases pre with
    | nil =>
      obtain ⟨rfl, -⟩ : i = j ∧ l = post := by simpa using hl
      exact hi
    | cons k pre =>
      obtain ⟨rfl, hrest'⟩ : i = k ∧ l = pre ++ j :: post := by simpa using hl
      exact hrest pre j post hrest'

end Loop

end Nachos.Outcome
