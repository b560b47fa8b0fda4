import Nachos.Machine.Precise
import Nachos.VM.Flat

/-! # User programs with virtual memory

The paging system is a memory unit: as long as only user programs and the loader
have changed the memory, a translation that brings a page in changes no byte
that a program can read. So exceptions are precise in this build, too.
-/

namespace Nachos.Machine

open VM State Transition

variable {σ : Type} {P : Replacement σ} {s t : State σ} {id addr : ℕ} {size : Size} {w : Bool}

theorem translate_error {e : State.Exception} (hf : Frames s)
    (h : s.translate P id addr size.bytes w = some (.error e, t)) : t = s := by
  unfold State.translate at h
  split at h
  case isTrue =>
    cases h
    rfl
  case isFalse =>
    obtain ⟨n, -, h⟩ := Option.bind_eq_some_iff.mp h
    dsimp only at h
    split_ifs at h
    · cases h
      rfl
    · cases h
      rfl
    · cases h
      rfl
    · obtain ⟨⟨q, u⟩, hu, h⟩ := Option.bind_eq_some_iff.mp h
      have hlt := (getPhysicalPage_block hf hu).1
      dsimp only at h
      rw [if_neg (not_le.mpr hlt)] at h
      split_ifs at h
      cases h

theorem access_of_translate {a : ℕ} (h : s.translate P id addr size.bytes w = some (.ok a, t)) :
    ∃ q, Access P id addr size.bytes w s (some q) t := by
  obtain ⟨hacc, hvalid, q, u, hu, hq, -, -, rfl⟩ := translate_ok h
  exact ⟨q, .hit hacc hvalid hu hq⟩

/-- A translation keeps the invariant of the runs of user programs, and what they read. -/
theorem userInv_translate {r : Except State.Exception ℕ} (hs : UserInv s.Live s)
    (h : s.translate P id addr size.bytes w = some (r, t)) :
    UserInv t.Live t ∧ t.byteAt = s.byteAt := by
  cases r with
  | error e =>
    obtain rfl := translate_error hs.frames h
    exact ⟨hs, rfl⟩
  | ok a =>
    obtain ⟨q, hacc⟩ := access_of_translate h
    refine ⟨(SameTables.access hacc).live ▸ hs.access hacc, ?_⟩
    funext id' v
    exact hs.byteAt_access hacc

/-- The paging system, with the page table of one address space in the machine. -/
def paging (P : Replacement σ) (id : ℕ) : MemoryUnit (State σ) (ℕ → ℕ → UInt8) where
  translate addr size writing s :=
    (s.translate P id addr.toNat size.bytes writing).map fun r =>
      (r.1.mapError Mmu.ofException, r.2)
  mainMemory s := s.mainMemory
  setMainMemory mainMemory s := { s with mainMemory := mainMemory }
  userMemory s := s.byteAt
  Valid s := UserInv s.Live s
  valid_translate hs h := by
    obtain ⟨⟨r, u⟩, hu, hr⟩ := Option.map_eq_some_iff.mp h
    cases hr
    exact (userInv_translate hs hu).1
  userMemory_translate hs h := by
    obtain ⟨⟨r, u⟩, hu, hr⟩ := Option.map_eq_some_iff.mp h
    cases hr
    exact (userInv_translate hs hu).2

theorem userInv_of_reachable (h : Reachable (userSystem P) s) : UserInv s.Live s := by
  obtain ⟨s₀, as, h₀, hrun⟩ := h
  obtain ⟨f₀, -, hrel⟩ := (userSystem_simulates (P := P)).init s₀ h₀
  obtain ⟨-, -, hinv, -⟩ := userSystem_simulates.run hrun hrel
  exact hinv

/-- Exceptions are precise in the runs of user programs. -/
theorem precise_of_reachable {s : Machine (State σ)} (h : Reachable (userSystem P) s.memory)
    (hs : s.WellFormed) (hdiv : ¬ DivTraps (paging P id) s) : Precise (paging P id) s :=
  precise_of_not_divTraps hs (userInv_of_reachable h) hdiv

end Nachos.Machine
