import Nachos.VM.Contents

/-! # New page tables

The constructor of `AddrSpace` and `CopyAddrSpace` run through a new page
table and take a swap page for each entry, in the order of the clear bits.
They write to these pages only.
-/

namespace Nachos.VM

open Function Bytes State

variable {σ : Type} {s t u v : State σ} {id spaceDest n page : ℕ}
  {c : Fin PageSize → UInt8} {g : ℕ → Fin PageSize → UInt8}

/-- The first `n` entries of the table have new pages, with the contents `g`. -/
structure Filled (s : State σ) (id n : ℕ) (g : ℕ → Fin PageSize → UInt8) (t : State σ) : Prop where
  clearBits : s.swapMap.clearBits.drop n = t.swapMap.clearBits
  page : ∀ i < n, s.swapMap.clearBits[i]? = some (t.swapPage ⟨id, i⟩)
  entry : ∀ i < n, t.pageTable ⟨id, i⟩ = newEntry i (t.swapPage ⟨id, i⟩)
  marked : ∀ i < n, t.swapMap.test (t.swapPage ⟨id, i⟩) = true
  filled : ∀ i < n, block t.swapFile PageSize (t.swapPage ⟨id, i⟩) = g i
  table : ∀ p, p.space ≠ id → t.pageTable p = s.pageTable p
  kept : ∀ X, s.swapMap.test X = true →
    t.swapMap.test X = true ∧ block t.swapFile PageSize X = block s.swapFile PageSize X

/-- A new page, with the contents `c`, for the entry `n` of the table. -/
structure FillTurn (u : State σ) (id n page : ℕ) (c : Fin PageSize → UInt8) (t : State σ) :
    Prop where
  swapMap : t.swapMap = u.swapMap.mark page
  clearBits : u.swapMap.clearBits = page :: t.swapMap.clearBits
  free : u.swapMap.test page = false
  pageTable : t.pageTable = update u.pageTable ⟨id, n⟩ (newEntry n page)
  kept : ∀ X, X ≠ page → block t.swapFile PageSize X = block u.swapFile PageSize X
  filled : block t.swapFile PageSize page = c

theorem Filled.zero : Filled s id 0 g s :=
  ⟨rfl, fun _ h => absurd h (Nat.not_lt_zero _), fun _ h => absurd h (Nat.not_lt_zero _),
    fun _ h => absurd h (Nat.not_lt_zero _), fun _ h => absurd h (Nat.not_lt_zero _),
    fun _ _ => rfl, fun _ h => ⟨h, rfl⟩⟩

theorem Filled.succ (h : Filled s id n g u) (ht : FillTurn u id n page (g n) t) :
    Filled s id (n + 1) g t := by
  -- a page that is marked is not the new one
  have hother : ∀ {X}, u.swapMap.test X = true → X ≠ page := by
    rintro X hX rfl
    rw [ht.free] at hX
    cases hX
  have hmark : ∀ {X}, u.swapMap.test X = true → t.swapMap.test X = true := by
    intro X hX
    rw [ht.swapMap, BitMap.test_mark_of_ne (hother hX).symm]
    exact hX
  have hnew : t.swapPage ⟨id, n⟩ = page := by simp [swapPage, ht.pageTable, newEntry]
  have hold : ∀ i < n, t.pageTable ⟨id, i⟩ = u.pageTable ⟨id, i⟩ := by
    intro i hi
    have hp : (⟨id, i⟩ : EntryPtr) ≠ ⟨id, n⟩ := by
      simp
      omega
    rw [ht.pageTable, update_of_ne hp]
  have hpage : ∀ i < n, t.swapPage ⟨id, i⟩ = u.swapPage ⟨id, i⟩ := fun i hi =>
    congrArg TranslationEntry.physicalPage (hold i hi)
  have hdrop : s.swapMap.clearBits.drop n = page :: t.swapMap.clearBits :=
    h.clearBits.trans ht.clearBits
  constructor
  · rw [← List.drop_drop, hdrop]
    rfl
  · intro i hi
    rcases Nat.lt_succ_iff_lt_or_eq.mp hi with hi | rfl
    · rw [hpage i hi]
      exact h.page i hi
    · have hhead : (s.swapMap.clearBits.drop i)[0]? = s.swapMap.clearBits[i + 0]? :=
        List.getElem?_drop
      rw [hdrop] at hhead
      rw [hnew]
      exact hhead.symm
  · intro i hi
    rcases Nat.lt_succ_iff_lt_or_eq.mp hi with hi | rfl
    · rw [hpage i hi, hold i hi]
      exact h.entry i hi
    · rw [hnew, ht.pageTable, update_self]
  · intro i hi
    rcases Nat.lt_succ_iff_lt_or_eq.mp hi with hi | rfl
    · rw [hpage i hi]
      exact hmark (h.marked i hi)
    · rw [hnew, ht.swapMap]
      exact BitMap.test_mark_self
  · intro i hi
    rcases Nat.lt_succ_iff_lt_or_eq.mp hi with hi | rfl
    · rw [hpage i hi, ht.kept _ (hother (h.marked i hi))]
      exact h.filled i hi
    · rw [hnew]
      exact ht.filled
  · intro p hp
    have hpn : p ≠ ⟨id, n⟩ := fun he => hp (by rw [he])
    rw [ht.pageTable, update_of_ne hpn]
    exact h.table p hp
  · intro X hX
    obtain ⟨h₁, h₂⟩ := h.kept X hX
    exact ⟨hmark h₁, (ht.kept X (hother h₁)).trans h₂⟩

theorem Filled.fresh {i : ℕ} (h : Filled s id n g t) (hi : i < n) :
    s.swapMap.test (t.swapPage ⟨id, i⟩) = false := by
  have hmem := List.mem_of_getElem? (h.page i hi)
  simpa [BitMap.clearBits] using (List.mem_filter.mp hmem).2

theorem fillTurn_of_allocPage (hv : u.allocPage = some (page, v)) :
    FillTurn u id n page (fun _ => 0) (v.setEntry ⟨id, n⟩ (newEntry n page)) := by
  have hbits := clearBits_of_allocPage hv
  obtain ⟨-, hclear, -, rfl⟩ := allocPage_eq_some hv
  refine ⟨rfl, hbits, hclear, rfl, fun X hX => ?_, ?_⟩
  · simp only [setEntry]
    exact block_blit_ne hX
  · simp only [setEntry]
    exact block_blit_self

theorem filled_of_allocPages (h : s.allocPages id n = some t) :
    Filled s id n (fun _ _ => 0) t := by
  induction n generalizing t with
  | zero => exact Option.some.inj h ▸ .zero
  | succ n ih =>
    obtain ⟨u, page, v, hu, hv, rfl⟩ := allocPages_succ h
    exact (ih hu).succ (fillTurn_of_allocPage hv)

theorem exists_allocPages (h : n ≤ s.swapMap.numClear) : ∃ t, s.allocPages id n = some t := by
  induction n with
  | zero => exact ⟨s, rfl⟩
  | succ n ih =>
    obtain ⟨u, hu⟩ := ih (by omega)
    have hbits := (filled_of_allocPages hu).clearBits
    have hpos : 0 < u.swapMap.numClear := by
      rw [BitMap.numClear_eq_length, ← hbits, List.length_drop, ← BitMap.numClear_eq_length]
      omega
    obtain ⟨⟨page, m⟩, hm⟩ := Option.isSome_iff_exists.mp (BitMap.find_isSome_iff.mpr hpos)
    simp [allocPages, hu, allocPage, hm]

theorem fillTurn_of_copy (hne : id ≠ spaceDest) (hm : u.swapMap.test (u.swapPage ⟨id, n⟩) = true)
    (hv : u.allocPage = some (page, v)) :
    FillTurn u spaceDest n page (block u.swapFile PageSize (u.swapPage ⟨id, n⟩))
      ((v.setEntry ⟨spaceDest, n⟩ (newEntry n page)).copy
        ((v.setEntry ⟨spaceDest, n⟩ (newEntry n page)).pageTable ⟨id, n⟩).physicalPage page) := by
  have hbits := clearBits_of_allocPage hv
  obtain ⟨-, hclear, -, rfl⟩ := allocPage_eq_some hv
  have hptr : (⟨id, n⟩ : EntryPtr) ≠ ⟨spaceDest, n⟩ := by simpa using hne
  have hsource : u.swapPage ⟨id, n⟩ ≠ page := by
    rintro rfl
    rw [hclear] at hm
    cases hm
  refine ⟨rfl, hbits, hclear, rfl, fun X hX => ?_, ?_⟩
  · simp only [copy, setEntry]
    rw [block_blit_ne hX, block_blit_ne hX]
  · simp only [copy, setEntry, update_of_ne hptr]
    rw [block_blit_self]
    exact block_blit_ne hsource

theorem filled_of_copyPages (hne : id ≠ spaceDest)
    (hm : ∀ i < n, s.swapMap.test (s.swapPage ⟨id, i⟩) = true)
    (h : s.copyPages id spaceDest n = some t) :
    Filled s spaceDest n (fun i => block s.swapFile PageSize (s.swapPage ⟨id, i⟩)) t := by
  induction n generalizing t with
  | zero => exact Option.some.inj h ▸ .zero
  | succ n ih =>
    obtain ⟨u, page, v, hu, hv, rfl⟩ := copyPages_succ h
    have hfill := ih (fun i hi => hm i (Nat.lt_succ_of_lt hi)) hu
    have hsource : u.swapPage ⟨id, n⟩ = s.swapPage ⟨id, n⟩ :=
      congrArg TranslationEntry.physicalPage (hfill.table _ hne)
    obtain ⟨hmark, hblock⟩ := hfill.kept _ (hm n (Nat.lt_succ_self n))
    have hturn := fillTurn_of_copy (n := n) hne (hsource ▸ hmark) hv
    rw [hsource, hblock] at hturn
    exact hfill.succ hturn

end Nachos.VM
