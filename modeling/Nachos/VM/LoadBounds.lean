import Nachos.VM.Loader

/-! # The bounds of the segments

The constructor of `AddrSpace` takes the number of pages from the sizes in the
header, and the addresses of the segments as they are. It compares neither of
them with the other, and `ReadFile` does not check its indices. So a program
is loaded exactly if its segments end before the sizes.
-/

namespace Nachos.VM

open State

variable {σ : Type} {s t : State σ} {x : NoffFile} {id n turns : ℕ}
  {vAddr size fileAddr copySize p : ℤ}

/-- The indices of the page table that the loop of `ReadFile` uses, one in each turn. -/
def pageIndices : ℕ → (vAddr size copySize : ℤ) → List ℤ
  | 0, _, _, _ => []
  | turns + 1, vAddr, size, copySize =>
    if 0 < size then
      let copySize := if size < PageSize then size else copySize
      let offset := vAddr.tmod PageSize
      let copySize := if PageSize ≤ copySize + offset then PageSize - offset else copySize
      vAddr.tdiv PageSize :: pageIndices turns (vAddr + copySize) (size - copySize) copySize
    else []

theorem pageIndices_of_readFile (hn : s.numPages id = some n)
    (h : s.readFile id x turns vAddr size fileAddr copySize = some t)
    (hp : p ∈ pageIndices turns vAddr size copySize) : 0 ≤ p ∧ p < n := by
  induction turns generalizing s vAddr size fileAddr copySize with
  | zero => cases hp
  | succ turns ih =>
    rw [pageIndices] at hp
    rw [readFile] at h
    by_cases hs : 0 < size
    · rw [if_pos hs] at hp h
      simp only [Option.ite_none_left_eq_some, Option.bind_eq_bind, Option.bind_eq_some_iff,
        not_or, not_lt] at h
      obtain ⟨⟨hneg, -⟩, e, he, -, hrest⟩ := h
      rcases List.mem_cons.mp hp with rfl | hp
      · refine ⟨hneg, ?_⟩
        unfold entryAt at he
        rw [hn] at he
        dsimp only at he
        split at he
        · omega
        · cases he
      · exact ih (by exact hn) hrest hp
    · rw [if_neg hs] at hp
      cases hp

/-- A turn copies at least one byte, at most the rest of the range, and up to the end of a page. -/
theorem copySize_bounds {c : ℤ} (vAddr : ℤ) (hs : 0 < size) (hc : 0 < copySize)
    (hc' : copySize ≤ PageSize)
    (h : c = if (PageSize : ℤ) ≤ (if size < PageSize then size else copySize) + vAddr % 128
      then PageSize - vAddr % 128 else if size < PageSize then size else copySize) :
    0 < c ∧ c ≤ PageSize ∧ c ≤ size ∧ vAddr % 128 + c ≤ 128 := by
  have hP : (PageSize : ℤ) = 128 := rfl
  subst h
  split_ifs <;> omega

theorem pageIndices_bounds (hv : 0 ≤ vAddr) (hc : 0 < copySize) (hc' : copySize ≤ PageSize)
    (hp : p ∈ pageIndices turns vAddr size copySize) :
    0 ≤ p ∧ p * PageSize < vAddr + size := by
  have hP : (PageSize : ℤ) = 128 := rfl
  rw [hP]
  induction turns generalizing vAddr size copySize with
  | zero => cases hp
  | succ turns ih =>
    rw [pageIndices] at hp
    by_cases hs : 0 < size
    · have hoff : vAddr.tmod PageSize = vAddr % 128 := Int.tmod_eq_emod_of_nonneg hv
      have hdiv : vAddr.tdiv PageSize = vAddr / 128 := Int.tdiv_eq_ediv_of_nonneg hv
      rw [if_pos hs, hoff, hdiv] at hp
      dsimp only at hp
      rcases List.mem_cons.mp hp with rfl | hp
      · omega
      · obtain ⟨h₁, h₂, h₃, -⟩ := copySize_bounds vAddr hs hc hc' rfl
        obtain ⟨h₀, hlt⟩ := ih (by omega) h₁ h₂ hp
        exact ⟨h₀, by omega⟩
    · rw [if_neg hs] at hp
      cases hp

theorem mem_pageIndices {v : ℤ} (hv : 0 ≤ vAddr) (hc : 0 < copySize) (hc' : copySize ≤ PageSize)
    (ht : size ≤ turns) (hle : vAddr ≤ v) (hlt : v < vAddr + size) :
    v / PageSize ∈ pageIndices turns vAddr size copySize := by
  have hP : (PageSize : ℤ) = 128 := rfl
  induction turns generalizing vAddr size copySize with
  | zero => omega
  | succ turns ih =>
    have hs : 0 < size := by omega
    have hoff : vAddr.tmod PageSize = vAddr % 128 := Int.tmod_eq_emod_of_nonneg hv
    have hdiv : vAddr.tdiv PageSize = vAddr / 128 := Int.tdiv_eq_ediv_of_nonneg hv
    rw [pageIndices, if_pos hs, hoff, hdiv]
    dsimp only
    obtain ⟨h₁, h₂, h₃, h₄⟩ := copySize_bounds vAddr hs hc hc' rfl
    generalize (if (PageSize : ℤ) ≤ (if size < PageSize then size else copySize) + vAddr % 128
      then (PageSize : ℤ) - vAddr % 128 else if size < PageSize then size else copySize) = c at *
    rcases lt_or_ge v (vAddr + c) with hin | hout
    · -- the first turn ends in the page in which it starts
      rw [hP, show v / 128 = vAddr / 128 by omega]
      exact List.mem_cons_self
    · exact List.mem_cons_of_mem _ (ih (by omega) h₁ h₂ (by omega) hout (by omega))

/-! ## Headers -/

/-- Each page-table index that is used to load a segment is one of the table, and each byte of the
segment is in the address space. -/
def NoffFile.LoadsInside (x : NoffFile) (g : Segment) : Prop :=
  0 < g.size →
    (∀ p ∈ pageIndices g.size.toNat g.virtualAddr g.size PageSize, 0 ≤ p ∧ p < x.numPages) ∧
    ∀ i, 0 ≤ i → i < g.size → 0 ≤ g.virtualAddr + i ∧ g.virtualAddr + i < x.numPages * PageSize

/-- A segment is empty, or it ends before the sizes of all segments and of the stack, added as
`unsigned int` and rounded up to pages. -/
def NoffFile.EndsBeforeSizes (x : NoffFile) (g : Segment) : Prop :=
  g.size ≤ 0 ∨ 0 ≤ g.virtualAddr ∧ g.virtualAddr + g.size ≤
    (((x.code.size + x.initData.size + x.uninitData.size + UserStackSize) % 2 ^ 32 + PageSize - 1) /
      PageSize) * PageSize

instance (g : Segment) : Decidable (x.EndsBeforeSizes g) := inferInstanceAs (Decidable (_ ∨ _))

theorem numPages_eq : (x.numPages : ℤ) =
    ((x.code.size + x.initData.size + x.uninitData.size + UserStackSize) % 2 ^ 32 + PageSize - 1) /
      PageSize := by
  have hP : (PageSize : ℤ) = 128 := rfl
  have hP' : PageSize = 128 := rfl
  unfold NoffFile.numPages divRoundUp
  generalize x.code.size + x.initData.size + x.uninitData.size + UserStackSize = k
  rw [hP, hP']
  split <;> omega

theorem loadsInside_iff {g : Segment} : x.LoadsInside g ↔ x.EndsBeforeSizes g := by
  have hP : (PageSize : ℤ) = 128 := rfl
  rw [NoffFile.EndsBeforeSizes, ← numPages_eq]
  constructor
  · intro h
    by_cases hs : g.size ≤ 0
    · exact .inl hs
    · obtain ⟨-, hbytes⟩ := h (by omega)
      have hfirst := hbytes 0 le_rfl (by omega)
      have hlast := hbytes (g.size - 1) (by omega) (by omega)
      exact .inr ⟨by omega, by omega⟩
  · rintro (hle | ⟨hv, hend⟩) hs
    · omega
    · refine ⟨fun p hp => ?_, fun i hi hlt => ⟨by omega, by omega⟩⟩
      obtain ⟨h₀, hlt⟩ := pageIndices_bounds hv (by decide) le_rfl hp
      rw [hP] at hlt hend
      exact ⟨h₀, by omega⟩

/-- The code and the initialised data are loaded inside of the address space exactly if each of them
ends before the sizes in the header. -/
theorem loadsInside_iff_endsBeforeSizes (x : NoffFile) :
    x.LoadsInside x.code ∧ x.LoadsInside x.initData ↔
      x.EndsBeforeSizes x.code ∧ x.EndsBeforeSizes x.initData :=
  and_congr loadsInside_iff loadsInside_iff

/-! ## The constructor -/

/-- A segment at an address that is not negative is inside, if `ReadFile` comes to its end. -/
theorem loadsInside_of_readSegment {g : Segment} (hn : s.numPages id = some x.numPages)
    (hv : 0 ≤ g.virtualAddr) (h : s.readSegment id x g = some t) : x.LoadsInside g := by
  have hP : (PageSize : ℤ) = 128 := rfl
  intro hs
  rw [readSegment, if_pos hs] at h
  refine ⟨fun p hp => pageIndices_of_readFile hn h hp, fun i hi hlt => ⟨by omega, ?_⟩⟩
  have hpage : (g.virtualAddr + i) / PageSize ∈
      pageIndices g.size.toNat g.virtualAddr g.size PageSize :=
    mem_pageIndices hv (by decide) le_rfl (by omega) (by omega) (by omega)
  obtain ⟨-, hlast⟩ := pageIndices_of_readFile hn h hpage
  rw [hP] at hlast ⊢
  omega

theorem segmentInside_of_loadsInside {g : Segment} (hf : 0 ≤ g.inFileAddr) (h : x.LoadsInside g) :
    x.SegmentInside g := by
  intro hs
  obtain ⟨-, hbytes⟩ := h hs
  have hfirst := hbytes 0 le_rfl hs
  have hlast := hbytes (g.size - 1) (by omega) (by omega)
  exact ⟨by omega, hf, by omega⟩

/-- The constructor comes to its end, for addresses that are not negative and with clear pages
enough, exactly if each segment ends before the sizes in the header. -/
theorem isSome_create_iff (h : Inv s.Live s) (hid : s.numPages id = none)
    (hm : x.noffMagic = NOFFMAGIC) (hn : x.numPages ≤ s.swapMap.numClear)
    (hcode : 0 ≤ x.code.virtualAddr ∧ 0 ≤ x.code.inFileAddr)
    (hdata : 0 ≤ x.initData.virtualAddr ∧ 0 ≤ x.initData.inFileAddr) :
    (s.create id x).isSome ↔ x.EndsBeforeSizes x.code ∧ x.EndsBeforeSizes x.initData := by
  rw [← loadsInside_iff, ← loadsInside_iff]
  constructor
  · intro hs
    obtain ⟨t, ht⟩ := Option.isSome_iff_exists.mp hs
    obtain ⟨-, u, v, hu, hv, ht⟩ := create_eq_some ht
    have hsame := allocPages_sameFrames hu
    have hpages : u.numPages id = some x.numPages := by
      rw [hsame.numPages]
      simp [setNumPages]
    have hinside := loadsInside_of_readSegment hpages hcode.1 hv
    obtain ⟨f, b, rfl⟩ := readSegment_eq_some hv
    exact ⟨hinside, loadsInside_of_readSegment (by exact hpages) hdata.1 ht⟩
  · rintro ⟨h₁, h₂⟩
    obtain ⟨t, ht⟩ := exists_create h ⟨segmentInside_of_loadsInside hcode.2 h₁,
      segmentInside_of_loadsInside hdata.2 h₂⟩ hid hm hn
    rw [ht]
    rfl

/-- A header with a segment of four bytes far behind the others passes the checks of the
constructor, and an entry outside of the page table is used for it. -/
theorem exists_not_loadsInside : ∃ x : NoffFile, x.noffMagic = NOFFMAGIC ∧ x.numPages ≤ SwapSize ∧
    ¬ (x.LoadsInside x.code ∧ x.LoadsInside x.initData) := by
  refine ⟨⟨NOFFMAGIC, ⟨0, 40, 256⟩, ⟨0x10000, 296, 4⟩, ⟨0, 0, 0⟩, fun _ => 0⟩, rfl, by decide, ?_⟩
  rintro ⟨-, h⟩
  obtain ⟨hindex, -⟩ := h (by decide)
  exact absurd (hindex 512 (by decide)) (by decide)

end Nachos.VM
