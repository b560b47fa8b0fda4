import Nachos.VM.Ownership

/-! # The contents of a page

The contents of a swap page are in the frame that holds it, or else in the
swap file. Bringing a page in keeps the contents of every page but possibly
that of the victim, which is only written back when it is dirty.
-/

namespace Nachos.VM

open Function Bytes Transition State

variable {σ : Type} {P : Replacement σ} {s t u : State σ} {p : EntryPtr} {q id X : ℕ}
  {i : Fin PageSize}

def State.contents (s : State σ) (sPage : ℕ) : Fin PageSize → UInt8 :=
  match s.frameOf sPage with
  | some q => block s.mainMemory PageSize q
  | none => block s.swapFile PageSize sPage

/-- What the paging system reads at a virtual address. -/
def State.byteAt (s : State σ) (id vAddr : ℕ) : UInt8 :=
  s.contents (s.swapPage (entryPtr id vAddr)) ⟨vAddr % PageSize, Nat.mod_lt _ (by decide)⟩

theorem byteAt_eq_iff {id' n : ℕ} :
    (∀ vAddr < n * PageSize, t.byteAt id' vAddr = s.byteAt id vAddr) ↔
      ∀ v < n, t.contents (t.swapPage ⟨id', v⟩) = s.contents (s.swapPage ⟨id, v⟩) := by
  constructor
  · intro h v hv
    funext i
    have hlt : v * PageSize + i < n * PageSize := mul_add_lt hv i.isLt
    have hdiv : (v * PageSize + i) / PageSize = v := by
      rw [Nat.mul_comm, Nat.mul_add_div (by decide), Nat.div_eq_of_lt i.isLt, Nat.add_zero]
    have hmod : (v * PageSize + i) % PageSize = i := by
      rw [Nat.mul_comm, Nat.mul_add_mod, Nat.mod_eq_of_lt i.isLt]
    simpa [byteAt, entryPtr, hdiv, hmod] using h _ hlt
  · intro h vAddr hv
    have hlt : vAddr / PageSize < n := Nat.div_lt_of_lt_mul (by rwa [Nat.mul_comm])
    exact congrFun (h _ hlt) _

theorem contents_of_frameOf (h : s.frameOf X = some q) :
    s.contents X = block s.mainMemory PageSize q := by
  simp [contents, h]

theorem contents_of_absent (h : s.frameOf X = none) :
    s.contents X = block s.swapFile PageSize X := by
  simp [contents, h]

theorem frameOf_congr (h : t.activePageMap = s.activePageMap) : t.frameOf X = s.frameOf X := by
  simp [frameOf, h]

theorem contents_congr (ha : t.activePageMap = s.activePageMap)
    (hm : ∀ q, s.activePageMap q = some X → t.mainMemory (q * PageSize + i) =
      s.mainMemory (q * PageSize + i))
    (hf : t.swapFile (X * PageSize + i) = s.swapFile (X * PageSize + i)) :
    t.contents X i = s.contents X i := by
  unfold contents
  rw [frameOf_congr ha]
  cases h : s.frameOf X with
  | none => exact hf
  | some q => exact hm q (frameOf_eq_some_iff.mp h).2.1

theorem SingleResidence.frameOf_eq (h : SingleResidence s) (hq : q < NumPhysPages)
    (ha : s.activePageMap q = some X) : s.frameOf X = some q := by
  cases hf : s.frameOf X with
  | none => exact absurd ha (frameOf_eq_none_iff.mp hf q hq)
  | some f =>
    obtain ⟨hlt, hX, -⟩ := frameOf_eq_some_iff.mp hf
    rw [h f hlt q hq X hX ha]

/-! ## Bringing a page in -/

def State.victim (P : Replacement σ) (s : State σ) : ℕ := (P.getReplacement s.policy).1

theorem takeFrame_cases (h : s.takeFrame P = some (q, u)) : u.mainMemory = s.mainMemory ∧
    ((s.memMap.test q = false ∧ q < s.memMap.numBits ∧ u.swapFile = s.swapFile) ∨
      (s.memMap.numClear = 0 ∧ q = s.victim P ∧ ∃ old, s.activePages q = some old ∧
        (((s.pageTable old).dirty = true ∧ ∃ Y, s.activePageMap q = some Y ∧
            u.swapFile = blit s.swapFile (Y * PageSize) PageSize
              fun i => s.mainMemory (q * PageSize + i)) ∨
          ((s.pageTable old).dirty = false ∧ u.swapFile = s.swapFile)))) := by
  rcases takeFrame_eq_some h with ⟨hq, hf, rfl⟩ | ⟨hz, hq, he⟩
  · exact ⟨rfl, .inl ⟨hf, hq, rfl⟩⟩
  · obtain ⟨old, e, ho, hd, he⟩ := evict_eq_some he
    obtain ⟨-, rfl⟩ := entryAt_eq_some_iff.mp hd
    rcases he with ⟨hdirty, Y, hY, rfl⟩ | ⟨hdirty, rfl⟩
    · exact ⟨rfl, .inr ⟨hz, hq, old, ho, .inl ⟨hdirty, Y, hY, rfl⟩⟩⟩
    · exact ⟨rfl, .inr ⟨hz, hq, old, ho, .inr ⟨hdirty, rfl⟩⟩⟩

theorem takeFrame_swapFile (h : s.takeFrame P = some (q, u)) (hX : s.activePageMap q ≠ some X) :
    block u.swapFile PageSize X = block s.swapFile PageSize X := by
  obtain ⟨-, ⟨-, -, hu⟩ | ⟨-, -, old, -, ⟨-, Y, hY, hu⟩ | ⟨-, hu⟩⟩⟩ := takeFrame_cases h
  · rw [hu]
  · rw [hu]
    exact block_blit_ne fun he => hX (he ▸ hY)
  · rw [hu]

theorem swap_block (h : s.swap P p = some (q, t)) (ha : s.activePageMap q ≠ some (s.swapPage p)) :
    block t.mainMemory PageSize q = block s.swapFile PageSize (s.swapPage p) := by
  obtain ⟨e, u, he, hu, rfl⟩ := swap_eq_some h
  obtain ⟨-, rfl⟩ := entryAt_eq_some_iff.mp he
  rw [← takeFrame_swapFile hu ha, swapIn, block_blit_self]
  rfl

theorem swap_lt (hf : Frames s) (h : s.swap P p = some (q, t)) : q < NumPhysPages := by
  obtain ⟨e, u, -, hu, -⟩ := swap_eq_some h
  exact hf.takeFrame_lt hu

/-- The frame that `getPhysicalPage` finds has the contents of the page. -/
theorem getPhysicalPage_block (hf : Frames s) (h : s.getPhysicalPage P p = some (q, t)) :
    q < NumPhysPages ∧ block t.mainMemory PageSize q = s.contents (s.swapPage p) := by
  obtain ⟨e, he, h⟩ := getPhysicalPage_eq_some h
  obtain ⟨-, rfl⟩ := entryAt_eq_some_iff.mp he
  rcases h with ⟨hq, rfl⟩ | ⟨habs, h⟩
  · exact ⟨(frameOf_eq_some_iff.mp hq).1, (contents_of_frameOf hq).symm⟩
  · have hlt := swap_lt hf h
    rw [swapPage, contents_of_absent habs]
    exact ⟨hlt, swap_block h (frameOf_eq_none_iff.mp habs q hlt)⟩

theorem kernelPtr_natCast (id vAddr : ℕ) : kernelPtr id vAddr = entryPtr id vAddr := by
  rw [kernelPtr, entryPtr, ← Int.ofNat_tdiv, Int.toNat_natCast]

theorem kernelAddr_natCast {vAddr size a : ℕ} (h : s.kernelAddr P id vAddr size = some (a, t)) :
    ∃ q, s.getPhysicalPage P (entryPtr id vAddr) = some (q, t) ∧
      a = q * PageSize + vAddr % PageSize := by
  obtain ⟨-, q, hq, ha, -⟩ := kernelAddr_eq_some h
  rw [kernelPtr_natCast] at hq
  rw [← Int.ofNat_tmod] at ha
  exact ⟨q, hq, by exact_mod_cast ha⟩

theorem mainMemory_eq_byteAt {addr m : ℕ} (hin : addr % PageSize + m < PageSize)
    (hb : block t.mainMemory PageSize q = s.contents (s.swapPage (entryPtr id addr))) :
    t.mainMemory (q * PageSize + addr % PageSize + m) = s.byteAt id (addr + m) := by
  obtain ⟨hd, hm⟩ := div_mod_add hin
  have hi := congrFun hb ⟨addr % PageSize + m, hin⟩
  simp only [byteAt, entryPtr, hd, hm]
  rw [Nat.add_assoc]
  exact hi

theorem getMemFromVAddr_byteAt {vAddr size : ℕ} {bs : List UInt8} (hf : Frames s)
    (hin : vAddr % PageSize + size ≤ PageSize)
    (h : s.getMemFromVAddr P id vAddr size = some (bs, t)) :
    bs = (List.range size).map fun i => s.byteAt id (vAddr + i) := by
  obtain ⟨a, ha, rfl⟩ := getMemFromVAddr_eq_some h
  obtain ⟨q, hq, ha'⟩ := kernelAddr_natCast ha
  refine List.map_congr_left fun i hi => ?_
  rw [ha']
  exact mainMemory_eq_byteAt (by have := List.mem_range.mp hi; omega)
    (getPhysicalPage_block hf hq).2

theorem State.Accessible.in_page {addr : ℕ} {size : Size} (h : s.Accessible id addr size.bytes) :
    addr % PageSize + size.bytes ≤ PageSize := by
  have ha := h.1
  unfold PageSize
  cases size with
  | byte =>
    simp only [Size.bytes]
    omega
  | half =>
    have : addr % 2 = 0 := by simpa [Size.bytes] using ha
    simp only [Size.bytes]
    omega
  | word =>
    have : addr % 4 = 0 := by simpa [Size.bytes] using ha
    simp only [Size.bytes]
    omega

theorem State.Accessible.live_add {addr m : ℕ} {size : Size} (h : s.Accessible id addr size.bytes)
    (hm : m < size.bytes) : s.Live (entryPtr id (addr + m)) := by
  have hin := h.in_page
  have hlive := h.live
  rwa [entryPtr, (div_mod_add (by omega)).1]

/-- A user-mode load that meets no page fault returns the bytes of its range. -/
theorem readValue_byteAt {addr : ℕ} {size : Size} {w : Bool} (hf : Frames s)
    (h : Access P id addr size.bytes w s (some q) t) :
    readValue size (fun i => t.mainMemory (q * PageSize + addr % PageSize + i)) =
      readValue size fun i => s.byteAt id (addr + i) := by
  cases h with
  | hit ha hv hu hq =>
    have hin := ha.in_page
    exact readValue_congr fun i hi =>
      mainMemory_eq_byteAt (by omega) (getPhysicalPage_block hf hu).2

/-- If a page is brought in now, this byte of the swap page is not lost: its frame is not the
victim, or it is dirty and written back, or the swap file has the byte already. -/
def State.Keeps (P : Replacement σ) (s : State σ) (X : ℕ) (i : Fin PageSize) : Prop :=
  s.memMap.numClear = 0 → s.activePageMap (s.victim P) = some X →
    (∃ old, s.activePages (s.victim P) = some old ∧ (s.pageTable old).dirty = true) ∨
      block s.mainMemory PageSize (s.victim P) i = block s.swapFile PageSize X i

theorem swap_contents (hr : SingleResidence s) (hf : Frames s)
    (habs : s.frameOf (s.swapPage p) = none) (hk : s.Keeps P X i)
    (h : s.swap P p = some (q, t)) : t.contents X i = s.contents X i := by
  have hr' := hr.swap habs h
  have hlt := swap_lt hf h
  have hmap := activePageMap_swap h
  have hother := swap_block h (frameOf_eq_none_iff.mp habs q hlt)
  by_cases hX : X = s.swapPage p
  · subst hX
    rw [contents_of_absent habs, contents_of_frameOf
      (hr'.frameOf_eq hlt (by simp [hmap, swapPage])), hother]
  obtain ⟨e, u, he, hu, rfl⟩ := swap_eq_some h
  obtain ⟨-, rfl⟩ := entryAt_eq_some_iff.mp he
  cases hfX : s.frameOf X with
  | none =>
    have hnone := frameOf_eq_none_iff.mp hfX
    have habs' : (u.swapIn q p (s.pageTable p).physicalPage).frameOf X = none := by
      refine frameOf_eq_none_iff.mpr fun j hj => ?_
      rw [hmap, update_apply]
      split
      · exact fun hc => hX (Option.some.inj hc).symm
      · exact hnone j hj
    rw [contents_of_absent habs', contents_of_absent hfX]
    exact congrFun (takeFrame_swapFile hu (hnone q hlt)) i
  | some f =>
    obtain ⟨hflt, hfX', -⟩ := frameOf_eq_some_iff.mp hfX
    by_cases hfq : f = q
    · -- the page was in the frame that is taken
      subst hfq
      have habs' : (u.swapIn f p (s.pageTable p).physicalPage).frameOf X = none := by
        refine frameOf_eq_none_iff.mpr fun j hj => ?_
        rw [hmap, update_apply]
        split
        · exact fun hc => hX (Option.some.inj hc).symm
        · exact fun hc => absurd (hr j hj f hflt X hc hfX') ‹_›
      rw [contents_of_absent habs', contents_of_frameOf hfX]
      change block u.swapFile PageSize X i = _
      obtain ⟨-, ⟨hfree, -⟩ | ⟨hz, hv, old, ho, hcase⟩⟩ := takeFrame_cases hu
      · have hused := (hf.used f hflt).mpr (by simp [hfX'])
        rw [hfree] at hused
        cases hused
      · rcases hcase with ⟨-, Y, hY, hsw⟩ | ⟨hclean, hsw⟩
        · obtain rfl : X = Y := Option.some.inj (hfX'.symm.trans hY)
          rw [hsw, block_blit_self]
          rfl
        · rw [hsw]
          rcases hk hz (hv ▸ hfX') with ⟨old', ho', hd⟩ | hsame
          · rw [← hv, ho] at ho'
            obtain rfl := Option.some.inj ho'
            rw [hclean] at hd
            cases hd
          · rw [hv]
            exact hsame.symm
    · have hfr : (u.swapIn q p (s.pageTable p).physicalPage).frameOf X = some f :=
        hr'.frameOf_eq hflt (by rw [hmap, update_of_ne hfq]; exact hfX')
      rw [contents_of_frameOf hfr, contents_of_frameOf hfX]
      rw [swapIn, block_blit_ne hfq, (takeFrame_cases hu).1]

end Nachos.VM
