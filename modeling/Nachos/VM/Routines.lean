import Nachos.VM.AddrSpace

/-! # What the routines do

One inversion lemma for each routine: from its result, what it found and which
state it left. The later modules use these and do not open the routines again.
-/

namespace Nachos.VM

open Function Bytes

variable {σ : Type} {P : Replacement σ} {s t : State σ} {p : EntryPtr} {e : TranslationEntry}
  {q n id addr : ℕ} {vAddr : ℤ}

namespace State

theorem entryAt_eq_some_iff :
    s.entryAt p = some e ↔ (∃ n, s.numPages p.space = some n ∧ p.page < n) ∧ s.pageTable p = e := by
  unfold entryAt
  cases h : s.numPages p.space with
  | none => simp
  | some n => simp

theorem frameOf_eq_some_iff {sPage : ℕ} : s.frameOf sPage = some q ↔
    q < NumPhysPages ∧ s.activePageMap q = some sPage ∧
      ∀ i < q, s.activePageMap i ≠ some sPage := by
  simp only [frameOf, List.find?_range_eq_some, List.mem_range, Bool.not_eq_true', beq_iff_eq,
    beq_eq_false_iff_ne]
  tauto

theorem frameOf_eq_none_iff {sPage : ℕ} :
    s.frameOf sPage = none ↔ ∀ i < NumPhysPages, s.activePageMap i ≠ some sPage := by
  simp [frameOf]

theorem allocPage_eq_some {page : ℕ} (h : s.allocPage = some (page, t)) :
    page < s.swapMap.numBits ∧ s.swapMap.test page = false ∧
      (∀ i < page, s.swapMap.test i = true) ∧
      t = { s with
        swapMap := s.swapMap.mark page
        diskBuffer := blit s.diskBuffer 0 PageSize fun _ => 0
        swapFile := blit s.swapFile (page * PageSize) PageSize fun _ => 0 } := by
  simp only [allocPage, Option.map_eq_some_iff, Prod.mk.injEq] at h
  obtain ⟨⟨i, m⟩, hf, rfl, rfl⟩ := h
  obtain ⟨h₁, h₂, h₃, rfl⟩ := BitMap.find_eq_some_iff.mp hf
  exact ⟨h₁, h₂, h₃, rfl⟩

theorem clearBits_of_allocPage {page : ℕ} (h : s.allocPage = some (page, t)) :
    s.swapMap.clearBits = page :: t.swapMap.clearBits := by
  simp only [allocPage, Option.map_eq_some_iff, Prod.mk.injEq] at h
  obtain ⟨⟨i, m⟩, hf, rfl, rfl⟩ := h
  exact BitMap.clearBits_of_find hf

/-- An evicted page is written to its swap page if its entry is dirty. -/
theorem evict_eq_some (h : s.evict q = some t) : ∃ old e, s.activePages q = some old ∧
    s.entryAt old = some e ∧
    ((e.dirty = true ∧ ∃ sPage, s.activePageMap q = some sPage ∧
        t = { s.setEntry old { e with use := false, dirty := false } with
          diskBuffer := blit s.diskBuffer 0 PageSize fun i => s.mainMemory (q * PageSize + i)
          swapFile := blit s.swapFile (sPage * PageSize) PageSize
            fun i => s.mainMemory (q * PageSize + i) }) ∨
      (e.dirty = false ∧ t = s.setEntry old { e with use := false })) := by
  simp only [evict, Option.bind_eq_bind, Option.bind_eq_some_iff] at h
  obtain ⟨old, ho, e, he, h⟩ := h
  refine ⟨old, e, ho, he, ?_⟩
  split at h
  case isTrue hd =>
    obtain ⟨sPage, hs, ht⟩ := Option.bind_eq_some_iff.mp h
    exact .inl ⟨hd, sPage, hs, (Option.some.inj ht).symm⟩
  case isFalse hd => exact .inr ⟨by simpa using hd, (Option.some.inj h).symm⟩

theorem takeFrame_eq_some (h : s.takeFrame P = some (q, t)) :
    (q < s.memMap.numBits ∧ s.memMap.test q = false ∧
      t = { s with memMap := s.memMap.mark q, policy := P.pageUsed q s.policy }) ∨
    (s.memMap.numClear = 0 ∧ q = (P.getReplacement s.policy).1 ∧
      evict q { s with policy := (P.getReplacement s.policy).2 } = some t) := by
  unfold takeFrame at h
  split at h
  case isTrue =>
    simp only [Option.map_eq_some_iff, Prod.mk.injEq] at h
    obtain ⟨⟨i, m⟩, hf, rfl, rfl⟩ := h
    obtain ⟨h₁, h₂, -, rfl⟩ := BitMap.find_eq_some_iff.mp hf
    exact .inl ⟨h₁, h₂, rfl⟩
  case isFalse hz =>
    simp only [Option.map_eq_some_iff, Prod.mk.injEq] at h
    obtain ⟨u, hu, rfl, rfl⟩ := h
    exact .inr ⟨by omega, rfl, hu⟩

theorem swap_eq_some (h : s.swap P p = some (q, t)) : ∃ e u, s.entryAt p = some e ∧
    s.takeFrame P = some (q, u) ∧ t = u.swapIn q p e.physicalPage := by
  simp only [swap, Option.bind_eq_bind, Option.bind_eq_some_iff] at h
  obtain ⟨e, he, ⟨i, u⟩, hu, h⟩ := h
  simp only [Option.some.injEq, Prod.mk.injEq] at h
  obtain ⟨rfl, rfl⟩ := h
  exact ⟨e, u, he, hu, rfl⟩

theorem getPhysicalPage_eq_some (h : s.getPhysicalPage P p = some (q, t)) :
    ∃ e, s.entryAt p = some e ∧
      ((s.frameOf e.physicalPage = some q ∧ t = s) ∨
        (s.frameOf e.physicalPage = none ∧ s.swap P p = some (q, t))) := by
  simp only [getPhysicalPage, Option.bind_eq_bind, Option.bind_eq_some_iff] at h
  obtain ⟨e, he, h⟩ := h
  refine ⟨e, he, ?_⟩
  cases hf : s.frameOf e.physicalPage with
  | none => exact .inr ⟨rfl, by simpa [hf] using h⟩
  | some i =>
    have hi : i = q ∧ s = t := by simpa [hf] using h
    exact .inl ⟨by rw [hi.1], hi.2.symm⟩

theorem clearPage_eq_some {sPage : ℕ} (h : s.clearPage P sPage = some t) :
    ∃ pPage, s.frameOf sPage = some pPage ∧ pPage < s.memMap.numBits ∧
      sPage < s.swapMap.numBits ∧
      t = { s with
        diskBuffer := blit s.diskBuffer 0 PageSize fun _ => 0
        activePageMap := update s.activePageMap pPage none
        activePages := update s.activePages pPage none
        memMap := s.memMap.clear pPage
        swapFile := blit s.swapFile (sPage * PageSize) PageSize fun _ => 0
        swapMap := s.swapMap.clear sPage
        policy := P.clearPage pPage s.policy } := by
  unfold clearPage at h
  split at h
  case h_1 => cases h
  case h_2 pPage hf =>
    simp only [Option.ite_none_right_eq_some, Option.some.injEq] at h
    exact ⟨pPage, hf, h.1.1, h.1.2, h.2.symm⟩

/-! ## Accesses -/

def entryPtr (id addr : ℕ) : EntryPtr := ⟨id, addr / PageSize⟩

/-- The access is aligned and inside the address space. -/
def Accessible (s : State σ) (id addr size : ℕ) : Prop :=
  ¬ (size = 4 ∧ addr % 4 ≠ 0 ∨ size = 2 ∧ addr % 2 ≠ 0) ∧
    ∃ n, s.numPages id = some n ∧ addr / PageSize < n

def touch (p : EntryPtr) (writing : Bool) (s : State σ) : State σ :=
  s.setEntry p { s.pageTable p with use := true, dirty := (s.pageTable p).dirty || writing }

theorem translate_cases {size : ℕ} {w : Bool} {r : Except Exception ℕ}
    (h : s.translate P id addr size w = some (r, t)) :
    (∃ e, r = .error e ∧ e ≠ .pageFault) ∨
    s.Accessible id addr size ∧ (s.pageTable (entryPtr id addr)).valid = false ∧
      r = .error .pageFault ∧ t = s ∨
    s.Accessible id addr size ∧ (s.pageTable (entryPtr id addr)).valid = true ∧
      ∃ q u, s.getPhysicalPage P (entryPtr id addr) = some (q, u) ∧ q < NumPhysPages ∧
        q * PageSize + addr % PageSize + size ≤ MemorySize ∧
        r = .ok (q * PageSize + addr % PageSize) ∧
        t = (u.markPage P q).touch (entryPtr id addr) w := by
  unfold State.translate at h
  split at h
  case isTrue =>
    cases h
    exact .inl ⟨_, rfl, by decide⟩
  case isFalse ha =>
    obtain ⟨n, hn, h⟩ := Option.bind_eq_some_iff.mp h
    dsimp only at h
    split_ifs at h with h₁ h₂ h₃
    · cases h
      exact .inl ⟨_, rfl, by decide⟩
    · cases h
      exact .inr (.inl ⟨⟨ha, n, hn, Nat.lt_of_not_le h₁⟩, by simpa [entryPtr] using h₂, rfl, rfl⟩)
    · cases h
      exact .inl ⟨_, rfl, by decide⟩
    · obtain ⟨⟨q, u⟩, hu, h⟩ := Option.bind_eq_some_iff.mp h
      dsimp only at h
      split_ifs at h with h₄ h₅
      · cases h
        exact .inl ⟨_, rfl, by decide⟩
      · cases h
        exact .inr (.inr ⟨⟨ha, n, hn, Nat.lt_of_not_le h₁⟩, by simpa [entryPtr] using h₂, q, u, hu,
          Nat.lt_of_not_le h₄, h₅, rfl, rfl⟩)

theorem translate_ok {size a : ℕ} {w : Bool}
    (h : s.translate P id addr size w = some (.ok a, t)) :
    s.Accessible id addr size ∧ (s.pageTable (entryPtr id addr)).valid = true ∧
    ∃ q u, s.getPhysicalPage P (entryPtr id addr) = some (q, u) ∧ q < NumPhysPages ∧
      a = q * PageSize + addr % PageSize ∧ a + size ≤ MemorySize ∧
      t = (u.markPage P q).touch (entryPtr id addr) w := by
  obtain ⟨e, he, -⟩ | ⟨-, -, he, -⟩ | ⟨hacc, hvalid, q, u, hu, hq, hm, he, rfl⟩ := translate_cases h
  · cases he
  · cases he
  · cases he
    exact ⟨hacc, hvalid, q, u, hu, hq, rfl, hm, rfl⟩

theorem translate_pageFault {size : ℕ} {w : Bool}
    (h : s.translate P id addr size w = some (.error .pageFault, t)) :
    s.Accessible id addr size ∧ (s.pageTable (entryPtr id addr)).valid = false ∧ t = s := by
  obtain ⟨e, he, hne⟩ | ⟨hacc, hvalid, -, rfl⟩ | ⟨-, -, q, u, -, -, -, he, -⟩ := translate_cases h
  · cases he
    exact absurd rfl hne
  · exact ⟨hacc, hvalid, rfl⟩
  · cases he

theorem pageFaultHandler_eq_some (h : s.pageFaultHandler P id addr = some t) :
    ∃ q u, s.swap P (entryPtr id addr) = some (q, u) ∧
      t = u.setEntry (entryPtr id addr) { u.pageTable (entryPtr id addr) with valid := true } := by
  simp only [pageFaultHandler, Option.bind_eq_bind, Option.bind_eq_some_iff] at h
  obtain ⟨⟨q, u⟩, hu, h⟩ := h
  exact ⟨q, u, hu, (Option.some.inj h).symm⟩

/-- What a user-mode access finds: a page fault that is served, or the frame of the page. -/
inductive Access (P : Replacement σ) (id addr size : ℕ) (w : Bool) (s : State σ) :
    Option ℕ → State σ → Prop
  | fault {q : ℕ} {u : State σ} : s.Accessible id addr size →
      (s.pageTable (entryPtr id addr)).valid = false →
      s.swap P (entryPtr id addr) = some (q, u) →
      Access P id addr size w s none
        (u.setEntry (entryPtr id addr) { u.pageTable (entryPtr id addr) with valid := true })
  | hit {q : ℕ} {u : State σ} : s.Accessible id addr size →
      (s.pageTable (entryPtr id addr)).valid = true →
      s.getPhysicalPage P (entryPtr id addr) = some (q, u) → q < NumPhysPages →
      Access P id addr size w s (some q) ((u.markPage P q).touch (entryPtr id addr) w)

theorem Access.accessible {size : ℕ} {w : Bool} {r : Option ℕ}
    (h : Access P id addr size w s r t) : s.Accessible id addr size := by
  cases h with
  | fault ha _ _ => exact ha
  | hit ha _ _ _ => exact ha

theorem access_of_exception {size : ℕ} {w : Bool} {x : Exception} {u : State σ}
    (h : s.translate P id addr size w = some (.error x, u))
    (hx : u.exceptionHandler P id addr x = some t) : Access P id addr size w s none t := by
  cases x with
  | pageFault =>
    obtain ⟨ha, hv, rfl⟩ := translate_pageFault h
    obtain ⟨q, u', hu, rfl⟩ := pageFaultHandler_eq_some hx
    exact .fault ha hv hu
  | _ => cases hx

theorem readMem_eq_some {size : Size} {v : Option (BitVec 32)}
    (h : s.readMem P id addr size = some (v, t)) :
    (v = none ∧ Access P id addr size.bytes false s none t) ∨
    ∃ q, Access P id addr size.bytes false s (some q) t ∧
      v = some (readValue size fun i => t.mainMemory (q * PageSize + addr % PageSize + i)) := by
  simp only [readMem, Option.bind_eq_bind, Option.bind_eq_some_iff] at h
  obtain ⟨⟨r, u⟩, hu, h⟩ := h
  cases r with
  | error x =>
    simp only [Option.map_eq_some_iff, Prod.mk.injEq] at h
    obtain ⟨t', ht, rfl, rfl⟩ := h
    exact .inl ⟨rfl, access_of_exception hu ht⟩
  | ok a =>
    simp only [Option.some.injEq, Prod.mk.injEq] at h
    obtain ⟨rfl, rfl⟩ := h
    obtain ⟨ha, hv, q, u', hq, hlt, rfl, -, rfl⟩ := translate_ok hu
    exact .inr ⟨q, .hit ha hv hq hlt, rfl⟩

theorem writeMem_eq_some {size : Size} {value : BitVec 32} {b : Bool}
    (h : s.writeMem P id addr size value = some (b, t)) :
    (b = false ∧ Access P id addr size.bytes true s none t) ∨
    ∃ q u, Access P id addr size.bytes true s (some q) u ∧ b = true ∧
      t = { u with
        mainMemory := blit u.mainMemory (q * PageSize + addr % PageSize) size.bytes
          (valueByte value) } := by
  simp only [writeMem, Option.bind_eq_bind, Option.bind_eq_some_iff] at h
  obtain ⟨⟨r, u⟩, hu, h⟩ := h
  cases r with
  | error x =>
    simp only [Option.map_eq_some_iff, Prod.mk.injEq] at h
    obtain ⟨t', ht, rfl, rfl⟩ := h
    exact .inl ⟨rfl, access_of_exception hu ht⟩
  | ok a =>
    simp only [Option.some.injEq, Prod.mk.injEq] at h
    obtain ⟨rfl, rfl⟩ := h
    obtain ⟨ha, hv, q, u', hq, hlt, rfl, -, rfl⟩ := translate_ok hu
    exact .inr ⟨q, _, .hit ha hv hq hlt, rfl, rfl⟩

def kernelPtr (id : ℕ) (vAddr : ℤ) : EntryPtr := ⟨id, (vAddr.tdiv PageSize).toNat⟩

theorem kernelAddr_eq_some {size a : ℕ} (h : s.kernelAddr P id vAddr size = some (a, t)) :
    0 ≤ vAddr.tdiv PageSize ∧ ∃ q, s.getPhysicalPage P (kernelPtr id vAddr) = some (q, t) ∧
      (a : ℤ) = q * PageSize + vAddr.tmod PageSize ∧ a + size ≤ MemorySize := by
  simp only [kernelAddr, spaceTranslate, Option.bind_eq_bind, Option.bind_eq_some_iff] at h
  obtain ⟨⟨r, u⟩, ⟨n, hn, hu⟩, b, rfl, h⟩ := h
  simp only [Option.ite_none_right_eq_some, Option.some.injEq, Prod.mk.injEq] at h
  obtain ⟨hb, rfl, rfl⟩ := h
  split_ifs at hu with hv
  · simp at hu
  · simp only [Option.bind_eq_some_iff, Option.some.injEq, Prod.mk.injEq] at hu
    obtain ⟨⟨q, u'⟩, hq, rfl, rfl⟩ := hu
    refine ⟨by omega, q, hq, Int.toNat_of_nonneg hb.1, ?_⟩
    have := hb.2
    omega

theorem getMemFromVAddr_eq_some {size : ℕ} {bs : List UInt8}
    (h : s.getMemFromVAddr P id vAddr size = some (bs, t)) :
    ∃ a, s.kernelAddr P id vAddr size = some (a, t) ∧
      bs = (List.range size).map fun i => t.mainMemory (a + i) := by
  simp only [getMemFromVAddr, Option.bind_eq_bind, Option.bind_eq_some_iff] at h
  obtain ⟨⟨a, u⟩, hu, h⟩ := h
  simp only [Option.some.injEq, Prod.mk.injEq] at h
  obtain ⟨rfl, rfl⟩ := h
  exact ⟨a, hu, rfl⟩

theorem storeBuffer_eq_some {buffer : List UInt8} (h : s.storeBuffer P id vAddr buffer = some t) :
    ∃ a u, (s.setBuffer buffer.length fun i => buffer.getD i 0).kernelAddr P id vAddr
        buffer.length = some (a, u) ∧
      t = { u with mainMemory := blit u.mainMemory a buffer.length u.diskBuffer } := by
  obtain ⟨-, h⟩ := Option.ite_none_right_eq_some.mp h
  simp only [putMemIntoVAddr, Option.bind_eq_bind, Option.bind_eq_some_iff] at h
  obtain ⟨⟨a, u⟩, hu, h⟩ := h
  exact ⟨a, u, hu, (Option.some.inj h).symm⟩

theorem getString_eq_some {bs : List UInt8} (h : s.getString P id vAddr = some (bs, t)) :
    ∃ a, s.kernelAddr P id vAddr 0 = some (a, t) := by
  simp only [getString, Option.bind_eq_bind, Option.bind_eq_some_iff] at h
  obtain ⟨⟨a, u⟩, hu, size, -, h⟩ := h
  simp only [Option.some.injEq, Prod.mk.injEq] at h
  obtain ⟨-, rfl⟩ := h
  exact ⟨a, hu⟩

/-! ## Creation, exit and fork -/

theorem allocPages_succ {i : ℕ} (h : s.allocPages id (i + 1) = some t) :
    ∃ u page v, s.allocPages id i = some u ∧ u.allocPage = some (page, v) ∧
      t = v.setEntry ⟨id, i⟩ (newEntry i page) := by
  simp only [allocPages, Option.bind_eq_bind, Option.bind_eq_some_iff] at h
  obtain ⟨u, hu, ⟨page, v⟩, hv, h⟩ := h
  exact ⟨u, page, v, hu, hv, (Option.some.inj h).symm⟩

theorem clearPages_succ {i : ℕ} (h : s.clearPages P id (i + 1) = some t) :
    ∃ u q v, s.clearPages P id i = some u ∧ u.getPhysicalPage P ⟨id, i⟩ = some (q, v) ∧
      v.clearPage P (v.pageTable ⟨id, i⟩).physicalPage = some t := by
  simp only [clearPages, Option.bind_eq_bind, Option.bind_eq_some_iff] at h
  obtain ⟨u, hu, ⟨q, v⟩, hv, h⟩ := h
  exact ⟨u, q, v, hu, hv, h⟩

/-- What `getPhysicalPage` and `clearPage` preserve, the loop of `~AddrSpace` preserves. -/
theorem clearPages_preserves {I : State σ → Prop} {n : ℕ}
    (hget : ∀ u p q v, I u → getPhysicalPage P p u = some (q, v) → I v)
    (hclear : ∀ u page v, I u → clearPage P page u = some v → I v)
    (h : I s) (hs : s.clearPages P id n = some t) : I t := by
  induction n generalizing t with
  | zero => exact Option.some.inj hs ▸ h
  | succ n ih =>
    obtain ⟨u, q, v, hu, hv, ht⟩ := clearPages_succ hs
    exact hclear v _ t (hget u _ q v (ih hu) hv) ht

theorem copyPages_succ {i spaceDest : ℕ} (h : s.copyPages id spaceDest (i + 1) = some t) :
    ∃ u page v, s.copyPages id spaceDest i = some u ∧ u.allocPage = some (page, v) ∧
      t = (v.setEntry ⟨spaceDest, i⟩ (newEntry i page)).copy
        ((v.setEntry ⟨spaceDest, i⟩ (newEntry i page)).pageTable ⟨id, i⟩).physicalPage page := by
  simp only [copyPages, Option.bind_eq_bind, Option.bind_eq_some_iff] at h
  obtain ⟨u, hu, ⟨page, v⟩, hv, h⟩ := h
  exact ⟨u, page, v, hu, hv, (Option.some.inj h).symm⟩

structure SameFrames (s t : State σ) : Prop where
  mainMemory : t.mainMemory = s.mainMemory
  memMap : t.memMap = s.memMap
  activePageMap : t.activePageMap = s.activePageMap
  activePages : t.activePages = s.activePages
  policy : t.policy = s.policy
  numPages : t.numPages = s.numPages

theorem SameFrames.refl (s : State σ) : SameFrames s s := ⟨rfl, rfl, rfl, rfl, rfl, rfl⟩

theorem allocPages_sameFrames (h : s.allocPages id n = some t) : SameFrames s t := by
  induction n generalizing t with
  | zero => exact Option.some.inj h ▸ .refl s
  | succ n ih =>
    obtain ⟨u, page, v, hu, hv, rfl⟩ := allocPages_succ h
    obtain ⟨-, -, -, rfl⟩ := allocPage_eq_some hv
    obtain ⟨h₁, h₂, h₃, h₄, h₅, h₆⟩ := ih hu
    exact ⟨h₁, h₂, h₃, h₄, h₅, h₆⟩

theorem copyPages_sameFrames {spaceDest : ℕ} (h : s.copyPages id spaceDest n = some t) :
    SameFrames s t := by
  induction n generalizing t with
  | zero => exact Option.some.inj h ▸ .refl s
  | succ n ih =>
    obtain ⟨u, page, v, hu, hv, rfl⟩ := copyPages_succ h
    obtain ⟨-, -, -, rfl⟩ := allocPage_eq_some hv
    obtain ⟨h₁, h₂, h₃, h₄, h₅, h₆⟩ := ih hu
    exact ⟨h₁, h₂, h₃, h₄, h₅, h₆⟩

theorem readFile_eq_some {x : NoffFile} {turns : ℕ} {size fileAddr copySize : ℤ}
    (h : s.readFile id x turns vAddr size fileAddr copySize = some t) :
    ∃ f b, t = { s with swapFile := f, diskBuffer := b } := by
  induction turns generalizing s vAddr size fileAddr copySize with
  | zero =>
    simp only [readFile, Option.ite_none_left_eq_some, Option.some.injEq] at h
    exact ⟨s.swapFile, s.diskBuffer, h.2.symm⟩
  | succ turns ih =>
    simp only [readFile] at h
    split at h
    case isTrue =>
      split at h
      · cases h
      · simp only [Option.bind_eq_bind, Option.bind_eq_some_iff] at h
        obtain ⟨e, -, h⟩ := h
        split at h
        · cases h
        · obtain ⟨f, b, rfl⟩ := ih h
          exact ⟨f, b, rfl⟩
    case isFalse => exact ⟨s.swapFile, s.diskBuffer, (Option.some.inj h).symm⟩

theorem readSegment_eq_some {x : NoffFile} {g : Segment} (h : s.readSegment id x g = some t) :
    ∃ f b, t = { s with swapFile := f, diskBuffer := b } := by
  unfold readSegment at h
  split at h
  · exact readFile_eq_some h
  · exact ⟨s.swapFile, s.diskBuffer, (Option.some.inj h).symm⟩

theorem create_eq_some {x : NoffFile} (h : s.create id x = some t) :
    (s.numPages id = none ∧ x.noffMagic = NOFFMAGIC ∧ x.numPages ≤ s.swapMap.numClear) ∧
    ∃ u v,
      (s.setNumPages id x.numPages).allocPages id x.numPages = some u ∧
      u.readSegment id x x.code = some v ∧ v.readSegment id x x.initData = some t := by
  simp only [create, Option.ite_none_right_eq_some, Option.bind_eq_bind,
    Option.bind_eq_some_iff] at h
  obtain ⟨hc, u, hu, v, hv, h⟩ := h
  exact ⟨hc, u, v, hu, hv, h⟩

theorem create_sameFrames {x : NoffFile} (h : s.create id x = some t) :
    SameFrames (s.setNumPages id x.numPages) t := by
  obtain ⟨-, u, v, hu, hv, hw⟩ := create_eq_some h
  obtain ⟨f, b, rfl⟩ := readSegment_eq_some hv
  obtain ⟨g, c, rfl⟩ := readSegment_eq_some hw
  obtain ⟨h₁, h₂, h₃, h₄, h₅, h₆⟩ := allocPages_sameFrames hu
  exact ⟨h₁, h₂, h₃, h₄, h₅, h₆⟩

theorem destroy_eq_some (h : s.destroy P id = some t) :
    ∃ n u, s.numPages id = some n ∧ s.clearPages P id n = some u ∧
      t = u.setNumPages id none := by
  simp only [destroy, Option.bind_eq_bind, Option.bind_eq_some_iff] at h
  obtain ⟨n, hn, u, hu, h⟩ := h
  exact ⟨n, u, hn, hu, (Option.some.inj h).symm⟩

theorem copyAddrSpace_eq_some {spaceDest : ℕ} (h : s.copyAddrSpace id spaceDest = some t) :
    ∃ n, s.numPages id = some n ∧ s.numPages spaceDest = none ∧
      (s.setNumPages spaceDest n).copyPages id spaceDest n = some t := by
  simp only [copyAddrSpace, Option.bind_eq_bind, Option.bind_eq_some_iff,
    Option.ite_none_right_eq_some] at h
  exact h

end State

open State

inductive Effect (P : Replacement σ) (s : State σ) : Action → Output → State σ → Prop
  | create {t : State σ} {id : ℕ} {x : NoffFile} : s.create id x = some t →
      Effect P s (.create id x) .done t
  | loadFault {t : State σ} {id addr : ℕ} {size : Size} :
      Access P id addr size.bytes false s none t → Effect P s (.load id addr size) .faulted t
  | load {t : State σ} {id addr q : ℕ} {size : Size} :
      Access P id addr size.bytes false s (some q) t →
      Effect P s (.load id addr size)
        (.value (readValue size fun i => t.mainMemory (q * PageSize + addr % PageSize + i))) t
  | storeFault {t : State σ} {id addr : ℕ} {size : Size} {value : BitVec 32} :
      Access P id addr size.bytes true s none t →
      Effect P s (.store id addr size value) .faulted t
  | store {u : State σ} {id addr q : ℕ} {size : Size} {value : BitVec 32} :
      Access P id addr size.bytes true s (some q) u →
      Effect P s (.store id addr size value) .done
        { u with
          mainMemory := blit u.mainMemory (q * PageSize + addr % PageSize) size.bytes
            (valueByte value) }
  | exit {t : State σ} {id : ℕ} : s.destroy P id = some t → Effect P s (.exit id) .done t
  | fork {t : State σ} {id spaceDest : ℕ} : s.copyAddrSpace id spaceDest = some t →
      Effect P s (.fork id spaceDest) .done t
  | getMem {t : State σ} {id size a : ℕ} {vAddr : ℤ} :
      s.kernelAddr P id vAddr size = some (a, t) →
      Effect P s (.getMem id vAddr size)
        (.bytes ((List.range size).map fun i => t.mainMemory (a + i))) t
  | putMem {u : State σ} {id a : ℕ} {vAddr : ℤ} {buffer : List UInt8} :
      (s.setBuffer buffer.length fun i => buffer.getD i 0).kernelAddr P id vAddr buffer.length =
        some (a, u) →
      Effect P s (.putMem id vAddr buffer) .done
        { u with mainMemory := blit u.mainMemory a buffer.length u.diskBuffer }
  | getString {t : State σ} {id a : ℕ} {vAddr : ℤ} {bs : List UInt8} :
      s.kernelAddr P id vAddr 0 = some (a, t) → Effect P s (.getString id vAddr) (.bytes bs) t

theorem effect_of_act {a : Action} {o : Output} (h : act P s a = some (o, t)) :
    Effect P s a o t := by
  cases a with
  | create id x =>
    simp only [act, Option.map_eq_some_iff, Prod.mk.injEq] at h
    obtain ⟨t', ht, rfl, rfl⟩ := h
    exact .create ht
  | load id addr size =>
    simp only [act, Option.map_eq_some_iff, Prod.mk.injEq] at h
    obtain ⟨⟨v, t'⟩, ht, rfl, rfl⟩ := h
    obtain ⟨rfl, ha⟩ | ⟨q, ha, rfl⟩ := readMem_eq_some ht
    · exact .loadFault ha
    · exact .load ha
  | store id addr size value =>
    simp only [act, Option.map_eq_some_iff, Prod.mk.injEq] at h
    obtain ⟨⟨b, t'⟩, ht, rfl, rfl⟩ := h
    obtain ⟨rfl, ha⟩ | ⟨q, u, ha, rfl, rfl⟩ := writeMem_eq_some ht
    · exact .storeFault ha
    · exact .store ha
  | exit id =>
    simp only [act, Option.map_eq_some_iff, Prod.mk.injEq] at h
    obtain ⟨t', ht, rfl, rfl⟩ := h
    exact .exit ht
  | fork id spaceDest =>
    simp only [act, Option.map_eq_some_iff, Prod.mk.injEq] at h
    obtain ⟨t', ht, rfl, rfl⟩ := h
    exact .fork ht
  | getMem id vAddr size =>
    simp only [act, Option.map_eq_some_iff, Prod.mk.injEq] at h
    obtain ⟨⟨bs, t'⟩, ht, rfl, rfl⟩ := h
    obtain ⟨a, ha, rfl⟩ := getMemFromVAddr_eq_some ht
    exact .getMem ha
  | putMem id vAddr buffer =>
    simp only [act, Option.map_eq_some_iff, Prod.mk.injEq] at h
    obtain ⟨t', ht, rfl, rfl⟩ := h
    obtain ⟨a, u, ha, rfl⟩ := storeBuffer_eq_some ht
    exact .putMem ha
  | getString id vAddr =>
    simp only [act, Option.map_eq_some_iff, Prod.mk.injEq] at h
    obtain ⟨⟨bs, t'⟩, ht, rfl, rfl⟩ := h
    obtain ⟨a, ha⟩ := getString_eq_some ht
    exact .getString ha

end Nachos.VM
