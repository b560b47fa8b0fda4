import Nachos.VM.Effects

/-! # Accesses and exits complete

In a state with single residence, an aligned access inside its address space
finds its page or raises a page fault that is served, and an address space can
exit.
-/

namespace Nachos.VM

open Function Bytes Transition State

variable {σ : Type} {P : Replacement σ} {s t u : State σ} {q id addr : ℕ} {size : Size} {w : Bool}

theorem bound_of_frame {a n : ℕ} (hq : q < NumPhysPages) (hin : a + n ≤ PageSize) :
    q * PageSize + a + n ≤ MemorySize := by
  have := Nat.mul_le_mul_right PageSize (Nat.succ_le_of_lt hq)
  rw [Nat.succ_mul] at this
  unfold MemorySize
  omega

theorem translate_of_hit (ha : s.Accessible id addr size.bytes)
    (hv : (s.pageTable (entryPtr id addr)).valid = true)
    (hr : (s.pageTable (entryPtr id addr)).readOnly = false)
    (hu : s.getPhysicalPage P (entryPtr id addr) = some (q, u)) (hq : q < NumPhysPages) :
    s.translate P id addr size.bytes w = some (.ok (q * PageSize + addr % PageSize),
      (u.markPage P q).touch (entryPtr id addr) w) := by
  have hbound := bound_of_frame hq ha.in_page
  obtain ⟨halign, n, hn, hlt⟩ := ha
  unfold entryPtr at hv hr hu
  unfold State.translate
  rw [if_neg halign]
  simp only [hn, Option.bind_eq_bind, Option.bind_some, Nat.not_le.mpr hlt, if_false, hv, hr, hu,
    Nat.not_le.mpr hq, hbound, if_true, Bool.not_true, Bool.false_and, Bool.false_eq_true]
  rfl

theorem translate_of_fault (ha : s.Accessible id addr size.bytes)
    (hv : (s.pageTable (entryPtr id addr)).valid = false) :
    s.translate P id addr size.bytes w = some (.error .pageFault, s) := by
  obtain ⟨halign, n, hn, hlt⟩ := ha
  unfold entryPtr at hv
  unfold State.translate
  rw [if_neg halign]
  simp only [hn, Option.bind_eq_bind, Option.bind_some, Nat.not_le.mpr hlt, if_false, hv,
    Bool.not_false, if_true]

theorem pageFaultHandler_of_swap (hu : s.swap P (entryPtr id addr) = some (q, u)) :
    s.pageFaultHandler P id addr = some (u.setEntry (entryPtr id addr)
      { u.pageTable (entryPtr id addr) with valid := true }) := by
  unfold entryPtr at hu
  simp only [pageFaultHandler, hu, Option.bind_eq_bind, Option.bind_some]
  rfl

theorem act_load_of_access {r : Option ℕ} (hr : (s.pageTable (entryPtr id addr)).readOnly = false)
    (hs : Access P id addr size.bytes false s r t) :
    act P s (.load id addr size) = some (r.elim .faulted fun q => .value (readValue size fun i =>
      t.mainMemory (q * PageSize + addr % PageSize + i)), t) := by
  cases hs with
  | fault ha hv hu =>
    simp [act, readMem, translate_of_fault ha hv, exceptionHandler, pageFaultHandler_of_swap hu]
  | hit ha hv hu hq => simp [act, readMem, translate_of_hit ha hv hr hu hq]

theorem act_store_of_access {r : Option ℕ} (value : BitVec 32)
    (hr : (s.pageTable (entryPtr id addr)).readOnly = false)
    (hs : Access P id addr size.bytes true s r t) :
    act P s (.store id addr size value) = some (r.elim .faulted fun _ => .done, r.elim t fun q =>
      { t with
        mainMemory := blit t.mainMemory (q * PageSize + addr % PageSize) size.bytes
          (valueByte value) }) := by
  cases hs with
  | fault ha hv hu =>
    simp [act, writeMem, translate_of_fault ha hv, exceptionHandler, pageFaultHandler_of_swap hu]
  | hit ha hv hu hq => simp [act, writeMem, translate_of_hit ha hv hr hu hq]

theorem State.Accessible.of_same (h : s.Accessible id addr size.bytes) (hs : SameTables s t) :
    t.Accessible id addr size.bytes := by
  rw [State.Accessible, hs.numPages]
  exact h

theorem Inv.exists_hit (h : Inv s.Live s) (ha : s.Accessible id addr size.bytes)
    (hv : (s.pageTable (entryPtr id addr)).valid = true) :
    ∃ q t, Access P id addr size.bytes w s (some q) t := by
  obtain ⟨q, t, ht⟩ := h.exists_getPhysicalPage (P := P) (fun _ hp => hp) ha.live
  exact ⟨q, _, .hit ha hv ht (getPhysicalPage_block h.frames ht).1⟩

theorem Inv.exists_access (h : Inv s.Live s) (ha : s.Accessible id addr size.bytes) :
    (∃ q t, Access P id addr size.bytes w s (some q) t) ∨
      ∃ t, Access P id addr size.bytes w s none t ∧
        (t.pageTable (entryPtr id addr)).valid = true := by
  cases hv : (s.pageTable (entryPtr id addr)).valid with
  | true => exact .inl (h.exists_hit ha hv)
  | false =>
    obtain ⟨q, t, ht⟩ := h.exists_swap (P := P) (fun _ hp => hp) ha.live
    exact .inr ⟨_, .fault ha hv ht, by simp⟩

theorem kernelAddr_of_getPhysicalPage {vAddr n : ℕ} (h : Inv s.Live s)
    (hq : s.getPhysicalPage P (entryPtr id vAddr) = some (q, t))
    (hin : vAddr % PageSize + n ≤ PageSize) :
    s.kernelAddr P id vAddr n = some (q * PageSize + vAddr % PageSize, t) := by
  obtain ⟨e, he, -⟩ := getPhysicalPage_eq_some hq
  obtain ⟨m, hm, hlt⟩ := live_of_entryAt he
  have hbound := bound_of_frame (getPhysicalPage_block h.frames hq).1 hin
  have hpage : (vAddr : ℤ).tdiv PageSize = (vAddr / PageSize : ℕ) := (Int.ofNat_tdiv _ _).symm
  have hoff : (vAddr : ℤ).tmod PageSize = (vAddr % PageSize : ℕ) := (Int.ofNat_tmod _ _).symm
  unfold entryPtr at hq hm hlt
  have hlt' : ¬ ((vAddr / PageSize : ℕ) < (0 : ℤ) ∨ (m : ℤ) ≤ (vAddr / PageSize : ℕ)) :=
    not_or.mpr ⟨Int.not_lt.mpr (Int.natCast_nonneg _), by exact_mod_cast Nat.not_le.mpr hlt⟩
  have haddr : (q : ℤ) * PageSize + (vAddr % PageSize : ℕ) =
      (q * PageSize + vAddr % PageSize : ℕ) := by simp
  have hin' : 0 ≤ ((q * PageSize + vAddr % PageSize : ℕ) : ℤ) ∧
      ((q * PageSize + vAddr % PageSize : ℕ) : ℤ) + n ≤ MemorySize := by omega
  simp only [kernelAddr, spaceTranslate, hm, Option.bind_eq_bind, Option.bind_some, hpage, hoff,
    if_neg hlt', Int.toNat_natCast, hq, haddr, if_pos hin']

theorem Inv.exists_getMem {vAddr n : ℕ} (h : Inv s.Live s) (hlive : s.Live (entryPtr id vAddr))
    (hin : vAddr % PageSize + n ≤ PageSize) :
    ∃ t, s.getMemFromVAddr P id vAddr n =
      some ((List.range n).map fun i => s.byteAt id (vAddr + i), t) := by
  obtain ⟨q, t, hq⟩ := h.exists_getPhysicalPage (P := P) (fun _ hp => hp) hlive
  obtain ⟨⟨bs, u⟩, hget⟩ : ∃ r, s.getMemFromVAddr P id vAddr n = some r :=
    ⟨_, by rw [getMemFromVAddr, kernelAddr_of_getPhysicalPage h hq hin]; rfl⟩
  obtain rfl := getMemFromVAddr_byteAt h.frames hin hget
  exact ⟨u, hget⟩

theorem Inv.exists_clearPages {m n : ℕ} (h : Inv s.Live s) (hn : s.numPages id = some m)
    (hle : n ≤ m) : ∃ t, s.clearPages P id n = some t := by
  induction n with
  | zero => exact ⟨s, rfl⟩
  | succ n ih =>
    obtain ⟨u, hu⟩ := ih (Nat.le_of_succ_le hle)
    have hpages := numPages_clearPages hu
    have hLn : s.Live ⟨id, n⟩ := ⟨m, hn, hle⟩
    have hinv :=
      h.clearPages (fun i hi => ⟨m, hn, Nat.lt_of_lt_of_le hi (Nat.le_of_succ_le hle)⟩) hu
    have hlive : ∀ p, s.Live p → u.Live p := fun p hp => by rwa [State.Live, hpages]
    have hL' : withoutPages s.Live id n ⟨id, n⟩ := ⟨hLn, fun hc => absurd hc.2 (Nat.lt_irrefl n)⟩
    obtain ⟨q, v, hv⟩ := hinv.exists_getPhysicalPage (P := P) (fun p hp => hlive p hp.1)
      (hlive _ hLn)
    have hinv' := hinv.getPhysicalPage hL' hv
    have hframe := hinv.frameOf_getPhysicalPage hv
    rw [← (SameTables.getPhysicalPage hv).swapPage] at hframe
    have hq : q < v.memMap.numBits := by
      rw [hinv'.frames.bits]
      exact (frameOf_eq_some_iff.mp hframe).1
    have hX : v.swapPage ⟨id, n⟩ < v.swapMap.numBits := by
      rw [hinv'.owns.bits]
      exact (hinv'.owns.marked _ hL').1
    unfold swapPage at hframe hX
    simp [State.clearPages, hu, hv, State.clearPage, hframe, hq, hX]

theorem Inv.exists_destroy {n : ℕ} (h : Inv s.Live s) (hn : s.numPages id = some n) :
    ∃ t, s.destroy P id = some t := by
  obtain ⟨u, hu⟩ := h.exists_clearPages (P := P) hn (Nat.le_refl n)
  exact ⟨u.setNumPages id none, by simp [State.destroy, hn, hu]⟩

/-- The action completes with this output, at once or when it runs again after a page fault. -/
def Completes (P : Replacement σ) (s : State σ) (a : Action) (o : Output) : Prop :=
  ∃ t, Run (system P) s [(a, o)] t ∨ Run (system P) s [(a, .faulted), (a, o)] t

theorem run_of_act {a : Action} {o : Output} (h : act P s a = some (o, t)) :
    Run (system P) s [(a, o)] t :=
  .single (step_eq_some_iff.mpr h)

/-- The first access finds the page, or the second after the page fault of the first. -/
theorem Inv.access_completes (h : Inv s.Live s) (ha : s.Accessible id addr size.bytes)
    (hf : (s.pageTable (entryPtr id addr)).valid = false →
      s.frameOf (s.swapPage (entryPtr id addr)) = none) :
    (∃ q t, Access P id addr size.bytes w s (some q) t) ∨
      ∃ t q u, Access P id addr size.bytes w s none t ∧ Inv t.Live t ∧
        Access P id addr size.bytes w t (some q) u := by
  rcases h.exists_access (P := P) (w := w) ha with hhit | ⟨t, ht, hv⟩
  · exact .inl hhit
  · have hinv : Inv t.Live t := (SameTables.access ht).live ▸ h.access hf ht
    obtain ⟨q, u, hu⟩ := hinv.exists_hit (P := P) (w := w) (ha.of_same (.access ht)) hv
    exact .inr ⟨t, q, u, ht, hinv, hu⟩

theorem keeps_of_absent {X : ℕ} {i : Fin PageSize} (h : s.frameOf X = none) : s.Keeps P X i :=
  fun _ hX => absurd hX (frameOf_eq_none_iff.mp h _ (P.getReplacement_lt s.policy))

theorem Inv.load_completes (h : Inv s.Live s) (ha : s.Accessible id addr size.bytes)
    (hf : FaultsAbsent s (.load id addr size)) :
    Completes P s (.load id addr size)
      (.value (readValue size fun i => s.byteAt id (addr + i))) := by
  rcases h.access_completes (P := P) (w := false) ha hf with ⟨q, t, ht⟩ | ⟨t, q, u, ht, hinv, hu⟩
  · rw [← readValue_byteAt h.frames ht]
    exact ⟨t, .inl (run_of_act (act_load_of_access (h.writable _ ha.live) ht))⟩
  · have hfault := run_of_act (act_load_of_access (h.writable _ ha.live) ht)
    have hhit := run_of_act (act_load_of_access (hinv.writable _ hu.accessible.live) hu)
    -- the page fault leaves the bytes of its own page
    have hbytes : ∀ i < size.bytes, t.byteAt id (addr + i) = s.byteAt id (addr + i) := by
      intro i hi
      have hin := ha.in_page
      have hptr : entryPtr id (addr + i) = entryPtr id addr := by
        rw [entryPtr, (div_mod_add (by omega)).1, entryPtr]
      unfold byteAt
      rw [(SameTables.access ht).swapPage, hptr]
      exact h.contents_access hf keeps_of_absent ht
    rw [Option.elim_some, readValue_byteAt hinv.frames hu, readValue_congr hbytes] at hhit
    exact ⟨u, .inr (hfault.append hhit)⟩

theorem Inv.store_completes {value : BitVec 32} (h : Inv s.Live s)
    (ha : s.Accessible id addr size.bytes) (hf : FaultsAbsent s (.store id addr size value)) :
    Completes P s (.store id addr size value) .done := by
  rcases h.access_completes (P := P) (w := true) ha hf with ⟨q, t, ht⟩ | ⟨t, q, u, ht, hinv, hu⟩
  · exact ⟨_, .inl (run_of_act (act_store_of_access value (h.writable _ ha.live) ht))⟩
  · have hfault := run_of_act (act_store_of_access value (h.writable _ ha.live) ht)
    have hhit := run_of_act
      (act_store_of_access value (hinv.writable _ hu.accessible.live) hu)
    exact ⟨_, .inr (hfault.append hhit)⟩

end Nachos.VM
