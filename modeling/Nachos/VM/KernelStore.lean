import Nachos.VM.Progress

/-! # Stores by the kernel

`putMemIntoVAddr` writes to the frame of a page and does not mark its entry.
What it stored is read again as long as no frame is taken from the page while
its entry is clean. Its bytes come from `diskBuffer`, and a page that the
translation brings in passes through the same buffer.
-/

namespace Nachos.VM

open Function Bytes Transition State

variable {σ : Type} {P : Replacement σ} {s t u : State σ} {p : EntryPtr} {q id vAddr : ℕ}
  {buffer : List UInt8}

theorem Inv.of_reachable (h : Reachable (carefulSystem P) s) : Inv s.Live s := by
  refine h.invariant (P := fun s => Inv s.Live s) (fun _ => Inv.of_initial) ?_
  rintro s l t hs ⟨hf, ht⟩
  exact hs.effect hf (effect_of_act (step_eq_some_iff.mp ht))

/-- A step that serves a page fault only for a page in no frame, spares the page, and loses none
of these bytes of it if it brings another page in. -/
def SparesBytes (P : Replacement σ) (p : EntryPtr) (first length : ℕ) (s : State σ) (l : Label) :
    Prop :=
  FaultsAbsent s l.1 ∧ l.1.Spares p ∧
    ∀ i : Fin PageSize, first ≤ i → (i : ℕ) < first + length → KeepsUnder P s l.1 (s.swapPage p) i

/-- These bytes of the page are those of the buffer. -/
def Holds (s : State σ) (id vAddr : ℕ) (buffer : List UInt8) : Prop :=
  s.Live (entryPtr id vAddr) ∧
    ∀ m < buffer.length, s.byteAt id (vAddr + m) = buffer.getD m 0

theorem Holds.step {l : Label} (hb : Holds s id vAddr buffer) (h : Inv s.Live s)
    (hin : vAddr % PageSize + buffer.length ≤ PageSize)
    (hs : SparesBytes P (entryPtr id vAddr) (vAddr % PageSize) buffer.length s l)
    (ht : (system P).Step s l t) : Holds t id vAddr buffer := by
  obtain ⟨hfaults, hspares, hkeeps⟩ := hs
  have heffect := effect_of_act (step_eq_some_iff.mp ht)
  refine ⟨Inv.live_effect hb.1 hspares heffect, fun m hm => ?_⟩
  obtain ⟨hd, hmod⟩ := div_mod_add (a := vAddr) (m := m) (n := PageSize) (by omega)
  have hptr : entryPtr id (vAddr + m) = entryPtr id vAddr := by rw [entryPtr, hd, entryPtr]
  have hkeep := hkeeps ⟨(vAddr + m) % PageSize, Nat.mod_lt _ (by decide)⟩ (by dsimp only; omega)
    (by dsimp only; omega)
  rw [← hb.2 m hm]
  unfold byteAt
  rw [hptr]
  exact h.contents_effect hfaults hb.1 hspares hkeep heffect

theorem Holds.run {as : List Label} (hb : Holds s id vAddr buffer) (h : Inv s.Live s)
    (hin : vAddr % PageSize + buffer.length ≤ PageSize)
    (hr : Run ((system P).guard
      (SparesBytes P (entryPtr id vAddr) (vAddr % PageSize) buffer.length)) s as t) :
    Inv t.Live t ∧ Holds t id vAddr buffer := by
  refine hr.preserves (P := fun s => Inv s.Live s ∧ Holds s id vAddr buffer) ?_ ⟨h, hb⟩
  rintro s l t ⟨h, hb⟩ ⟨hspares, ht⟩
  exact ⟨h.effect hspares.1 (effect_of_act (step_eq_some_iff.mp ht)), hb.step h hin hspares ht⟩

/-- The bytes for the page are still in `diskBuffer` when their address has been translated: the
page is in a frame, or the swap page that is read over them begins with the same bytes. -/
def BufferKept (s : State σ) (p : EntryPtr) (buffer : List UInt8) : Prop :=
  s.frameOf (s.swapPage p) = none →
    ∀ i < buffer.length, s.swapFile (s.swapPage p * PageSize + i) = buffer.getD i 0

theorem Frames.diskBuffer_getPhysicalPage (hf : Frames s)
    (habs : s.frameOf (s.swapPage p) = none) (h : s.getPhysicalPage P p = some (q, t)) {i : ℕ}
    (hi : i < PageSize) : t.diskBuffer i = s.swapFile (s.swapPage p * PageSize + i) := by
  obtain ⟨e, he, ⟨hq, -⟩ | ⟨-, h⟩⟩ := getPhysicalPage_eq_some h
  · obtain ⟨-, rfl⟩ := entryAt_eq_some_iff.mp he
    cases hq.symm.trans habs
  · have hlt := swap_lt hf h
    obtain ⟨e, u, he, hu, rfl⟩ := swap_eq_some h
    obtain ⟨-, rfl⟩ := entryAt_eq_some_iff.mp he
    have hblock := takeFrame_swapFile hu (frameOf_eq_none_iff.mp habs q hlt)
    rw [swapIn]
    exact (blit_start (g := fun i => u.swapFile (s.swapPage p * PageSize + i)) hi).trans
      (congrFun hblock ⟨i, hi⟩)

theorem BufferKept.diskBuffer (hkept : BufferKept s p buffer) (hf : Frames s)
    (hlen : buffer.length ≤ PageSize)
    (h : (s.setBuffer buffer.length fun i => buffer.getD i 0).getPhysicalPage P p = some (q, t))
    {i : ℕ} (hi : i < buffer.length) : t.diskBuffer i = buffer.getD i 0 := by
  obtain ⟨e, he, ⟨-, rfl⟩ | ⟨habs, -⟩⟩ := getPhysicalPage_eq_some h
  · exact blit_start (g := fun i => buffer.getD i 0) hi
  · obtain ⟨-, rfl⟩ := entryAt_eq_some_iff.mp he
    rw [hf.setBuffer.diskBuffer_getPhysicalPage habs h (by omega)]
    exact hkept habs i hi

/-- The kernel can store to a range inside a page of a live address space, and the bytes are
there afterwards. -/
theorem Inv.exists_storeBuffer (h : Inv s.Live s) (hlive : s.Live (entryPtr id vAddr))
    (hin : vAddr % PageSize + buffer.length ≤ PageSize)
    (hkept : BufferKept s (entryPtr id vAddr) buffer) :
    ∃ t, s.storeBuffer P id vAddr buffer = some t ∧ Inv t.Live t ∧ Holds t id vAddr buffer := by
  have hs := h.setBuffer (n := buffer.length) (g := fun i => buffer.getD i 0)
  obtain ⟨q, u, hq⟩ := hs.exists_getPhysicalPage (P := P) (fun _ hp => hp) hlive
  have hka := kernelAddr_of_getPhysicalPage hs hq hin
  have hsame := SameTables.getPhysicalPage hq
  have hu : Inv u.Live u := hsame.live ▸ hs.getPhysicalPage_live hq
  have hframe := hs.frameOf_getPhysicalPage hq
  rw [← hsame.swapPage] at hframe
  have hlive' : u.Live (entryPtr id vAddr) := hsame.live ▸ hlive
  have hput : s.storeBuffer P id vAddr buffer = some { u with
      mainMemory := blit u.mainMemory (q * PageSize + vAddr % PageSize) buffer.length
        u.diskBuffer } := by
    rw [storeBuffer, if_pos (by omega), putMemIntoVAddr, hka]
    rfl
  refine ⟨_, hput, hu.of_memories, hlive', fun m hm => ?_⟩
  have hptr : u.Live (entryPtr id (vAddr + m)) := by
    rwa [entryPtr, (div_mod_add (by omega)).1]
  rw [byteAt_write hu.owns hframe hlive' hin hptr, if_pos rfl, blit_add hm]
  exact hkept.diskBuffer h.frames (by omega) hq hm

theorem Holds.getMem {a n : ℕ} (hb : Holds s id vAddr buffer) (h : Inv s.Live s)
    (hin : vAddr % PageSize + buffer.length ≤ PageSize) (ha : vAddr ≤ a)
    (hn : a + n ≤ vAddr + buffer.length) (hpage : a / PageSize = vAddr / PageSize) :
    ∃ t, s.getMemFromVAddr P id a n = some ((buffer.drop (a - vAddr)).take n, t) := by
  obtain ⟨m, rfl⟩ := Nat.exists_eq_add_of_le ha
  have hlive : s.Live (entryPtr id (vAddr + m)) := by
    rw [entryPtr, hpage]
    exact hb.1
  have hin' : (vAddr + m) % PageSize + n ≤ PageSize := by
    have hv := Nat.div_add_mod' vAddr PageSize
    have hvm := Nat.div_add_mod' (vAddr + m) PageSize
    rw [hpage] at hvm
    omega
  obtain ⟨t, ht⟩ := h.exists_getMem (P := P) hlive hin'
  refine ⟨t, ht.trans ?_⟩
  congr 2
  apply List.ext_getElem?
  intro j
  rw [List.getElem?_take, List.getElem?_map]
  by_cases hj : j < n
  · rw [List.getElem?_range hj, if_pos hj, List.getElem?_drop, Nat.add_sub_cancel_left,
      Option.map_some, Nat.add_assoc, hb.2 _ (by omega), List.getD_eq_getElem?_getD,
      List.getElem?_eq_getElem (by omega), Option.getD_some]
  · simp [hj]

theorem Holds.load {addr : ℕ} {size : Size} (hb : Holds s id vAddr buffer) (h : Inv s.Live s)
    (ha : s.Accessible id addr size.bytes) (hle : vAddr ≤ addr)
    (hn : addr + size.bytes ≤ vAddr + buffer.length) (hf : FaultsAbsent s (.load id addr size)) :
    Completes P s (.load id addr size)
      (.value (readValue size fun i => buffer.getD (addr - vAddr + i) 0)) := by
  obtain ⟨m, rfl⟩ := Nat.exists_eq_add_of_le hle
  have hbytes : ∀ i < size.bytes, s.byteAt id (vAddr + m + i) =
      buffer.getD (vAddr + m - vAddr + i) 0 := by
    intro i hi
    rw [Nat.add_assoc, hb.2 _ (by omega), Nat.add_sub_cancel_left]
  rw [← readValue_congr hbytes]
  exact h.load_completes ha hf

/-- What the kernel stores inside a page of a process is read by the kernel and loaded by the
process after every further run whose steps spare these bytes, where page faults are served
only for pages in no frame, if the bytes are not overwritten in `diskBuffer`. -/
theorem kernel_store_survives (h : Reachable (carefulSystem P) s)
    (hlive : s.Live (entryPtr id vAddr)) (hin : vAddr % PageSize + buffer.length ≤ PageSize)
    (hkept : BufferKept s (entryPtr id vAddr) buffer) :
    ∃ t, s.storeBuffer P id vAddr buffer = some t ∧
      ∀ as u, Run ((system P).guard
          (SparesBytes P (entryPtr id vAddr) (vAddr % PageSize) buffer.length)) t as u →
        (∀ a n, vAddr ≤ a → a + n ≤ vAddr + buffer.length → a / PageSize = vAddr / PageSize →
          ∃ v, u.getMemFromVAddr P id a n = some ((buffer.drop (a - vAddr)).take n, v)) ∧
        ∀ addr size, vAddr ≤ addr → addr + Size.bytes size ≤ vAddr + buffer.length →
          u.Accessible id addr (Size.bytes size) → FaultsAbsent u (.load id addr size) →
          Completes P u (.load id addr size)
            (.value (readValue size fun i => buffer.getD (addr - vAddr + i) 0)) := by
  obtain ⟨t, ht, hinv, hb⟩ := (Inv.of_reachable h).exists_storeBuffer (P := P) hlive hin hkept
  refine ⟨t, ht, fun as u hr => ?_⟩
  obtain ⟨hinv', hb'⟩ := hb.run hinv hin hr
  exact ⟨fun a n ha hn hpage => hb'.getMem hinv' hin ha hn hpage,
    fun addr size hle hn ha hf => hb'.load hinv' ha hle hn hf⟩

/-- The kernel stores a byte to a page in a frame, reads another page, and reads the byte again. -/
theorem kernel_store_survives_other_read : ∃ s t u, Reachable (carefulSystem fifo) s ∧
    s.storeBuffer fifo 0 0 [7] = some t ∧
    Run ((system fifo).guard (SparesBytes fifo ⟨0, 0⟩ 0 1)) t [(.getMem 0 128 1, .bytes [0])] u ∧
    ∃ v, u.getMemFromVAddr fifo 0 0 1 = some ([7], v) := by
  have he : (exec (guarded (fun s l => FaultsAbsent s l.1) (step fifo)) (boot [])
      [(.create 0 (blank 0), .done), (.load 0 0 .byte, .faulted)]).any (fun s =>
        (s.numPages 0 == some 8 && s.frameOf (s.swapPage ⟨0, 0⟩) == some 0) &&
        (s.storeBuffer fifo 0 0 [7]).any fun t => t.memMap.numClear != 0 &&
          (step fifo t (.getMem 0 128 1, .bytes [0])).isSome) = true := by
    decide +kernel
  obtain ⟨s, hr, hs⟩ := run_of_any_exec (I := Initial) he
  rw [← guard_ofStep] at hr
  have hreach : Reachable (carefulSystem fifo) s := ⟨_, _, initial_boot [], hr⟩
  rw [Bool.and_eq_true, Bool.and_eq_true, beq_iff_eq, beq_iff_eq] at hs
  obtain ⟨⟨hn, hframe⟩, ht⟩ := hs
  have hlive : s.Live (entryPtr 0 0) := ⟨8, hn, by decide⟩
  have hin : 0 % PageSize + [(7 : UInt8)].length ≤ PageSize := by decide
  have hkept : BufferKept s (entryPtr 0 0) [7] := fun habs => by cases hframe.symm.trans habs
  obtain ⟨t, hput, hsurvives⟩ := kernel_store_survives (P := fifo) hreach hlive hin hkept
  have ht' : (s.storeBuffer fifo 0 0 [7]) = some t := hput
  rw [ht', Option.any_some, Bool.and_eq_true, bne_iff_ne] at ht
  obtain ⟨hfree, hstep⟩ := ht
  obtain ⟨u, hu⟩ := Option.isSome_iff_exists.mp hstep
  have hspares : SparesBytes fifo ⟨0, 0⟩ 0 1 t (.getMem 0 128 1, .bytes [0]) :=
    ⟨trivial, trivial, fun _ _ _ _ _ _ hz => absurd hz hfree⟩
  have hrun : Run ((system fifo).guard (SparesBytes fifo ⟨0, 0⟩ 0 1)) t
      [(.getMem 0 128 1, .bytes [0])] u := .single ⟨hspares, hu⟩
  obtain ⟨v, hv⟩ := (hsurvives _ u hrun).1 0 1 (Nat.le_refl 0) (Nat.le_refl 1) rfl
  exact ⟨s, t, u, hreach, ht', hrun, v, hv⟩

/-- The kernel stores a byte to a page in a frame that no program has stored to. Page faults on 32
other pages take the frame, and the byte is lost. A byte that the kernel stores to a page in no
frame is lost at once. In both runs every page fault is for a page in no frame. -/
theorem kernel_store_lost :
    (∃ s t u, Reachable (carefulSystem fifo) s ∧ s.frameOf (s.swapPage ⟨0, 0⟩) = some 0 ∧
      s.storeBuffer fifo 0 0 [1] = some t ∧
      Run (carefulSystem fifo) t
        ((List.range 32).map fun i => (.load 0 (128 * (i + 1)) .byte, .faulted)) u ∧
      (u.getMemFromVAddr fifo 0 0 1).map Prod.fst = some [0] ∧
      ∃ v, Run (carefulSystem fifo) u [(.load 0 0 .byte, .value 0)] v) ∧
    ∃ s t, Reachable (carefulSystem fifo) s ∧ s.Live ⟨0, 0⟩ ∧
      s.storeBuffer fifo 0 0 [1] = some t ∧
      (t.getMemFromVAddr fifo 0 0 1).map Prod.fst = some [0] := by
  constructor
  · have he : (exec (guarded (fun s l => FaultsAbsent s l.1) (step fifo)) (boot [])
        [(.create 0 (blank 3200), .done), (.load 0 0 .byte, .faulted)]).any (fun s =>
          s.frameOf (s.swapPage ⟨0, 0⟩) == some 0 && (s.storeBuffer fifo 0 0 [1]).any fun t =>
          (exec (guarded (fun s l => FaultsAbsent s l.1) (step fifo)) t
            ((List.range 32).map fun i => (.load 0 (128 * (i + 1)) .byte, .faulted))).any fun u =>
              (u.getMemFromVAddr fifo 0 0 1).map Prod.fst == some [0] &&
              (exec (guarded (fun s l => FaultsAbsent s l.1) (step fifo)) u
                [(.load 0 0 .byte, .value 0)]).any fun _ => true) = true := by
      decide +kernel
    obtain ⟨s, hr, hs⟩ := run_of_any_exec (I := Initial) he
    rw [Bool.and_eq_true, beq_iff_eq] at hs
    obtain ⟨hframe, hs⟩ := hs
    obtain ⟨t, ht, hu⟩ := (Option.any_eq_true _ _).mp hs
    obtain ⟨u, hu, hbytes⟩ := run_of_any_exec (I := Initial) hu
    rw [Bool.and_eq_true, beq_iff_eq] at hbytes
    obtain ⟨v, hv, -⟩ := run_of_any_exec (I := Initial) hbytes.2
    rw [← guard_ofStep] at hr hu hv
    exact ⟨s, t, u, ⟨_, _, initial_boot [], hr⟩, hframe, ht, hu, hbytes.1, v, hv⟩
  · have he : (exec (guarded (fun s l => FaultsAbsent s l.1) (step fifo)) (boot [])
        [(.create 0 (blank 0), .done)]).any (fun s => s.numPages 0 == some 8 &&
          (s.storeBuffer fifo 0 0 [1]).any fun t =>
            (t.getMemFromVAddr fifo 0 0 1).map Prod.fst == some [0]) = true := by
      decide +kernel
    obtain ⟨s, hr, hs⟩ := run_of_any_exec (I := Initial) he
    rw [← guard_ofStep] at hr
    rw [Bool.and_eq_true, beq_iff_eq] at hs
    obtain ⟨t, ht, hbytes⟩ := (Option.any_eq_true _ _).mp hs.2
    exact ⟨s, t, ⟨_, _, initial_boot [], hr⟩, ⟨8, hs.1, by decide⟩, ht, beq_iff_eq.mp hbytes⟩

end Nachos.VM
