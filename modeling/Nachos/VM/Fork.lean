import Nachos.VM.NewPages

/-! # The copy made by `Fork`

`CopyAddrSpace` copies the pages of the swap file and does not look at the
frames. The copy is the memory of the parent exactly when the swap page of
each page has its contents.
-/

namespace Nachos.VM

open Function Bytes Transition State

variable {σ : Type} {P : Replacement σ} {s t : State σ} {id spaceDest n : ℕ}

/-- Each page of the address space has its contents where its copy is read from: in the swap
file, or in the frame that is still recorded for the swap page that the copy gets. -/
def ForkSynced (s : State σ) (id : ℕ) : Prop :=
  ∀ n, s.numPages id = some n → ∀ v < n, ∀ page, s.swapMap.clearBits[v]? = some page →
    (match s.frameOf page with
      | some q => block s.mainMemory PageSize q
      | none => block s.swapFile PageSize (s.swapPage ⟨id, v⟩)) = s.contents (s.swapPage ⟨id, v⟩)

def Copied (s : State σ) (id spaceDest n : ℕ) (t : State σ) : Prop :=
  Filled s spaceDest n (fun i => block s.swapFile PageSize (s.swapPage ⟨id, i⟩)) t

theorem copied_of_copyAddrSpace (ho : Owns s.Live s)
    (h : s.copyAddrSpace id spaceDest = some t) :
    ∃ n, s.numPages id = some n ∧ s.numPages spaceDest = none ∧
      SameFrames (s.setNumPages spaceDest n) t ∧ Copied s id spaceDest n t := by
  obtain ⟨n, hn, hd, hc⟩ := copyAddrSpace_eq_some h
  have hne : id ≠ spaceDest := by
    rintro rfl
    rw [hn] at hd
    cases hd
  have hm : ∀ i < n, (s.setNumPages spaceDest n).swapMap.test
      ((s.setNumPages spaceDest n).swapPage ⟨id, i⟩) = true :=
    fun i hi => (ho.marked ⟨id, i⟩ ⟨n, hn, hi⟩).2
  obtain ⟨h₁, h₂, h₃, h₄, h₅, h₆, h₇⟩ := filled_of_copyPages hne hm hc
  exact ⟨n, hn, hd, copyPages_sameFrames hc, h₁, h₂, h₃, h₄, h₅, h₆, h₇⟩

theorem Copied.contents_kept {p : EntryPtr} (h : Copied s id spaceDest n t)
    (hf : SameFrames (s.setNumPages spaceDest n) t) (ho : Owns s.Live s)
    (hd : s.numPages spaceDest = none) (hp : s.Live p) :
    t.contents (t.swapPage p) = s.contents (s.swapPage p) := by
  have hpage : t.swapPage p = s.swapPage p :=
    congrArg TranslationEntry.physicalPage (h.table p (space_ne_of_live hd hp))
  have hkept := (h.kept _ (ho.marked p hp).2).2
  rw [hpage]
  funext i
  exact contents_congr hf.activePageMap (fun q _ => by rw [hf.mainMemory]; rfl) (congrFun hkept i)

theorem Copied.contents_copy {v : ℕ} (h : Copied s id spaceDest n t)
    (hf : SameFrames (s.setNumPages spaceDest n) t) (hv : v < n) :
    t.contents (t.swapPage ⟨spaceDest, v⟩) =
      match s.frameOf (t.swapPage ⟨spaceDest, v⟩) with
      | some q => block s.mainMemory PageSize q
      | none => block s.swapFile PageSize (s.swapPage ⟨id, v⟩) := by
  have hframe : t.frameOf (t.swapPage ⟨spaceDest, v⟩) = s.frameOf (t.swapPage ⟨spaceDest, v⟩) :=
    frameOf_congr hf.activePageMap
  unfold contents
  rw [hframe, hf.mainMemory, h.filled v hv]
  rfl

/-- In every reachable state: after `CopyAddrSpace` the copy reads as the parent did before, and
every other address space as before, if and only if each page of the parent has its contents
where its copy is read from. -/
theorem fork_copies_iff (h : Reachable (system P) s) (hc : s.copyAddrSpace id spaceDest = some t) :
    ((t.numPages spaceDest = s.numPages id ∧
        ∀ n, s.numPages id = some n → ∀ vAddr < n * PageSize,
          t.byteAt spaceDest vAddr = s.byteAt id vAddr) ∧
      ∀ id' n, s.numPages id' = some n → t.numPages id' = some n ∧
        ∀ vAddr < n * PageSize, t.byteAt id' vAddr = s.byteAt id' vAddr) ↔ ForkSynced s id := by
  have ho := owns_of_reachable h
  obtain ⟨n, hn, hd, hf, hcopied⟩ := copied_of_copyAddrSpace ho hc
  have hpages : t.numPages = update s.numPages spaceDest (some n) := hf.numPages
  have hothers : ∀ id' m, s.numPages id' = some m → t.numPages id' = some m ∧
      ∀ vAddr < m * PageSize, t.byteAt id' vAddr = s.byteAt id' vAddr := by
    intro id' m hm
    have hne : id' ≠ spaceDest := by
      rintro rfl
      rw [hm] at hd
      cases hd
    refine ⟨by rw [hpages, update_of_ne hne, hm], byteAt_eq_iff.mpr fun v hv => ?_⟩
    exact hcopied.contents_kept hf ho hd ⟨m, hm, hv⟩
  have hcopy : (∀ vAddr < n * PageSize, t.byteAt spaceDest vAddr = s.byteAt id vAddr) ↔
      ForkSynced s id := by
    rw [byteAt_eq_iff]
    constructor
    · intro hb m hm v hv page hpage
      obtain rfl : n = m := Option.some.inj (hn.symm.trans hm)
      obtain rfl : t.swapPage ⟨spaceDest, v⟩ = page :=
        Option.some.inj ((hcopied.page v hv).symm.trans hpage)
      rw [← hb v hv, hcopied.contents_copy hf hv]
    · intro hsync v hv
      rw [hcopied.contents_copy hf hv]
      exact hsync n hn v hv _ (hcopied.page v hv)
  rw [← hcopy]
  constructor
  · exact fun hall => hall.1.2 n hn
  · intro hb
    refine ⟨⟨by rw [hpages, update_self, hn], fun m hm => ?_⟩, hothers⟩
    obtain rfl : n = m := Option.some.inj (hn.symm.trans hm)
    exact hb

/-- A process forks before it has touched its memory. -/
theorem fork_copies_iff_untouched : ∃ s t, Reachable (system fifo) s ∧
    s.copyAddrSpace 0 1 = some t ∧ ForkSynced s 0 ∧ t.byteAt 1 5 = s.byteAt 0 5 := by
  have he : (exec (step fifo) (boot []) [(.create 0 (blank 0), .done)]).any (fun s =>
      s.numPages 0 == some 8 && (List.range NumPhysPages).all
        (fun q => s.activePageMap q == none) &&
      (s.copyAddrSpace 0 1).isSome) = true := by
    decide +kernel
  obtain ⟨s, hr, hs⟩ := run_of_any_exec (I := Initial) he
  simp only [Bool.and_eq_true, beq_iff_eq, List.all_eq_true, List.mem_range] at hs
  obtain ⟨⟨hn, hempty⟩, hfork⟩ := hs
  obtain ⟨t, ht⟩ := Option.isSome_iff_exists.mp hfork
  have hreach : Reachable (system fifo) s := ⟨_, _, initial_boot [], hr⟩
  have habs : ∀ X, s.frameOf X = none := fun X =>
    frameOf_eq_none_iff.mpr fun q hq => by simp [hempty q hq]
  have hsync : ForkSynced s 0 := fun n _ v _ page _ => by
    rw [habs, contents_of_absent (habs _)]
  exact ⟨s, t, hreach, ht, hsync,
    ((fork_copies_iff hreach ht).mpr hsync).1.2 8 hn 5 (by decide)⟩

/-- A process stores a byte and forks: the page is dirty in its frame, and the copy reads the
byte that was there before the store. -/
theorem fork_copies_stale_page : ∃ s t, Reachable (system fifo) s ∧
    s.copyAddrSpace 0 1 = some t ∧ s.byteAt 0 0 = 1 ∧ t.byteAt 1 0 = 0 ∧
    (s.getMemFromVAddr fifo 0 0 1).map Prod.fst = some [1] ∧
    (t.getMemFromVAddr fifo 1 0 1).map Prod.fst = some [0] := by
  have he : (exec (step fifo) (boot []) [(.create 0 (blank 0), .done), (.load 0 0 .byte, .faulted),
      (.store 0 0 .byte 1, .done)]).any (fun s => (s.copyAddrSpace 0 1).any fun t =>
        s.byteAt 0 0 == 1 && t.byteAt 1 0 == 0 &&
        (s.getMemFromVAddr fifo 0 0 1).map Prod.fst == some [1] &&
        (t.getMemFromVAddr fifo 1 0 1).map Prod.fst == some [0]) = true := by
    decide +kernel
  obtain ⟨s, hr, hs⟩ := run_of_any_exec (I := Initial) he
  obtain ⟨t, ht, hbytes⟩ := (Option.any_eq_true _ _).mp hs
  simp only [Bool.and_eq_true, beq_iff_eq] at hbytes
  exact ⟨s, t, ⟨_, _, initial_boot [], hr⟩, ht, hbytes.1.1.1, hbytes.1.1.2, hbytes.1.2, hbytes.2⟩

end Nachos.VM
