import Nachos.VM.Fork
import Nachos.VM.Loader

/-! # What a step does to the contents of pages

A step changes the pages that it writes to and the pages of an address space
that exits. Another page keeps its contents, as long as it is not the victim of
a page that is brought in or is written back then.
-/

namespace Nachos.VM

open Function Bytes Transition State

variable {σ : Type} {P : Replacement σ} {s t : State σ} {p : EntryPtr} {q id X Y b c : ℕ}
  {i : Fin PageSize} {g : ℕ → UInt8} {L : EntryPtr → Prop} {vAddr : ℤ}

/-- The first page that an action asks for. -/
def Action.page : Action → Option EntryPtr
  | .load id addr _ | .store id addr _ _ => some (entryPtr id addr)
  | .getMem id vAddr _ | .putMem id vAddr _ | .getString id vAddr => some (kernelPtr id vAddr)
  | .exit id => some ⟨id, 0⟩
  | .create _ _ | .fork _ _ => none

def KeepsUnder (P : Replacement σ) (s : State σ) (a : Action) (X : ℕ) (i : Fin PageSize) : Prop :=
  ∀ p, a.page = some p → s.frameOf (s.swapPage p) = none → s.Keeps P X i

/-- The action neither writes to the page nor ends its address space. What the kernel stores is
inside a page, and the segments of a new program inside its address space. -/
def Action.Spares (p : EntryPtr) : Action → Prop
  | .create _ x => x.Inside
  | .store id addr _ _ => entryPtr id addr ≠ p
  | .exit id => id ≠ p.space
  | .putMem id vAddr buffer =>
    0 ≤ vAddr ∧ vAddr % PageSize + buffer.length ≤ PageSize ∧ kernelPtr id vAddr ≠ p
  | .load _ _ _ | .fork _ _ | .getMem _ _ _ | .getString _ _ => True

instance (p : EntryPtr) (a : Action) : Decidable (a.Spares p) :=
  match a with
  | .create _ x => inferInstanceAs (Decidable x.Inside)
  | .store _ _ _ _ | .exit _ => inferInstanceAs (Decidable (_ ≠ _))
  | .putMem _ _ _ => inferInstanceAs (Decidable (_ ∧ _))
  | .load _ _ _ | .fork _ _ | .getMem _ _ _ | .getString _ _ => inferInstanceAs (Decidable True)

/-! ## Writes to a frame -/

theorem contents_write_ne (hq : s.frameOf Y = some q) (hin : b + c ≤ PageSize) (hX : X ≠ Y) :
    State.contents { s with mainMemory := blit s.mainMemory (q * PageSize + b) c g } X =
      s.contents X := by
  funext i
  refine contents_congr rfl (fun q' hq' => blit_other hin ?_ i.isLt) rfl
  rintro rfl
  exact hX (Option.some.inj (hq'.symm.trans (frameOf_eq_some_iff.mp hq).2.1))

theorem byteAt_write {a id' v : ℕ} (h : Owns s.Live s)
    (hq : s.frameOf (s.swapPage (entryPtr id a)) = some q) (ha : s.Live (entryPtr id a))
    (hin : a % PageSize + c ≤ PageSize) (hv : s.Live (entryPtr id' v)) :
    State.byteAt { s with
        mainMemory := blit s.mainMemory (q * PageSize + a % PageSize) c g } id' v =
      if id' = id then blit (s.byteAt id) a c g v else s.byteAt id' v := by
  by_cases hptr : entryPtr id' v = entryPtr id a
  · obtain ⟨rfl, hpage⟩ : id' = id ∧ v / PageSize = a / PageSize := by simpa [entryPtr] using hptr
    rw [if_pos rfl]
    have hread : ∀ f : ℕ → UInt8, State.byteAt { s with mainMemory := f } id' v =
        f (q * PageSize + v % PageSize) := by
      intro f
      have hq' : frameOf { s with mainMemory := f } (s.swapPage (entryPtr id' v)) = some q := by
        rw [hptr]
        exact hq
      exact congrFun (contents_of_frameOf hq') _
    rw [hread, blit_of_div_eq hpage]
    exact blit_congr (hread s.mainMemory).symm
  · have hne : s.swapPage (entryPtr id' v) ≠ s.swapPage (entryPtr id a) := fun he =>
      hptr (h.inj _ _ hv ha he)
    have hcontents := contents_write_ne (g := g) hq hin hne
    have hbyte : State.byteAt
        { s with mainMemory := blit s.mainMemory (q * PageSize + a % PageSize) c g } id' v =
          s.byteAt id' v := congrFun hcontents _
    rw [hbyte]
    split
    case isTrue hid =>
      subst hid
      exact (blit_of_div_ne (by decide) hin fun he => hptr (by simp [entryPtr, he])).symm
    case isFalse => rfl

/-! ## Pages that are brought in or given back -/

theorem contents_setEntry {e : TranslationEntry} : (s.setEntry p e).contents X = s.contents X := rfl

theorem contents_markPage : (s.markPage P q).contents X = s.contents X := rfl

theorem contents_clearPage (hX : X ≠ Y) (hs : s.clearPage P Y = some t) :
    t.contents X = s.contents X := by
  obtain ⟨f, hf, -, -, ht⟩ := clearPage_eq_some hs
  obtain ⟨-, hfY, -⟩ := frameOf_eq_some_iff.mp hf
  have hmap : t.activePageMap = update s.activePageMap f none := by rw [ht]
  have hother : ∀ j, t.activePageMap j = some X ↔ s.activePageMap j = some X := by
    intro j
    rw [hmap, update_apply]
    split
    case isTrue hj =>
      subst hj
      simp [hfY, hX.symm]
    case isFalse => exact Iff.rfl
  have hframe : t.frameOf X = s.frameOf X := by
    cases hfX : s.frameOf X with
    | none => simpa only [frameOf_eq_none_iff, ne_eq, hother] using hfX
    | some f' => simpa only [frameOf_eq_some_iff, ne_eq, hother] using hfX
  cases hfX : s.frameOf X with
  | none =>
    rw [contents_of_absent hfX, contents_of_absent (hframe.trans hfX), ht]
    dsimp only
    exact block_blit_ne hX
  | some f' => rw [contents_of_frameOf hfX, contents_of_frameOf (hframe.trans hfX), ht]

theorem numClear_clearPage (hs : s.clearPage P Y = some t) : 0 < t.memMap.numClear := by
  obtain ⟨f, hf, hlt, -, rfl⟩ := clearPage_eq_some hs
  exact BitMap.numClear_pos_iff.mpr ⟨f, hlt, BitMap.test_clear_self⟩

namespace Inv

theorem contents_getPhysicalPage (h : Inv L s)
    (hk : s.frameOf (s.swapPage p) = none → s.Keeps P X i)
    (hs : s.getPhysicalPage P p = some (q, t)) : t.contents X i = s.contents X i := by
  obtain ⟨e, he, ⟨-, rfl⟩ | ⟨habs, hs⟩⟩ := getPhysicalPage_eq_some hs
  · rfl
  · obtain ⟨-, rfl⟩ := entryAt_eq_some_iff.mp he
    exact swap_contents h.single h.frames habs (hk habs) hs

theorem contents_access {addr size : ℕ} {w : Bool} {r : Option ℕ} (h : Inv L s)
    (hf : (s.pageTable (entryPtr id addr)).valid = false →
      s.frameOf (s.swapPage (entryPtr id addr)) = none)
    (hk : s.frameOf (s.swapPage (entryPtr id addr)) = none → s.Keeps P X i)
    (hs : Access P id addr size w s r t) : t.contents X i = s.contents X i := by
  cases hs with
  | fault _ hv hu =>
    rw [contents_setEntry]
    exact swap_contents h.single h.frames (hf hv) (hk (hf hv)) hu
  | hit _ _ hu _ =>
    rw [touch, contents_setEntry, contents_markPage]
    exact h.contents_getPhysicalPage hk hu

theorem contents_kernelAddr {size a : ℕ} (h : Inv L s)
    (hk : s.frameOf (s.swapPage (kernelPtr id vAddr)) = none → s.Keeps P X i)
    (hs : s.kernelAddr P id vAddr size = some (a, t)) : t.contents X i = s.contents X i := by
  obtain ⟨-, q, hq, -⟩ := kernelAddr_eq_some hs
  exact h.contents_getPhysicalPage hk hq

theorem contents_clearPages {n : ℕ} (h : Inv L s) (hL : ∀ v < n, L ⟨id, v⟩)
    (hX : ∀ v < n, X ≠ s.swapPage ⟨id, v⟩)
    (hk : s.frameOf (s.swapPage ⟨id, 0⟩) = none → s.Keeps P X i)
    (hs : s.clearPages P id n = some t) : t.contents X i = s.contents X i := by
  induction n generalizing t with
  | zero => exact Option.some.inj hs ▸ rfl
  | succ n ih =>
    obtain ⟨u, q, v, hu, hv, ht⟩ := clearPages_succ hs
    have hL' : ∀ v < n, L ⟨id, v⟩ := fun v hv => hL v (Nat.lt_succ_of_lt hv)
    have hinv := h.clearPages hL' hu
    have hku : u.frameOf (u.swapPage ⟨id, n⟩) = none → u.Keeps P X i := by
      cases n with
      | zero => exact Option.some.inj hu ▸ hk
      | succ m =>
        -- the frame of the page before is free
        obtain ⟨u', q', v', hu', hv', ht'⟩ := clearPages_succ hu
        have hpos := numClear_clearPage ht'
        intro _ hz
        omega
    have hne : X ≠ v.swapPage ⟨id, n⟩ := by
      rw [(SameTables.getPhysicalPage hv).swapPage, swapPage_clearPages hu]
      exact hX n (Nat.lt_succ_self n)
    rw [congrFun (contents_clearPage hne ht) i, hinv.contents_getPhysicalPage hku hv]
    exact ih hL' (fun v hv => hX v (Nat.lt_succ_of_lt hv)) hu

theorem frameOf_access {addr size : ℕ} {w : Bool} (h : Inv L s)
    (hs : Access P id addr size w s (some q) t) :
    t.frameOf (t.swapPage (entryPtr id addr)) = some q := by
  rw [(SameTables.access hs).swapPage]
  cases hs with
  | hit _ _ hu _ =>
    have hq := h.frameOf_getPhysicalPage hu
    exact hq

/-! ## The steps -/

theorem live_effect {a : Action} {o : Output} (hp : s.Live p) (ha : a.Spares p)
    (hs : Effect P s a o t) : t.Live p := by
  cases hs with
  | create hc =>
    obtain ⟨⟨hid, -⟩, -⟩ := create_eq_some hc
    exact live_of_withPages hid (create_sameFrames hc).numPages (.inl hp)
  | loadFault hacc => exact (SameTables.access hacc).live ▸ hp
  | load hacc => exact (SameTables.access hacc).live ▸ hp
  | storeFault hacc => exact (SameTables.access hacc).live ▸ hp
  | store hacc =>
    have hlive := (SameTables.access hacc).live ▸ hp
    exact hlive
  | @exit _ id hd =>
    obtain ⟨n, u, hn, hu, rfl⟩ := destroy_eq_some hd
    have hpages : (u.setNumPages id none).numPages = update s.numPages id none := by
      simp [setNumPages, numPages_clearPages hu]
    exact live_of_withoutPages hn hpages ⟨hp, fun hc => ha hc.1.symm⟩
  | fork hc =>
    obtain ⟨n, -, hd, hu⟩ := copyAddrSpace_eq_some hc
    exact live_of_withPages hd (copyPages_sameFrames hu).numPages (.inl hp)
  | getMem hka => exact (SameTables.kernelAddr hka).live ▸ hp
  | putMem hka =>
    have hlive := (SameTables.kernelAddr hka).live ▸ hp
    exact hlive
  | getString hka => exact (SameTables.kernelAddr hka).live ▸ hp

theorem contents_effect {a : Action} {o : Output} (h : Inv s.Live s) (hf : FaultsAbsent s a)
    (hp : s.Live p) (ha : a.Spares p) (hk : KeepsUnder P s a (s.swapPage p) i)
    (hs : Effect P s a o t) : t.contents (t.swapPage p) i = s.contents (s.swapPage p) i := by
  -- the swap page of the entry stays, so its contents are followed
  have hsame : SameTables s t → t.contents (s.swapPage p) i = s.contents (s.swapPage p) i →
      t.contents (t.swapPage p) i = s.contents (s.swapPage p) i := by
    intro hst hc
    rwa [hst.swapPage]
  cases hs with
  | create hc =>
    obtain ⟨hid, hcreated⟩ := created_of_create h ha hc
    exact congrFun (hcreated.contents_kept h hid hp) i
  | loadFault hacc => exact hsame (.access hacc) (h.contents_access hf (hk _ rfl) hacc)
  | load hacc => exact hsame (.access hacc) (h.contents_access hf (hk _ rfl) hacc)
  | storeFault hacc => exact hsame (.access hacc) (h.contents_access hf (hk _ rfl) hacc)
  | @store u id addr q size value hacc =>
    have hst := SameTables.access hacc
    have hne : s.swapPage p ≠ u.swapPage (entryPtr id addr) := by
      rw [hst.swapPage]
      exact fun he => ha (h.owns.inj _ _ hp hacc.accessible.live he).symm
    refine hsame ⟨hst.numPages, hst.swapMap, hst.swapPage⟩ ?_
    rw [contents_write_ne (h.frameOf_access hacc) hacc.accessible.in_page hne]
    exact h.contents_access hf (hk _ rfl) hacc
  | @exit _ id hd =>
    obtain ⟨n, u, hn, hu, rfl⟩ := destroy_eq_some hd
    have hother : ∀ v < n, s.swapPage p ≠ s.swapPage ⟨id, v⟩ := fun v hv he =>
      ha (congrArg EntryPtr.space (h.owns.inj p ⟨id, v⟩ hp ⟨n, hn, hv⟩ he)).symm
    have hc := h.contents_clearPages (fun v hv => ⟨n, hn, hv⟩) hother (hk _ rfl) hu
    exact (congrArg (u.contents · i) (swapPage_clearPages hu)).trans hc
  | fork hc =>
    obtain ⟨n, hn, hd, hframes, hcopied⟩ := copied_of_copyAddrSpace h.owns hc
    exact congrFun (hcopied.contents_kept hframes h.owns hd hp) i
  | getMem hka => exact hsame (.kernelAddr hka) (h.contents_kernelAddr (hk _ rfl) hka)
  | @putMem u id a vAddr buffer hka =>
    obtain ⟨hpos, hin, hne⟩ := ha
    obtain ⟨vAddr, rfl⟩ := Int.eq_ofNat_of_zero_le hpos
    have hst := SameTables.kernelAddr hka
    have hkeep := h.setBuffer.contents_kernelAddr (hk _ rfl) hka
    obtain ⟨q, hq, rfl⟩ := kernelAddr_natCast hka
    rw [kernelPtr_natCast] at hne
    obtain ⟨e, he, -⟩ := getPhysicalPage_eq_some hq
    have hne' : s.swapPage p ≠ s.swapPage (entryPtr id vAddr) := fun he' =>
      hne (h.owns.inj _ _ hp (live_of_entryAt he) he').symm
    refine hsame ⟨hst.numPages, hst.swapMap, hst.swapPage⟩ ?_
    rw [contents_write_ne (h.setBuffer.frameOf_getPhysicalPage hq) (by exact_mod_cast hin) hne']
    exact hkeep
  | getString hka => exact hsame (.kernelAddr hka) (h.contents_kernelAddr (hk _ rfl) hka)

end Inv

end Nachos.VM
