import Nachos.VM.Contents

/-! # Runs with single residence

As long as page faults are served only for pages in no frame, each frame that
holds a page points to the entry of this page, and every routine that a live
address space calls has a result.
-/

namespace Nachos.VM

open Function Bytes Transition State

variable {σ : Type} {P : Replacement σ} {s t u : State σ} {p : EntryPtr} {q id X page : ℕ}
  {vAddr : ℤ} {L M : EntryPtr → Prop}

structure Inv (L : EntryPtr → Prop) (s : State σ) : Prop where
  owns : Owns L s
  frames : Frames s
  single : SingleResidence s
  linked : ∀ q < NumPhysPages, ∀ X, s.activePageMap q = some X →
    ∃ p, s.activePages q = some p ∧ L p ∧ s.swapPage p = X
  writable : ∀ p, L p → (s.pageTable p).readOnly = false

/-- Taking a frame changes the flags of the entry of this frame only, and these are not the
valid and the read-only bit. -/
theorem takeFrame_flags (h : s.takeFrame P = some (q, u)) :
    (∀ p, (u.pageTable p).valid = (s.pageTable p).valid ∧
      (u.pageTable p).readOnly = (s.pageTable p).readOnly) ∧
    (∀ p, s.activePages q ≠ some p → u.pageTable p = s.pageTable p) ∧
    u.activePages = s.activePages := by
  rcases takeFrame_eq_some h with ⟨-, -, rfl⟩ | ⟨-, -, he⟩
  · exact ⟨fun _ => ⟨rfl, rfl⟩, fun _ _ => rfl, rfl⟩
  · obtain ⟨old, e, ho, he, hcase⟩ := evict_eq_some he
    obtain ⟨-, rfl⟩ := entryAt_eq_some_iff.mp he
    have hset : ∃ d, u.pageTable =
        update s.pageTable old { s.pageTable old with use := false, dirty := d } ∧
        u.activePages = s.activePages := by
      rcases hcase with ⟨-, Y, -, rfl⟩ | ⟨-, rfl⟩
      · exact ⟨false, rfl, rfl⟩
      · exact ⟨(s.pageTable old).dirty, rfl, rfl⟩
    obtain ⟨d, hu, ha⟩ := hset
    refine ⟨fun p => ?_, fun p hp => ?_, ha⟩
    · rw [hu, update_apply]
      split
      · subst_vars
        exact ⟨rfl, rfl⟩
      · exact ⟨rfl, rfl⟩
    · rw [hu, update_of_ne]
      rintro rfl
      exact hp ho

/-- Swapping a page in changes no valid or read-only bit, and other flags only in the entry of
the frame that is taken. -/
theorem swap_flags (h : s.swap P p = some (q, t)) :
    (∀ p', (t.pageTable p').valid = (s.pageTable p').valid ∧
      (t.pageTable p').readOnly = (s.pageTable p').readOnly) ∧
    (∀ p', s.activePages q ≠ some p' → t.pageTable p' = s.pageTable p') ∧
    t.activePages = update s.activePages q (some p) := by
  obtain ⟨e, u, -, hu, rfl⟩ := swap_eq_some h
  obtain ⟨h₁, h₂, h₃⟩ := takeFrame_flags hu
  exact ⟨h₁, h₂, by simp [swapIn, h₃]⟩

namespace Inv

theorem of_same (h : Inv L s) (hs : SameTables s t) (hm : t.memMap = s.memMap)
    (ha : t.activePageMap = s.activePageMap) (hp : t.activePages = s.activePages)
    (hr : ∀ p, (t.pageTable p).readOnly = (s.pageTable p).readOnly) : Inv L t := by
  refine ⟨h.owns.of_same hs, h.frames.of_eq hm ha, h.single.of_eq ha, ?_, fun p hL => ?_⟩
  · intro q hq X hX
    rw [ha] at hX
    obtain ⟨p, hpq, hLp, hpX⟩ := h.linked q hq X hX
    exact ⟨p, by rw [hp, hpq], hLp, (hs.swapPage p).trans hpX⟩
  · rw [hr]
    exact h.writable p hL

theorem setEntry {e : TranslationEntry} (h : Inv L s) (he : e.physicalPage = s.swapPage p)
    (hr : e.readOnly = (s.pageTable p).readOnly) : Inv L (s.setEntry p e) := by
  refine h.of_same (.setEntry he) rfl rfl rfl fun p' => ?_
  by_cases hp : p' = p
  · subst hp
    simp [State.setEntry, hr]
  · simp [State.setEntry, update_of_ne hp]

theorem swap (h : Inv L s) (hL : L p) (habs : s.frameOf (s.swapPage p) = none)
    (hs : s.swap P p = some (q, t)) : Inv L t := by
  have hsame := SameTables.swap hs
  obtain ⟨hflags, -, hpages⟩ := swap_flags hs
  refine ⟨h.owns.of_same hsame, h.frames.swap hs, h.single.swap habs hs, ?_, fun p' hp' => ?_⟩
  · intro j hj X hX
    rw [activePageMap_swap hs, update_apply] at hX
    rw [hpages, update_apply]
    split at hX
    case isTrue hjq =>
      rw [if_pos hjq]
      exact ⟨p, rfl, hL, (hsame.swapPage p).trans (Option.some.inj hX)⟩
    case isFalse hjq =>
      rw [if_neg hjq]
      obtain ⟨p', hp', hLp, hpX⟩ := h.linked j hj X hX
      exact ⟨p', hp', hLp, (hsame.swapPage p').trans hpX⟩
  · rw [(hflags p').2]
    exact h.writable p' hp'

theorem getPhysicalPage (h : Inv L s) (hL : L p) (hs : s.getPhysicalPage P p = some (q, t)) :
    Inv L t := by
  obtain ⟨e, he, ⟨-, rfl⟩ | ⟨habs, hs⟩⟩ := getPhysicalPage_eq_some hs
  · exact h
  · obtain ⟨-, rfl⟩ := entryAt_eq_some_iff.mp he
    exact h.swap hL habs hs

theorem frameOf_getPhysicalPage (h : Inv L s) (hs : s.getPhysicalPage P p = some (q, t)) :
    t.frameOf (s.swapPage p) = some q := by
  obtain ⟨e, he, hcase⟩ := getPhysicalPage_eq_some hs
  obtain ⟨-, rfl⟩ := entryAt_eq_some_iff.mp he
  rcases hcase with ⟨hq, rfl⟩ | ⟨habs, hs⟩
  · exact hq
  · exact (h.single.swap habs hs).frameOf_eq (swap_lt h.frames hs)
      (by simp [activePageMap_swap hs, swapPage])

theorem clearPage (h : Inv L s) (hL : L p) (hs : s.clearPage P (s.swapPage p) = some t) :
    Inv (fun p' => L p' ∧ p' ≠ p) t := by
  have howns := h.owns.clearPage hL hs
  have hframes := h.frames.clearPage hs
  have hsingle := h.single.clearPage hs
  obtain ⟨f, hf, -, -, rfl⟩ := clearPage_eq_some hs
  obtain ⟨hflt, hfX, -⟩ := frameOf_eq_some_iff.mp hf
  refine ⟨howns, hframes, hsingle, fun j hj X hX => ?_, fun p' hp' => h.writable p' hp'.1⟩
  simp only [update_apply] at hX ⊢
  split at hX
  case isTrue => cases hX
  case isFalse hjf =>
    rw [if_neg hjf]
    obtain ⟨p', hp', hLp, hpX⟩ := h.linked j hj X hX
    refine ⟨p', hp', ⟨hLp, ?_⟩, hpX⟩
    rintro rfl
    exact hjf (h.single j hj f hflt X hX (hpX ▸ hfX))

theorem absent_of_clear (h : Inv L s) (hX : s.swapMap.test X = false) : s.frameOf X = none := by
  refine frameOf_eq_none_iff.mpr fun q hq hmap => ?_
  obtain ⟨p, -, hLp, rfl⟩ := h.linked q hq X hmap
  rw [(h.owns.marked p hLp).2] at hX
  cases hX

theorem alloc {i : ℕ} (h : Inv L s) (hp : ¬ L p) (hs : s.allocPage = some (page, t)) :
    Inv (fun p' => p' = p ∨ L p') (t.setEntry p (newEntry i page)) := by
  have howns := h.owns.alloc (i := i) hp hs
  obtain ⟨-, -, -, rfl⟩ := allocPage_eq_some hs
  have hne : ∀ p', L p' → p' ≠ p := fun p' hp' he => hp (he ▸ hp')
  refine ⟨howns, h.frames.of_eq rfl rfl, h.single.of_eq rfl, fun q hq X hX => ?_, ?_⟩
  · obtain ⟨p', hp', hLp, hpX⟩ := h.linked q hq X hX
    refine ⟨p', hp', .inr hLp, ?_⟩
    simpa [swapPage, State.setEntry, update_of_ne (hne p' hLp)] using hpX
  · rintro p' (rfl | hp')
    · simp [State.setEntry, newEntry]
    · simpa [State.setEntry, update_of_ne (hne p' hp')] using h.writable p' hp'

theorem congr (h : Inv L s) (hM : ∀ p, M p ↔ L p) : Inv M s := by
  obtain rfl : M = L := funext fun p => propext (hM p)
  exact h

/-! ## The loops and the steps -/

theorem allocPages {n : ℕ} (h : Inv L s) (hL : ∀ p, L p → p.space ≠ id)
    (hs : s.allocPages id n = some t) : Inv (withPages L id n) t := by
  induction n generalizing t with
  | zero => exact Option.some.inj hs ▸ h.congr fun p => by simp [withPages]
  | succ n ih =>
    obtain ⟨u, page, v, hu, hv, rfl⟩ := allocPages_succ hs
    refine ((ih hu).alloc ?_ hv).congr withPages_succ
    rintro (hp | hp)
    · exact hL _ hp rfl
    · exact absurd hp.2 (Nat.lt_irrefl n)

theorem copyPages {n spaceDest : ℕ} (h : Inv L s) (hL : ∀ p, L p → p.space ≠ spaceDest)
    (hs : s.copyPages id spaceDest n = some t) : Inv (withPages L spaceDest n) t := by
  induction n generalizing t with
  | zero => exact Option.some.inj hs ▸ h.congr fun p => by simp [withPages]
  | succ n ih =>
    obtain ⟨u, page, v, hu, hv, rfl⟩ := copyPages_succ hs
    have hnew : ¬ withPages L spaceDest n ⟨spaceDest, n⟩ := by
      rintro (hp | hp)
      · exact hL _ hp rfl
      · exact absurd hp.2 (Nat.lt_irrefl n)
    exact (((ih hu).alloc (i := n) hnew hv).congr withPages_succ).of_same
      ⟨rfl, rfl, fun _ => rfl⟩ rfl rfl rfl fun _ => rfl

theorem clearPages_turn {n : ℕ} {v : State σ} (h : Inv (withoutPages L id n) u) (hL : L ⟨id, n⟩)
    (hv : u.getPhysicalPage P ⟨id, n⟩ = some (q, v))
    (ht : v.clearPage P (v.swapPage ⟨id, n⟩) = some t) : Inv (withoutPages L id (n + 1)) t :=
  ((h.getPhysicalPage ⟨hL, fun hc => absurd hc.2 (Nat.lt_irrefl n)⟩ hv).clearPage
    ⟨hL, fun hc => absurd hc.2 (Nat.lt_irrefl n)⟩ ht).congr withoutPages_succ

theorem clearPages {n : ℕ} (h : Inv L s) (hL : ∀ i < n, L ⟨id, i⟩)
    (hs : s.clearPages P id n = some t) : Inv (withoutPages L id n) t := by
  induction n generalizing t with
  | zero => exact Option.some.inj hs ▸ h.congr fun p => by simp [withoutPages]
  | succ n ih =>
    obtain ⟨u, q, v, hu, hv, ht⟩ := clearPages_succ hs
    exact (ih (fun i hi => hL i (Nat.lt_succ_of_lt hi)) hu).clearPages_turn
      (hL n (Nat.lt_succ_self n)) hv ht

theorem getPhysicalPage_live (h : Inv s.Live s) (hs : s.getPhysicalPage P p = some (q, t)) :
    Inv s.Live t := by
  obtain ⟨e, he, -⟩ := getPhysicalPage_eq_some hs
  exact h.getPhysicalPage (live_of_entryAt he) hs

theorem access {addr size : ℕ} {w : Bool} {r : Option ℕ} (h : Inv s.Live s)
    (hf : (s.pageTable (entryPtr id addr)).valid = false →
      s.frameOf (s.swapPage (entryPtr id addr)) = none)
    (hs : Access P id addr size w s r t) : Inv s.Live t := by
  cases hs with
  | fault ha hv hu => exact (h.swap ha.live (hf hv) hu).setEntry rfl rfl
  | @hit q u ha hv hu hq =>
    have h' : Inv s.Live (u.markPage P q) :=
      (h.getPhysicalPage_live hu).of_same ⟨rfl, rfl, fun _ => rfl⟩ rfl rfl rfl fun _ => rfl
    exact h'.setEntry rfl rfl

theorem kernelAddr {size a : ℕ} (h : Inv s.Live s)
    (hs : s.kernelAddr P id vAddr size = some (a, t)) : Inv s.Live t := by
  obtain ⟨-, q, hq, -⟩ := kernelAddr_eq_some hs
  exact h.getPhysicalPage_live hq

theorem of_memories {f g b : ℕ → UInt8} {n : ℕ → Option ℕ} (h : Inv L s) :
    Inv L { s with mainMemory := f, swapFile := g, diskBuffer := b, numPages := n } :=
  ⟨⟨h.owns.bits, h.owns.marked, h.owns.inj⟩, h.frames.of_eq rfl rfl, h.single.of_eq rfl,
    h.linked, h.writable⟩

theorem setBuffer {n : ℕ} {g : ℕ → UInt8} (h : Inv s.Live s) :
    Inv (s.setBuffer n g).Live (s.setBuffer n g) :=
  h.of_memories

theorem create {x : NoffFile} (h : Inv s.Live s) (hs : s.create id x = some t) :
    Inv t.Live t := by
  obtain ⟨⟨hn, -⟩, u, v, hu, hv, hw⟩ := create_eq_some hs
  have hpages : t.numPages = update s.numPages id (some x.numPages) :=
    (create_sameFrames hs).numPages
  have h' : Inv s.Live (s.setNumPages id x.numPages) := h.of_memories
  have halloc := h'.allocPages (fun p hp => space_ne_of_live hn hp) hu
  obtain ⟨f, b, rfl⟩ := readSegment_eq_some hv
  obtain ⟨g, c, rfl⟩ := readSegment_eq_some hw
  exact halloc.of_memories.congr fun p => ⟨live_of_update hpages, live_of_withPages hn hpages⟩

theorem destroy (h : Inv s.Live s) (hs : s.destroy P id = some t) : Inv t.Live t := by
  obtain ⟨n, u, hn, hu, rfl⟩ := destroy_eq_some hs
  have hpages : (u.setNumPages id none).numPages = update s.numPages id none := by
    simp [setNumPages, numPages_clearPages hu]
  have h' := h.clearPages (fun i hi => ⟨n, hn, hi⟩) hu
  exact h'.of_memories.congr fun p => ⟨live_of_update_none hpages, live_of_withoutPages hn hpages⟩

theorem copyAddrSpace {spaceDest : ℕ} (h : Inv s.Live s)
    (hs : s.copyAddrSpace id spaceDest = some t) : Inv t.Live t := by
  obtain ⟨n, -, hn, hu⟩ := copyAddrSpace_eq_some hs
  have hpages : t.numPages = update s.numPages spaceDest (some n) :=
    (copyPages_sameFrames hu).numPages
  have h' : Inv s.Live (s.setNumPages spaceDest n) := h.of_memories
  exact (h'.copyPages (fun p hp => space_ne_of_live hn hp) hu).congr
    fun p => ⟨live_of_update hpages, live_of_withPages hn hpages⟩

theorem effect {a : Action} {o : Output} (h : Inv s.Live s) (hf : FaultsAbsent s a)
    (hs : Effect P s a o t) : Inv t.Live t := by
  cases hs with
  | create hc => exact h.create hc
  | loadFault ha => exact (SameTables.access ha).live ▸ h.access hf ha
  | load ha => exact (SameTables.access ha).live ▸ h.access hf ha
  | storeFault ha => exact (SameTables.access ha).live ▸ h.access hf ha
  | store ha =>
    have h' := (SameTables.access ha).live ▸ h.access hf ha
    exact h'.of_memories
  | exit hd => exact h.destroy hd
  | fork hc => exact h.copyAddrSpace hc
  | getMem ha => exact (SameTables.kernelAddr ha).live ▸ h.kernelAddr ha
  | putMem ha =>
    have h' := (SameTables.kernelAddr ha).live ▸ h.setBuffer.kernelAddr ha
    exact h'.of_memories
  | getString ha => exact (SameTables.kernelAddr ha).live ▸ h.kernelAddr ha

theorem of_initial (h : Initial s) : Inv s.Live s := by
  have hl : ∀ p, ¬ s.Live p := by
    rintro p ⟨n, hn, -⟩
    simp [h.numPages] at hn
  refine ⟨.of_initial h, .of_initial h, .of_initial h, fun q _ X hX => ?_,
    fun p hp => absurd hp (hl p)⟩
  simp [h.activePageMap] at hX

/-! ## The routines have results -/

theorem exists_takeFrame (h : Inv L s) (hL : ∀ p, L p → s.Live p) :
    ∃ q u, s.takeFrame P = some (q, u) := by
  unfold takeFrame
  split
  case isTrue hpos =>
    obtain ⟨⟨q, m⟩, hm⟩ := Option.isSome_iff_exists.mp (BitMap.find_isSome_iff.mpr hpos)
    exact ⟨q, _, by rw [hm]; rfl⟩
  case isFalse hz =>
    -- all frames are in use, so the victim holds a page of a live entry
    have hlt := P.getReplacement_lt s.policy
    have hused : s.memMap.test (P.getReplacement s.policy).1 = true := by
      by_contra hc
      exact hz (BitMap.numClear_pos_iff.mpr
        ⟨_, by rw [h.frames.bits]; exact hlt, by simpa using hc⟩)
    obtain ⟨X, hX⟩ := Option.isSome_iff_exists.mp ((h.frames.used _ hlt).mp hused)
    obtain ⟨p, hp, hLp, -⟩ := h.linked _ hlt X hX
    have he := entryAt_of_live (hL p hLp)
    have hevict : ∃ t, evict (P.getReplacement s.policy).1
        { s with policy := (P.getReplacement s.policy).2 } = some t := by
      have he' : entryAt { s with policy := (P.getReplacement s.policy).2 } p =
          some (s.pageTable p) := he
      simp only [evict, hp, he', hX, Option.bind_eq_bind, Option.bind_some]
      split
      · exact ⟨_, rfl⟩
      · exact ⟨_, rfl⟩
    obtain ⟨t, ht⟩ := hevict
    exact ⟨(P.getReplacement s.policy).1, t, congrArg (Option.map _) ht⟩

theorem exists_swap (h : Inv L s) (hL : ∀ p, L p → s.Live p) (hp : s.Live p) :
    ∃ q t, s.swap P p = some (q, t) := by
  obtain ⟨q, u, hu⟩ := h.exists_takeFrame (P := P) hL
  exact ⟨q, u.swapIn q p (s.pageTable p).physicalPage, by
    simp [State.swap, entryAt_of_live hp, hu]⟩

theorem exists_getPhysicalPage (h : Inv L s) (hL : ∀ p, L p → s.Live p) (hp : s.Live p) :
    ∃ q t, s.getPhysicalPage P p = some (q, t) := by
  simp only [State.getPhysicalPage, entryAt_of_live hp, Option.bind_eq_bind, Option.bind_some]
  cases hf : s.frameOf (s.pageTable p).physicalPage with
  | none => exact h.exists_swap hL hp
  | some q => exact ⟨q, s, rfl⟩

end Inv

end Nachos.VM
