import Nachos.VM.Residence

/-! # Pages and frames in use

In every reachable state the entries of the live page tables have swap pages
of their own, which are marked in the swap map, and the frames that hold a
page are those marked in the memory map. This holds with or without pages in
two frames.
-/

namespace Nachos.VM

open Function Bytes Transition State

variable {σ : Type} {P : Replacement σ} {s t u : State σ} {p : EntryPtr} {q id page : ℕ}
  {vAddr : ℤ} {L M : EntryPtr → Prop}

def State.swapPage (s : State σ) (p : EntryPtr) : ℕ := (s.pageTable p).physicalPage

/-- The pointer is to an entry of a live address space. -/
def State.Live (s : State σ) (p : EntryPtr) : Prop :=
  ∃ n, s.numPages p.space = some n ∧ p.page < n

theorem live_of_entryAt {e : TranslationEntry} (h : s.entryAt p = some e) : s.Live p :=
  (entryAt_eq_some_iff.mp h).1

theorem State.Accessible.live {addr size : ℕ} (h : s.Accessible id addr size) :
    s.Live (entryPtr id addr) :=
  h.2

theorem entryAt_of_live (h : s.Live p) : s.entryAt p = some (s.pageTable p) :=
  entryAt_eq_some_iff.mpr ⟨h, rfl⟩

structure Owns (L : EntryPtr → Prop) (s : State σ) : Prop where
  bits : s.swapMap.numBits = SwapSize
  marked : ∀ p, L p → s.swapPage p < SwapSize ∧ s.swapMap.test (s.swapPage p) = true
  inj : ∀ p p', L p → L p' → s.swapPage p = s.swapPage p' → p = p'

structure Frames (s : State σ) : Prop where
  bits : s.memMap.numBits = NumPhysPages
  used : ∀ q < NumPhysPages, s.memMap.test q = true ↔ (s.activePageMap q).isSome

/-! ## What bringing a page in leaves -/

structure SameTables (s t : State σ) : Prop where
  numPages : t.numPages = s.numPages
  swapMap : t.swapMap = s.swapMap
  swapPage : ∀ p, t.swapPage p = s.swapPage p

namespace SameTables

theorem refl (s : State σ) : SameTables s s := ⟨rfl, rfl, fun _ => rfl⟩

theorem trans (h : SameTables s t) (h' : SameTables t u) : SameTables s u :=
  ⟨h'.numPages.trans h.numPages, h'.swapMap.trans h.swapMap,
    fun p => (h'.swapPage p).trans (h.swapPage p)⟩

theorem live (h : SameTables s t) : t.Live = s.Live := by
  funext p
  simp [State.Live, h.numPages]

theorem setEntry {e : TranslationEntry} (he : e.physicalPage = s.swapPage p) :
    SameTables s (s.setEntry p e) := by
  refine ⟨rfl, rfl, fun p' => ?_⟩
  by_cases h : p' = p
  · subst h
    simpa [State.swapPage, State.setEntry] using he
  · simp [State.swapPage, State.setEntry, update_of_ne h]

theorem evict (h : s.evict q = some t) : SameTables s t := by
  obtain ⟨old, e, -, he, h⟩ := evict_eq_some h
  obtain ⟨-, rfl⟩ := entryAt_eq_some_iff.mp he
  have hflags : ∀ d, SameTables s
      (s.setEntry old { s.pageTable old with use := false, dirty := d }) := fun _ => setEntry rfl
  rcases h with ⟨-, sPage, -, rfl⟩ | ⟨-, rfl⟩
  · exact ⟨rfl, rfl, (hflags false).swapPage⟩
  · exact hflags _

theorem takeFrame (h : s.takeFrame P = some (q, t)) : SameTables s t := by
  rcases takeFrame_eq_some h with ⟨-, -, rfl⟩ | ⟨-, -, h⟩
  · exact ⟨rfl, rfl, fun _ => rfl⟩
  · have h₁ : SameTables s { s with policy := (P.getReplacement s.policy).2 } :=
      ⟨rfl, rfl, fun _ => rfl⟩
    exact h₁.trans (evict h)

theorem swap (h : s.swap P p = some (q, t)) : SameTables s t := by
  obtain ⟨e, u, -, hu, rfl⟩ := swap_eq_some h
  exact (takeFrame hu).trans ⟨rfl, rfl, fun _ => rfl⟩

theorem getPhysicalPage (h : s.getPhysicalPage P p = some (q, t)) : SameTables s t := by
  obtain ⟨e, -, ⟨-, rfl⟩ | ⟨-, h⟩⟩ := getPhysicalPage_eq_some h
  · exact refl _
  · exact swap h

theorem access {addr size : ℕ} {w : Bool} {r : Option ℕ} (h : Access P id addr size w s r t) :
    SameTables s t := by
  cases h with
  | fault _ _ hu => exact (swap hu).trans (setEntry rfl)
  | @hit q u _ _ hu _ =>
    have h₁ : SameTables u (u.markPage P q) := ⟨rfl, rfl, fun _ => rfl⟩
    exact ((getPhysicalPage hu).trans h₁).trans (setEntry rfl)

theorem kernelAddr {size a : ℕ} (h : s.kernelAddr P id vAddr size = some (a, t)) :
    SameTables s t := by
  obtain ⟨-, q, hq, -⟩ := kernelAddr_eq_some h
  exact getPhysicalPage hq

end SameTables

namespace Owns

theorem of_same (h : Owns L s) (hs : SameTables s t) : Owns L t := by
  constructor
  · rw [hs.swapMap]
    exact h.bits
  · intro p hp
    rw [hs.swapMap, hs.swapPage]
    exact h.marked p hp
  · intro p p' hp hp'
    rw [hs.swapPage, hs.swapPage]
    exact h.inj p p' hp hp'

theorem mono (h : Owns L s) (hM : ∀ p, M p → L p) : Owns M s :=
  ⟨h.bits, fun p hp => h.marked p (hM p hp), fun p p' hp hp' => h.inj p p' (hM p hp) (hM p' hp')⟩

theorem alloc {i : ℕ} (h : Owns L s) (hp : ¬ L p) (hs : s.allocPage = some (page, t)) :
    Owns (fun p' => p' = p ∨ L p') (t.setEntry p (newEntry i page)) := by
  obtain ⟨h₁, h₂, -, rfl⟩ := allocPage_eq_some hs
  rw [h.bits] at h₁
  have hother : ∀ p', L p' → p' ≠ p ∧ s.swapPage p' ≠ page := by
    intro p' hp'
    refine ⟨fun he => hp (he ▸ hp'), fun he => ?_⟩
    have hm := (h.marked p' hp').2
    rw [he, h₂] at hm
    cases hm
  have hkeep : ∀ p', L p' → (setEntry p (newEntry i page) { s with
      swapMap := s.swapMap.mark page
      diskBuffer := blit s.diskBuffer 0 PageSize fun _ => 0
      swapFile := blit s.swapFile (page * PageSize) PageSize fun _ => 0 }).swapPage p' =
        s.swapPage p' := by
    intro p' hp'
    simp [State.swapPage, setEntry, update_of_ne (hother p' hp').1]
  have hnew : (setEntry p (newEntry i page) { s with
      swapMap := s.swapMap.mark page
      diskBuffer := blit s.diskBuffer 0 PageSize fun _ => 0
      swapFile := blit s.swapFile (page * PageSize) PageSize fun _ => 0 }).swapPage p = page := by
    simp [State.swapPage, setEntry, newEntry]
  constructor
  · exact h.bits
  · rintro p' (rfl | hp')
    · rw [hnew]
      exact ⟨h₁, BitMap.test_mark_self⟩
    · rw [hkeep p' hp']
      refine ⟨(h.marked p' hp').1, ?_⟩
      exact (BitMap.test_mark_of_ne (hother p' hp').2.symm).trans (h.marked p' hp').2
  · rintro p' p'' (rfl | hp') (rfl | hp'')
    · exact fun _ => rfl
    · rw [hnew, hkeep p'' hp'']
      exact fun he => absurd he.symm (hother p'' hp'').2
    · rw [hnew, hkeep p' hp']
      exact fun he => absurd he (hother p' hp').2
    · rw [hkeep p' hp', hkeep p'' hp'']
      exact h.inj p' p'' hp' hp''

theorem clearPage (h : Owns L s) (hp : L p) (hs : s.clearPage P (s.swapPage p) = some t) :
    Owns (fun p' => L p' ∧ p' ≠ p) t := by
  obtain ⟨pPage, -, -, -, rfl⟩ := clearPage_eq_some hs
  constructor
  · exact h.bits
  · rintro p' ⟨hp', hne⟩
    refine ⟨(h.marked p' hp').1, ?_⟩
    have hpage : s.swapPage p ≠ s.swapPage p' := fun he => hne (h.inj p p' hp hp' he).symm
    exact (BitMap.test_clear_of_ne hpage).trans (h.marked p' hp').2
  · rintro p' p'' ⟨hp', -⟩ ⟨hp'', -⟩
    exact h.inj p' p'' hp' hp''

end Owns

/-! ## The loops over a page table -/

/-- The entries of `L` and the first `n` entries of an address space. -/
def withPages (L : EntryPtr → Prop) (id n : ℕ) (p : EntryPtr) : Prop :=
  L p ∨ p.space = id ∧ p.page < n

/-- The entries of `L` but the first `n` ones of an address space. -/
def withoutPages (L : EntryPtr → Prop) (id n : ℕ) (p : EntryPtr) : Prop :=
  L p ∧ ¬ (p.space = id ∧ p.page < n)

theorem withPages_succ {n : ℕ} (p : EntryPtr) :
    withPages L id (n + 1) p ↔ p = ⟨id, n⟩ ∨ withPages L id n p := by
  obtain ⟨space, page⟩ := p
  simp only [withPages, EntryPtr.mk.injEq]
  constructor
  · rintro (h | ⟨rfl, h⟩)
    · exact .inr (.inl h)
    · rcases Nat.lt_succ_iff_lt_or_eq.mp h with h | rfl
      · exact .inr (.inr ⟨rfl, h⟩)
      · exact .inl ⟨rfl, rfl⟩
  · rintro (⟨rfl, rfl⟩ | h | ⟨rfl, h⟩)
    · exact .inr ⟨rfl, Nat.lt_succ_self _⟩
    · exact .inl h
    · exact .inr ⟨rfl, Nat.lt_succ_of_lt h⟩

theorem withoutPages_succ {n : ℕ} (p : EntryPtr) :
    withoutPages L id (n + 1) p ↔ withoutPages L id n p ∧ p ≠ ⟨id, n⟩ := by
  obtain ⟨space, page⟩ := p
  simp only [withoutPages, EntryPtr.mk.injEq, ne_eq]
  constructor
  · rintro ⟨h, hn⟩
    exact ⟨⟨h, fun hc => hn ⟨hc.1, by omega⟩⟩, fun hc => hn ⟨hc.1, by omega⟩⟩
  · rintro ⟨⟨h, hn⟩, hne⟩
    refine ⟨h, fun ⟨hspace, hpage⟩ => hn ⟨hspace, ?_⟩⟩
    have hlast : page ≠ n := fun he => hne ⟨hspace, he⟩
    omega

namespace Owns

theorem allocPages {n : ℕ} (h : Owns L s) (hL : ∀ p, L p → p.space ≠ id)
    (hs : s.allocPages id n = some t) : Owns (withPages L id n) t := by
  induction n generalizing t with
  | zero => exact Option.some.inj hs ▸ h.mono fun p hp => by simpa [withPages] using hp
  | succ n ih =>
    obtain ⟨u, page, v, hu, hv, rfl⟩ := allocPages_succ hs
    refine ((ih hu).alloc ?_ hv).mono fun p hp => (withPages_succ p).mp hp
    rintro (hp | hp)
    · exact hL _ hp rfl
    · exact absurd hp.2 (Nat.lt_irrefl n)

theorem copyPages {n spaceDest : ℕ} (h : Owns L s) (hL : ∀ p, L p → p.space ≠ spaceDest)
    (hs : s.copyPages id spaceDest n = some t) : Owns (withPages L spaceDest n) t := by
  induction n generalizing t with
  | zero => exact Option.some.inj hs ▸ h.mono fun p hp => by simpa [withPages] using hp
  | succ n ih =>
    obtain ⟨u, page, v, hu, hv, rfl⟩ := copyPages_succ hs
    have h' := ((ih hu).alloc (p := ⟨spaceDest, n⟩) (i := n) ?_ hv).mono
      fun p hp => (withPages_succ p).mp hp
    · exact h'.of_same ⟨rfl, rfl, fun _ => rfl⟩
    · rintro (hp | hp)
      · exact hL _ hp rfl
      · exact absurd hp.2 (Nat.lt_irrefl n)

theorem clearPages {n : ℕ} (h : Owns L s) (hL : ∀ i < n, L ⟨id, i⟩)
    (hs : s.clearPages P id n = some t) : Owns (withoutPages L id n) t := by
  induction n generalizing t with
  | zero => exact Option.some.inj hs ▸ h.mono fun p hp => hp.1
  | succ n ih =>
    obtain ⟨u, q, v, hu, hv, ht⟩ := clearPages_succ hs
    have hown := (ih (fun i hi => hL i (Nat.lt_succ_of_lt hi)) hu).of_same
      (SameTables.getPhysicalPage hv)
    refine (hown.clearPage ⟨hL n (Nat.lt_succ_self n), ?_⟩ ht).mono
      fun p hp => (withoutPages_succ p).mp hp
    exact fun hc => absurd hc.2 (Nat.lt_irrefl n)

end Owns

theorem numPages_clearPages {n : ℕ} (hs : s.clearPages P id n = some t) :
    t.numPages = s.numPages := by
  refine clearPages_preserves (I := fun u => u.numPages = s.numPages) ?_ ?_ rfl hs
  · intro u p q v hu hv
    exact (SameTables.getPhysicalPage hv).numPages.trans hu
  · intro u page v hu hv
    obtain ⟨pPage, -, -, -, rfl⟩ := clearPage_eq_some hv
    exact hu

theorem swapPage_clearPages {n : ℕ} (hs : s.clearPages P id n = some t) :
    t.swapPage p = s.swapPage p := by
  refine clearPages_preserves (I := fun u => u.swapPage p = s.swapPage p) ?_ ?_ rfl hs
  · intro u p' q v hu hv
    exact ((SameTables.getPhysicalPage hv).swapPage p).trans hu
  · intro u page v hu hv
    obtain ⟨pPage, -, -, -, rfl⟩ := clearPage_eq_some hv
    exact hu

theorem live_of_update {n : ℕ} (h : t.numPages = update s.numPages id (some n)) (hp : t.Live p) :
    withPages s.Live id n p := by
  obtain ⟨m, hm, hlt⟩ := hp
  rw [h, update_apply] at hm
  split at hm
  case isTrue he =>
    obtain rfl := Option.some.inj hm
    exact .inr ⟨he, hlt⟩
  case isFalse => exact .inl ⟨m, hm, hlt⟩

theorem live_of_update_none {n : ℕ} (h : t.numPages = update s.numPages id none) (hp : t.Live p) :
    withoutPages s.Live id n p := by
  obtain ⟨m, hm, hlt⟩ := hp
  rw [h, update_apply] at hm
  split at hm
  case isTrue he => cases hm
  case isFalse he => exact ⟨⟨m, hm, hlt⟩, fun hc => he hc.1⟩

theorem live_of_withPages {n : ℕ} (hn : s.numPages id = none)
    (h : t.numPages = update s.numPages id (some n)) (hp : withPages s.Live id n p) : t.Live p := by
  rcases hp with ⟨m, hm, hlt⟩ | ⟨rfl, hlt⟩
  · have hne : p.space ≠ id := by
      rintro rfl
      rw [hn] at hm
      cases hm
    exact ⟨m, by rw [h, update_of_ne hne, hm], hlt⟩
  · exact ⟨n, by rw [h, update_self], hlt⟩

theorem live_of_withoutPages {n : ℕ} (hn : s.numPages id = some n)
    (h : t.numPages = update s.numPages id none) (hp : withoutPages s.Live id n p) : t.Live p := by
  obtain ⟨⟨m, hm, hlt⟩, hnot⟩ := hp
  have hne : p.space ≠ id := by
    intro he
    rw [he, hn] at hm
    obtain rfl := Option.some.inj hm
    exact hnot ⟨he, hlt⟩
  exact ⟨m, by rw [h, update_of_ne hne, hm], hlt⟩

theorem space_ne_of_live (hn : s.numPages id = none) (hp : s.Live p) : p.space ≠ id := by
  rintro rfl
  obtain ⟨n, hn', -⟩ := hp
  rw [hn] at hn'
  cases hn'

theorem Owns.effect {a : Action} {o : Output} (h : Owns s.Live s) (hs : Effect P s a o t) :
    Owns t.Live t := by
  have hsame : ∀ {t : State σ}, SameTables s t → Owns t.Live t := fun ht =>
    ht.live ▸ h.of_same ht
  cases hs with
  | @create _ id x hc =>
    obtain ⟨⟨hn, -⟩, u, v, hu, hv, hw⟩ := create_eq_some hc
    have h' : Owns s.Live (s.setNumPages id x.numPages) := ⟨h.bits, h.marked, h.inj⟩
    have hown := h'.allocPages (fun p hp => space_ne_of_live hn hp) hu
    obtain ⟨f, b, rfl⟩ := readSegment_eq_some hv
    obtain ⟨g, c, rfl⟩ := readSegment_eq_some hw
    exact (hown.mono fun p hp => live_of_update ((allocPages_sameFrames hu).numPages) hp).of_same
      ⟨rfl, rfl, fun _ => rfl⟩
  | loadFault ha => exact hsame (.access ha)
  | load ha => exact hsame (.access ha)
  | storeFault ha => exact hsame (.access ha)
  | store ha => exact hsame ((SameTables.access ha).trans ⟨rfl, rfl, fun _ => rfl⟩)
  | @exit _ id hd =>
    obtain ⟨n, u, hn, hu, rfl⟩ := destroy_eq_some hd
    have hown := h.clearPages (fun i hi => ⟨n, hn, hi⟩) hu
    have hp : (u.setNumPages id none).numPages = update s.numPages id none := by
      simp [setNumPages, numPages_clearPages hu]
    have h' := hown.mono fun p => live_of_update_none (p := p) hp
    exact ⟨h'.bits, h'.marked, h'.inj⟩
  | @fork _ id spaceDest hc =>
    obtain ⟨n, -, hn, hu⟩ := copyAddrSpace_eq_some hc
    have h' : Owns s.Live (s.setNumPages spaceDest n) := ⟨h.bits, h.marked, h.inj⟩
    exact (h'.copyPages (fun p hp => space_ne_of_live hn hp) hu).mono
      fun p hp => live_of_update ((copyPages_sameFrames hu).numPages) hp
  | getMem ha => exact hsame (.kernelAddr ha)
  | putMem ha =>
    have hka := SameTables.kernelAddr ha
    exact hsame ⟨hka.numPages, hka.swapMap, hka.swapPage⟩
  | getString ha => exact hsame (.kernelAddr ha)

theorem Owns.of_initial (h : Initial s) : Owns s.Live s := by
  have hl : ∀ p, ¬ s.Live p := by
    rintro p ⟨n, hn, -⟩
    simp [h.numPages] at hn
  exact ⟨h.swapBits, fun p hp => absurd hp (hl p), fun p _ hp => absurd hp (hl p)⟩

/-- In every reachable state each entry of a live page table has a swap page of its own. -/
theorem owns_of_reachable (h : Reachable (system P) s) : Owns s.Live s :=
  h.invariant (P := fun s => Owns s.Live s) (fun _ => Owns.of_initial)
    fun _ _ _ hs ht => hs.effect (effect_of_act (step_eq_some_iff.mp ht))

/-! ## The frames -/

namespace Frames

theorem of_eq (h : Frames s) (hm : t.memMap = s.memMap)
    (ha : t.activePageMap = s.activePageMap) : Frames t := by
  refine ⟨by rw [hm]; exact h.bits, ?_⟩
  rw [hm, ha]
  exact h.used

theorem setBuffer {n : ℕ} {g : ℕ → UInt8} (h : Frames s) : Frames (s.setBuffer n g) :=
  h.of_eq rfl rfl

theorem memMap_evict (h : s.evict q = some t) : t.memMap = s.memMap := by
  obtain ⟨old, e, -, -, ⟨-, sPage, -, rfl⟩ | ⟨-, rfl⟩⟩ := evict_eq_some h <;> rfl

theorem takeFrame_lt (h : Frames s) (hs : s.takeFrame P = some (q, t)) : q < NumPhysPages := by
  rcases takeFrame_eq_some hs with ⟨hq, -⟩ | ⟨-, rfl, -⟩
  · rw [← h.bits]
    exact hq
  · exact P.getReplacement_lt _

theorem swap (h : Frames s) (hs : s.swap P p = some (q, t)) : Frames t := by
  obtain ⟨e, u, -, hu, rfl⟩ := swap_eq_some hs
  have ha := activePageMap_takeFrame hu
  rcases takeFrame_eq_some hu with ⟨hq, hf, rfl⟩ | ⟨hz, rfl, he⟩
  · refine ⟨h.bits, fun i hi => ?_⟩
    simp only [swapIn, BitMap.test_mark, update_apply]
    by_cases hqi : i = q
    · simp [hqi]
    · simpa [hqi, Ne.symm hqi] using h.used i hi
  · have hm := memMap_evict he
    refine ⟨by rw [← h.bits]; exact congrArg BitMap.numBits hm, fun i hi => ?_⟩
    have hall : s.memMap.test i = true := by
      by_contra hc
      have hpos := BitMap.numClear_pos_iff.mpr ⟨i, by rw [h.bits]; exact hi, by simpa using hc⟩
      omega
    simp only [swapIn, hm, ha, update_apply, hall, true_iff]
    split
    · rfl
    · exact (h.used i hi).mp hall

theorem getPhysicalPage (h : Frames s) (hs : s.getPhysicalPage P p = some (q, t)) :
    Frames t := by
  obtain ⟨e, -, ⟨-, rfl⟩ | ⟨-, hs⟩⟩ := getPhysicalPage_eq_some hs
  · exact h
  · exact h.swap hs

theorem clearPage {sPage : ℕ} (h : Frames s) (hs : s.clearPage P sPage = some t) : Frames t := by
  obtain ⟨pPage, -, -, -, rfl⟩ := clearPage_eq_some hs
  refine ⟨h.bits, fun i hi => ?_⟩
  simp only [BitMap.test_clear, update_apply]
  by_cases hpi : i = pPage
  · simp [hpi]
  · simpa [hpi, Ne.symm hpi] using h.used i hi

theorem access {addr size : ℕ} {w : Bool} {r : Option ℕ} (h : Frames s)
    (hs : Access P id addr size w s r t) : Frames t := by
  cases hs with
  | fault _ _ hu => exact (h.swap hu).of_eq rfl rfl
  | hit _ _ hu _ => exact (h.getPhysicalPage hu).of_eq rfl rfl

theorem kernelAddr {size a : ℕ} (h : Frames s)
    (hs : s.kernelAddr P id vAddr size = some (a, t)) : Frames t := by
  obtain ⟨-, q, hq, -⟩ := kernelAddr_eq_some hs
  exact h.getPhysicalPage hq

theorem clearPages {n : ℕ} (h : Frames s) (hs : s.clearPages P id n = some t) : Frames t :=
  clearPages_preserves (fun _ _ _ _ hu hv => hu.getPhysicalPage hv)
    (fun _ _ _ hv ht => hv.clearPage ht) h hs

theorem effect {a : Action} {o : Output} (h : Frames s) (hs : Effect P s a o t) : Frames t := by
  cases hs with
  | create hc => exact h.of_eq (create_sameFrames hc).memMap (create_sameFrames hc).activePageMap
  | loadFault ha => exact h.access ha
  | load ha => exact h.access ha
  | storeFault ha => exact h.access ha
  | store ha => exact (h.access ha).of_eq rfl rfl
  | exit hd =>
    obtain ⟨n, u, -, hu, rfl⟩ := destroy_eq_some hd
    exact (h.clearPages hu).of_eq rfl rfl
  | fork hc =>
    obtain ⟨n, -, -, hu⟩ := copyAddrSpace_eq_some hc
    exact h.of_eq (copyPages_sameFrames hu).memMap (copyPages_sameFrames hu).activePageMap
  | getMem ha => exact h.kernelAddr ha
  | putMem ha => exact (h.setBuffer.kernelAddr ha).of_eq rfl rfl
  | getString ha => exact h.kernelAddr ha

theorem of_initial (h : Initial s) : Frames s :=
  ⟨h.memBits, fun q hq => by simp [h.memMap q hq, h.activePageMap]⟩

end Frames

theorem frames_of_reachable (h : Reachable (system P) s) : Frames s :=
  h.invariant (P := Frames) (fun _ => Frames.of_initial)
    fun _ _ _ hs ht => hs.effect (effect_of_act (step_eq_some_iff.mp ht))

end Nachos.VM
