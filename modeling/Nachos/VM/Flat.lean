import Nachos.VM.Progress

/-! # One flat memory per process

In runs of user programs, without kernel accesses to their memory, a page that
is not valid is in no frame and a clean frame is a copy of its swap page. So no
contents are lost, and each process has a memory of its own.
-/

namespace Nachos.VM

open Function Bytes Transition State

variable {σ : Type} {P : Replacement σ} {s t u : State σ} {p : EntryPtr} {q id addr X : ℕ}
  {i : Fin PageSize} {size : Size} {w : Bool} {L M : EntryPtr → Prop}

/-! ## The flat memories -/

structure Flat where
  numPages : ℕ → Option ℕ
  bytes : ℕ → ℕ → UInt8

/-- The access is aligned and inside the memory of the process. -/
def Flat.Accessible (f : Flat) (id addr size : ℕ) : Prop :=
  ¬ (size = 4 ∧ addr % 4 ≠ 0 ∨ size = 2 ∧ addr % 2 ≠ 0) ∧
    ∃ n, f.numPages id = some n ∧ addr / PageSize < n

/-- A process starts with the image of its program, loads what is in its memory and stores to
it; a page fault has no effect. -/
inductive Flat.Step (f : Flat) : Label → Flat → Prop
  | create {id : ℕ} {x : NoffFile} : f.numPages id = none →
      Step f (.create id x, .done)
        ⟨update f.numPages id (some x.numPages), update f.bytes id x.image⟩
  | loadFault {id addr : ℕ} {size : Size} : f.Accessible id addr size.bytes →
      Step f (.load id addr size, .faulted) f
  | load {id addr : ℕ} {size : Size} : f.Accessible id addr size.bytes →
      Step f (.load id addr size, .value (readValue size fun i => f.bytes id (addr + i))) f
  | storeFault {id addr : ℕ} {size : Size} {value : BitVec 32} :
      f.Accessible id addr size.bytes → Step f (.store id addr size value, .faulted) f
  | store {id addr : ℕ} {size : Size} {value : BitVec 32} : f.Accessible id addr size.bytes →
      Step f (.store id addr size value, .done)
        { f with
          bytes := update f.bytes id (blit (f.bytes id) addr size.bytes (valueByte value)) }
  | exit {id n : ℕ} : f.numPages id = some n →
      Step f (.exit id, .done) { f with numPages := update f.numPages id none }

/-- The flat memories, with no process at first. -/
def flatMemory : System Flat Label where
  Init f := ∀ id, f.numPages id = none
  Step := Flat.Step

/-! ## What user programs keep -/

def Clean (s : State σ) : Prop :=
  ∀ q < NumPhysPages, ∀ X p, s.activePageMap q = some X → s.activePages q = some p →
    (s.pageTable p).dirty = false → block s.mainMemory PageSize q = block s.swapFile PageSize X

/-- An entry of `L` that is not valid has its page in no frame. -/
def Absent (L : EntryPtr → Prop) (s : State σ) : Prop :=
  ∀ p, L p → (s.pageTable p).valid = false → s.frameOf (s.swapPage p) = none

structure UserInv (L : EntryPtr → Prop) (s : State σ) : Prop extends Inv L s where
  clean : Clean s
  absent : Absent L s

theorem Clean.of_same (h : Clean s) (hm : t.mainMemory = s.mainMemory)
    (hf : t.swapFile = s.swapFile) (ha : t.activePageMap = s.activePageMap)
    (hp : t.activePages = s.activePages)
    (hd : ∀ p, (t.pageTable p).dirty = false → (s.pageTable p).dirty = false) : Clean t := by
  intro q hq X p hX hpq hdirty
  rw [hm, hf]
  rw [ha] at hX
  rw [hp] at hpq
  exact h q hq X p hX hpq (hd p hdirty)

theorem UserInv.keeps (h : UserInv L s) : s.Keeps P X i := by
  intro _ hX
  have hlt := P.getReplacement_lt s.policy
  obtain ⟨p, hp, -, -⟩ := h.linked _ hlt X hX
  cases hd : (s.pageTable p).dirty with
  | true => exact .inl ⟨p, hp, hd⟩
  | false => exact .inr (congrFun (h.clean _ hlt X p hX hp hd) i)

theorem UserInv.clean_swap (h : UserInv L s) (habs : s.frameOf (s.swapPage p) = none)
    (hs : s.swap P p = some (q, t)) : Clean t := by
  have hlt := swap_lt h.frames hs
  have hmap := activePageMap_swap hs
  have hblock := swap_block hs (frameOf_eq_none_iff.mp habs q hlt)
  obtain ⟨-, hflags, hpages⟩ := swap_flags hs
  obtain ⟨e, u, he, hu, rfl⟩ := swap_eq_some hs
  obtain ⟨-, rfl⟩ := entryAt_eq_some_iff.mp he
  intro j hj X p' hX hp' hd
  rw [hmap, update_apply] at hX
  rw [hpages, update_apply] at hp'
  split at hX
  case isTrue hjq =>
    subst hjq
    obtain rfl := Option.some.inj hX
    rw [hblock]
    exact (takeFrame_swapFile hu (frameOf_eq_none_iff.mp habs j hlt)).symm
  case isFalse hjq =>
    rw [if_neg hjq] at hp'
    have hXq : s.activePageMap q ≠ some X := fun hc => hjq (h.single j hj q hlt X hX hc)
    have hmain : block (u.swapIn q p (s.pageTable p).physicalPage).mainMemory PageSize j =
        block s.mainMemory PageSize j := by
      rw [swapIn, block_blit_ne hjq, (takeFrame_cases hu).1]
    -- an entry is in one frame only, so the flags of this one are those from before
    have hdirty : (s.pageTable p').dirty = false := by
      rcases takeFrame_eq_some hu with ⟨-, -, rfl⟩ | ⟨hz, -, -⟩
      · exact hd
      · rw [← hflags p' fun hc => ?_]
        · exact hd
        · have hused : s.memMap.test q = true := by
            by_contra hfree
            have := BitMap.numClear_pos_iff.mpr
              ⟨q, by rw [h.frames.bits]; exact hlt, by simpa using hfree⟩
            omega
          obtain ⟨Y, hY⟩ := Option.isSome_iff_exists.mp ((h.frames.used q hlt).mp hused)
          obtain ⟨p₁, hp₁, -, rfl⟩ := h.linked q hlt Y hY
          obtain ⟨p₂, hp₂, -, rfl⟩ := h.linked j hj X hX
          obtain rfl := Option.some.inj (hc.symm.trans hp₁)
          obtain rfl := Option.some.inj (hp'.symm.trans hp₂)
          exact hXq hY
    rw [hmain, h.clean j hj X p' hX hp' hdirty]
    exact (takeFrame_swapFile hu hXq).symm

theorem UserInv.absent_swap (h : UserInv L s) (hL : L p) (hs : s.swap P p = some (q, t)) :
    Absent (fun p' => L p' ∧ p' ≠ p) t := by
  rintro p' ⟨hLp, hne⟩ hv
  rw [((swap_flags hs).1 p').1] at hv
  have hnone := frameOf_eq_none_iff.mp (h.absent p' hLp hv)
  rw [(SameTables.swap hs).swapPage]
  refine frameOf_eq_none_iff.mpr fun j hj => ?_
  rw [activePageMap_swap hs, update_apply]
  split
  · exact fun hc => hne (h.owns.inj p p' hL hLp (Option.some.inj hc)).symm
  · exact hnone j hj

namespace UserInv

theorem congr (h : UserInv L s) (hM : ∀ p, M p ↔ L p) : UserInv M s := by
  obtain rfl : M = L := funext fun p => propext (hM p)
  exact h

theorem getPhysicalPage (h : UserInv L s) (hL : L p) (hs : s.getPhysicalPage P p = some (q, t)) :
    Inv L t ∧ Clean t ∧ Absent (fun p' => L p' ∧ p' ≠ p) t := by
  refine ⟨h.toInv.getPhysicalPage hL hs, ?_⟩
  obtain ⟨e, he, ⟨-, rfl⟩ | ⟨habs, hs⟩⟩ := getPhysicalPage_eq_some hs
  · exact ⟨h.clean, fun p' hp' => h.absent p' hp'.1⟩
  · obtain ⟨-, rfl⟩ := entryAt_eq_some_iff.mp he
    exact ⟨h.clean_swap habs hs, h.absent_swap hL hs⟩

theorem valid_getPhysicalPage (hs : s.getPhysicalPage P p = some (q, t)) (p' : EntryPtr) :
    (t.pageTable p').valid = (s.pageTable p').valid := by
  obtain ⟨e, -, ⟨-, rfl⟩ | ⟨-, hs⟩⟩ := getPhysicalPage_eq_some hs
  · rfl
  · exact ((swap_flags hs).1 p').1

theorem access {r : Option ℕ} (h : UserInv s.Live s)
    (hs : Access P id addr size.bytes w s r t) : UserInv s.Live t := by
  refine ⟨h.toInv.access (fun hv => h.absent _ hs.accessible.live hv) hs, ?_, ?_⟩
  · cases hs with
    | fault ha hv hu =>
      refine (h.clean_swap (h.absent _ ha.live hv) hu).of_same rfl rfl rfl rfl fun p' hd => ?_
      by_cases hp : p' = entryPtr id addr
      · subst hp
        simpa using hd
      · rwa [setEntry_pageTable_of_ne hp] at hd
    | hit ha hv hu hq =>
      refine (h.getPhysicalPage ha.live hu).2.1.of_same rfl rfl rfl rfl fun p' hd => ?_
      by_cases hp : p' = entryPtr id addr
      · subst hp
        rw [touch, setEntry_pageTable_self, Bool.or_eq_false_iff] at hd
        exact hd.1
      · rwa [touch, setEntry_pageTable_of_ne hp] at hd
  · have hsame := SameTables.access hs
    intro p' hL hv
    rw [hsame.swapPage]
    -- an entry that is not valid afterwards is not the one of the access
    cases hs with
    | fault ha hv' hu =>
      have hne : p' ≠ entryPtr id addr := by
        rintro rfl
        simp at hv
      rw [setEntry_pageTable_of_ne hne] at hv
      have habs := h.absent_swap ha.live hu p' ⟨hL, hne⟩ hv
      rw [(SameTables.swap hu).swapPage] at habs
      exact habs
    | hit ha hv' hu hq =>
      have hne : p' ≠ entryPtr id addr := by
        rintro rfl
        simp [touch, markPage, valid_getPhysicalPage hu, hv'] at hv
      rw [touch, setEntry_pageTable_of_ne hne] at hv
      have habs := (h.getPhysicalPage ha.live hu).2.2 p' ⟨hL, hne⟩ hv
      rw [(SameTables.getPhysicalPage hu).swapPage] at habs
      exact habs

theorem store {value : BitVec 32} (h : UserInv s.Live s)
    (hs : Access P id addr size.bytes true s (some q) u) :
    UserInv s.Live { u with
      mainMemory := blit u.mainMemory (q * PageSize + addr % PageSize) size.bytes
        (valueByte value) } := by
  have hu := h.access hs
  have hdirty : (u.pageTable (entryPtr id addr)).dirty = true := by
    cases hs with
    | hit _ _ _ _ => simp [touch]
  have hframe := h.toInv.frameOf_access hs
  refine ⟨hu.toInv.of_memories, fun j hj X p hX hp hd => ?_, hu.absent⟩
  have hjq : j ≠ q := by
    rintro rfl
    obtain ⟨p', hp', hL, rfl⟩ := hu.linked j hj X hX
    obtain rfl := Option.some.inj (hp.symm.trans hp')
    have hpage := Option.some.inj (hX.symm.trans (frameOf_eq_some_iff.mp hframe).2.1)
    rw [hu.owns.inj p _ hL hs.accessible.live hpage, hdirty] at hd
    cases hd
  dsimp only
  rw [block_blit_other hs.accessible.in_page hjq]
  exact hu.clean j hj X p hX hp hd

theorem newSpace {n : ℕ} (h : UserInv s.Live s) (hid : s.numPages id = none)
    (hframes : SameFrames (s.setNumPages id n) t)
    (htable : ∀ p, p.space ≠ id → t.pageTable p = s.pageTable p)
    (hkept : ∀ X, s.swapMap.test X = true →
      block t.swapFile PageSize X = block s.swapFile PageSize X)
    (hfresh : ∀ v < n, s.swapMap.test (t.swapPage ⟨id, v⟩) = false) (hinv : Inv t.Live t) :
    UserInv t.Live t := by
  have hpages : t.numPages = update s.numPages id (some n) := hframes.numPages
  have hmap : t.activePageMap = s.activePageMap := hframes.activePageMap
  have hold : ∀ p, s.Live p → t.pageTable p = s.pageTable p := fun p hp =>
    htable p (space_ne_of_live hid hp)
  refine ⟨hinv, ?_, ?_⟩
  · intro q hq X p hX hp hd
    rw [hmap] at hX
    rw [hframes.activePages] at hp
    obtain ⟨p', hp', hL, rfl⟩ := h.linked q hq X hX
    obtain rfl := Option.some.inj (hp.symm.trans hp')
    rw [hold p hL] at hd
    rw [hframes.mainMemory, hkept _ (h.owns.marked p hL).2]
    exact h.clean q hq _ p hX hp' hd
  · intro p hp hv
    rw [frameOf_congr hmap]
    rcases live_of_update hpages hp with hlive | ⟨hspace, hlt⟩
    · rw [hold p hlive] at hv
      rw [swapPage, hold p hlive]
      exact h.absent p hlive hv
    · obtain ⟨space, v⟩ := p
      obtain rfl : space = id := hspace
      exact h.toInv.absent_of_clear (hfresh v hlt)

theorem create {x : NoffFile} (h : UserInv s.Live s) (hx : x.Inside)
    (hs : s.create id x = some t) : UserInv t.Live t := by
  obtain ⟨hid, hc⟩ := created_of_create h.toInv hx hs
  exact h.newSpace hid hc.frames hc.table hc.kept hc.fresh (h.toInv.create hs)

theorem clearPages {n : ℕ} (h : UserInv L s) (hL : ∀ i < n, L ⟨id, i⟩)
    (hs : s.clearPages P id n = some t) : UserInv (withoutPages L id n) t := by
  induction n generalizing t with
  | zero => exact Option.some.inj hs ▸ h.congr fun p => by simp [withoutPages]
  | succ n ih =>
    obtain ⟨u, q, v, hu, hv, ht⟩ := clearPages_succ hs
    have hinv := ih (fun i hi => hL i (Nat.lt_succ_of_lt hi)) hu
    have hLn : withoutPages L id n ⟨id, n⟩ :=
      ⟨hL n (Nat.lt_succ_self n), fun hc => absurd hc.2 (Nat.lt_irrefl n)⟩
    obtain ⟨hinv', hclean, habsent⟩ := hinv.getPhysicalPage hLn hv
    refine UserInv.congr ⟨hinv'.clearPage hLn ht, ?_, ?_⟩ withoutPages_succ
    · obtain ⟨f, hf, -, -, rfl⟩ := clearPage_eq_some ht
      obtain ⟨hflt, hfY, -⟩ := frameOf_eq_some_iff.mp hf
      intro j hj X p hX hp hd
      dsimp only at hX hp hd ⊢
      rw [update_apply] at hX hp
      split at hX
      case isTrue => cases hX
      case isFalse hjf =>
        rw [if_neg hjf] at hp
        have hXY : X ≠ v.swapPage ⟨id, n⟩ := by
          rintro rfl
          exact hjf (hinv'.single j hj f hflt _ hX hfY)
        exact (hclean j hj X p hX hp hd).trans (block_blit_ne hXY).symm
    · obtain ⟨f, hf, -, -, rfl⟩ := clearPage_eq_some ht
      intro p hp hvalid
      have hnone := frameOf_eq_none_iff.mp (habsent p hp hvalid)
      refine frameOf_eq_none_iff.mpr fun j hj => ?_
      dsimp only
      rw [update_apply]
      split
      · simp
      · exact hnone j hj

theorem destroy (h : UserInv s.Live s) (hs : s.destroy P id = some t) : UserInv t.Live t := by
  obtain ⟨n, u, hn, hu, rfl⟩ := destroy_eq_some hs
  have hpages : (u.setNumPages id none).numPages = update s.numPages id none := by
    simp [setNumPages, numPages_clearPages hu]
  have h' := h.clearPages (fun i hi => ⟨n, hn, hi⟩) hu
  have h'' : UserInv (withoutPages s.Live id n) (u.setNumPages id none) :=
    ⟨h'.toInv.of_memories, h'.clean, h'.absent⟩
  exact h''.congr fun p => ⟨live_of_update_none hpages, live_of_withoutPages hn hpages⟩

theorem of_initial (h : Initial s) : UserInv s.Live s := by
  refine ⟨.of_initial h, fun q _ X p hX => ?_, fun p _ _ => frameOf_eq_none_iff.mpr fun q _ => ?_⟩
  · simp [h.activePageMap] at hX
  · simp [h.activePageMap]

end UserInv

/-! ## The simulation -/

def Action.User : Action → Prop
  | .create _ x => x.Inside
  | .load _ _ _ | .store _ _ _ _ | .exit _ => True
  | .fork _ _ | .getMem _ _ _ | .putMem _ _ _ | .getString _ _ => False

instance (a : Action) : Decidable a.User :=
  match a with
  | .create _ x => inferInstanceAs (Decidable x.Inside)
  | .load _ _ _ | .store _ _ _ _ | .exit _ => inferInstanceAs (Decidable True)
  | .fork _ _ | .getMem _ _ _ | .putMem _ _ _ | .getString _ _ => inferInstanceAs (Decidable False)

def userSystem (P : Replacement σ) : System (State σ) Label := (system P).guard fun _ l => l.1.User

/-- The paging system reads what is in the flat memories. -/
structure State.Represents (s : State σ) (f : Flat) : Prop where
  numPages : f.numPages = s.numPages
  bytes : ∀ id v, s.Live (entryPtr id v) → f.bytes id v = s.byteAt id v

theorem State.Represents.accessible {f : Flat} (h : s.Represents f) :
    f.Accessible id addr size.bytes ↔ s.Accessible id addr size.bytes := by
  rw [Flat.Accessible, State.Accessible, h.numPages]

theorem UserInv.byteAt_access {r : Option ℕ} {id' v : ℕ} (h : UserInv s.Live s)
    (hs : Access P id addr size.bytes w s r t) : t.byteAt id' v = s.byteAt id' v := by
  unfold byteAt
  rw [(SameTables.access hs).swapPage]
  exact h.toInv.contents_access (fun hv => h.absent _ hs.accessible.live hv) (fun _ => h.keeps) hs

theorem State.Represents.access {r : Option ℕ} {f : Flat} (hf : s.Represents f)
    (h : UserInv s.Live s) (hs : Access P id addr size.bytes w s r t) : t.Represents f := by
  refine ⟨hf.numPages.trans (SameTables.access hs).numPages.symm, fun id' v hv => ?_⟩
  rw [(SameTables.access hs).live] at hv
  rw [h.byteAt_access hs, hf.bytes id' v hv]

theorem State.Represents.store {f : Flat} {value : BitVec 32} (hf : s.Represents f)
    (h : UserInv s.Live s) (hs : Access P id addr size.bytes true s (some q) u) :
    State.Represents
      { u with
        mainMemory := blit u.mainMemory (q * PageSize + addr % PageSize) size.bytes
          (valueByte value) }
      { f with
        bytes := update f.bytes id (blit (f.bytes id) addr size.bytes (valueByte value)) } := by
  have hu := h.access hs
  have hlive := (SameTables.access hs).live
  rw [← hlive] at hu
  have hrep := hf.access h hs
  refine ⟨hrep.numPages, fun id' v hv => ?_⟩
  have hv' : u.Live (entryPtr id' v) := hv
  have hptr : u.Live (entryPtr id addr) := hlive ▸ hs.accessible.live
  rw [byteAt_write hu.owns (h.toInv.frameOf_access hs) hptr hs.accessible.in_page hv']
  dsimp only
  rw [update_apply]
  split
  case isTrue hid =>
    subst hid
    exact blit_congr (hrep.bytes id' v hv')
  case isFalse => exact hrep.bytes id' v hv'

theorem State.Represents.create {f : Flat} {x : NoffFile} (hf : s.Represents f)
    (h : UserInv s.Live s) (hx : x.Inside) (hs : s.create id x = some t) :
    t.Represents ⟨update f.numPages id (some x.numPages), update f.bytes id x.image⟩ := by
  obtain ⟨hid, hc⟩ := created_of_create h.toInv hx hs
  have hpages : t.numPages = update s.numPages id (some x.numPages) := hc.frames.numPages
  refine ⟨by rw [hpages, hf.numPages], fun id' v hv => ?_⟩
  dsimp only
  rcases live_of_update hpages hv with hold | ⟨hspace, hlt⟩
  · have hne : id' ≠ id := space_ne_of_live hid hold
    rw [update_of_ne hne, hf.bytes id' v hold]
    exact (congrFun (hc.contents_kept h.toInv hid hold) _).symm
  · obtain rfl : id' = id := hspace
    have hbyte := hc.contents_new (i := ⟨v % PageSize, Nat.mod_lt _ (by decide)⟩) h.toInv hlt
    rw [update_self]
    refine Eq.trans ?_ hbyte.symm
    congr 1
    exact (Nat.div_add_mod' v PageSize).symm

theorem State.Represents.destroy {f : Flat} (hf : s.Represents f) (h : UserInv s.Live s)
    (hs : s.destroy P id = some t) :
    t.Represents { f with numPages := update f.numPages id none } := by
  obtain ⟨n, u, hn, hu, ht⟩ := destroy_eq_some hs
  have hpages : t.numPages = update s.numPages id none := by
    rw [ht, ← numPages_clearPages hu]
    rfl
  refine ⟨by rw [hpages, hf.numPages], fun id' v hv => ?_⟩
  obtain ⟨hold, hne⟩ := live_of_update_none (n := n) hpages hv
  have hspares : (Action.exit id).Spares (entryPtr id' v) := by
    rintro rfl
    obtain ⟨m, hm, hlt⟩ := hv
    simp [hpages, entryPtr] at hm
  dsimp only
  rw [hf.bytes id' v hold]
  have hfaults : FaultsAbsent s (.exit id) := trivial
  exact (h.toInv.contents_effect hfaults hold hspares (fun _ _ _ => h.keeps) (.exit hs)).symm

theorem userSystem_step {a : Action} {o : Output} (h : (userSystem P).Step s (a, o) t) :
    a.User ∧ Effect P s a o t :=
  ⟨h.1, effect_of_act (step_eq_some_iff.mp h.2)⟩

theorem State.Represents.readValue_eq {f : Flat} (hf : s.Represents f) (h : UserInv s.Live s)
    (hs : Access P id addr size.bytes w s (some q) t) :
    readValue size (fun i => t.mainMemory (q * PageSize + addr % PageSize + i)) =
      readValue size fun i => f.bytes id (addr + i) := by
  rw [readValue_byteAt h.frames hs]
  exact readValue_congr fun i hi => (hf.bytes _ _ (hs.accessible.live_add hi)).symm

/-- Each step of a user program is a step of the flat memories. -/
theorem userSystem_simulates : Simulates (userSystem P) flatMemory
    fun s f => UserInv s.Live s ∧ s.Represents f := by
  constructor
  · intro s h
    refine ⟨⟨fun _ => none, fun _ _ => 0⟩, fun _ => rfl, .of_initial h, ?_, fun id v hv => ?_⟩
    · exact funext fun id => (h.numPages id).symm
    · obtain ⟨n, hn, -⟩ := hv
      simp [h.numPages] at hn
  · rintro s f ⟨a, o⟩ t ⟨hinv, hf⟩ hstep
    obtain ⟨huser, heffect⟩ := userSystem_step hstep
    cases heffect with
    | create hc =>
      have hid := (created_of_create hinv.toInv huser hc).1
      exact ⟨_, .create (by rw [hf.numPages, hid]), hinv.create huser hc,
        hf.create hinv huser hc⟩
    | loadFault hacc =>
      exact ⟨f, .loadFault (hf.accessible.mpr hacc.accessible),
        (SameTables.access hacc).live ▸ hinv.access hacc, hf.access hinv hacc⟩
    | load hacc =>
      refine ⟨f, ?_, (SameTables.access hacc).live ▸ hinv.access hacc, hf.access hinv hacc⟩
      rw [hf.readValue_eq hinv hacc]
      exact .load (hf.accessible.mpr hacc.accessible)
    | storeFault hacc =>
      exact ⟨f, .storeFault (hf.accessible.mpr hacc.accessible),
        (SameTables.access hacc).live ▸ hinv.access hacc, hf.access hinv hacc⟩
    | store hacc =>
      refine ⟨_, .store (hf.accessible.mpr hacc.accessible), ?_, hf.store hinv hacc⟩
      have hlive := (SameTables.access hacc).live
      exact hlive.symm ▸ hinv.store hacc
    | exit hd =>
      obtain ⟨n, u, hn, hu, -⟩ := destroy_eq_some hd
      exact ⟨_, .exit (n := n) (by rw [hf.numPages, hn]), hinv.destroy hd, hf.destroy hinv hd⟩
    | fork => exact huser.elim
    | getMem => exact huser.elim
    | putMem => exact huser.elim
    | getString => exact huser.elim

/-! ## The refinement -/

/-- The paged memory refines one private flat memory per process: every run of user programs,
under every replacement policy, is a run of the flat memories with the same values loaded, and
in the state that it ends in every access, exit and creation completes, a load with the value
that the flat memory has. -/
theorem paged_memory_refines_flat {s₀ : State σ} {as : List Label} (h₀ : Initial s₀)
    (h : Run (userSystem P) s₀ as s) :
    ∃ f₀ f, flatMemory.Init f₀ ∧ Run flatMemory f₀ as f ∧ s.Represents f ∧
      (∀ id addr size, f.Accessible id addr (Size.bytes size) →
        Completes P s (.load id addr size)
          (.value (readValue size fun i => f.bytes id (addr + i))) ∧
        ∀ value, Completes P s (.store id addr size value) .done) ∧
      (∀ id n, f.numPages id = some n → Completes P s (.exit id) .done) ∧
      ∀ id (x : NoffFile), f.numPages id = none → x.Inside → x.noffMagic = NOFFMAGIC →
        x.numPages ≤ s.swapMap.numClear → Completes P s (.create id x) .done := by
  obtain ⟨f₀, hf₀, hrel⟩ := (userSystem_simulates (P := P)).init s₀ h₀
  obtain ⟨f, hrun, hinv, hf⟩ := userSystem_simulates.run h hrel
  refine ⟨f₀, f, hf₀, hrun, hf, fun id addr size ha => ?_, fun id n hn => ?_, ?_⟩
  · rw [hf.accessible] at ha
    have hfaults := hinv.absent _ ha.live
    have hbytes : ∀ i < size.bytes, s.byteAt id (addr + i) = f.bytes id (addr + i) := fun i hi =>
      (hf.bytes _ _ (ha.live_add hi)).symm
    refine ⟨?_, fun value => hinv.toInv.store_completes ha hfaults⟩
    rw [← readValue_congr hbytes]
    exact hinv.toInv.load_completes ha hfaults
  · rw [hf.numPages] at hn
    obtain ⟨t, ht⟩ := hinv.toInv.exists_destroy (P := P) hn
    exact ⟨t, .inl (run_of_act (by simp [act, ht]))⟩
  · intro id x hid hx hm hn
    rw [hf.numPages] at hid
    obtain ⟨t, ht⟩ := exists_create hinv.toInv hx hid hm hn
    exact ⟨t, .inl (run_of_act (by simp [act, ht]))⟩

/-- A process stores a byte and loads it again. -/
theorem paged_memory_refines_flat_store_load :
    ∃ s f₀ f, Run (userSystem fifo) (boot []) [(.create 0 (blank 0), .done),
        (.store 0 5 .byte 7, .faulted), (.store 0 5 .byte 7, .done),
        (.load 0 5 .byte, .value 7)] s ∧
      Run flatMemory f₀ [(.create 0 (blank 0), .done),
        (.store 0 5 .byte 7, .faulted), (.store 0 5 .byte 7, .done),
        (.load 0 5 .byte, .value 7)] f ∧
      s.Represents f := by
  have he : (exec (guarded (fun _ l => l.1.User) (step fifo)) (boot [])
      [(.create 0 (blank 0), .done), (.store 0 5 .byte 7, .faulted), (.store 0 5 .byte 7, .done),
        (.load 0 5 .byte, .value 7)]).any (fun _ => true) = true := by
    decide +kernel
  obtain ⟨s, hr, -⟩ := run_of_any_exec (I := Initial) he
  rw [← guard_ofStep] at hr
  obtain ⟨f₀, f, -, hf, hrep, -⟩ := paged_memory_refines_flat (initial_boot []) hr
  exact ⟨s, f₀, f, hr, hf, hrep⟩

end Nachos.VM
