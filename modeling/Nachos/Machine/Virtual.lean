import Nachos.Machine.Computer
import Nachos.Machine.Paging
import Nachos.VM.Fork

/-! # Processes with virtual memory

The build with demand paging. It behaves as it should under conditions that its
routines do not test. A fork is of a process without dirty pages, as the copy is
made of the swap file, and the kernel stores to pages that are dirty in a frame
already, as it does not mark them. It reads pages that have been used before, as
it does not make them valid, and its copies do not cross the end of a page. The
segments of a program lie in its address space. Under these conditions every run
is one of processes that have a machine of their own each, with every
replacement policy.
-/

namespace Nachos.Machine

open Function Bytes Transition VM State

variable {σ : Type} {P : Replacement σ} {s t : State σ} {id spaceDest vAddr : ℕ}
  {G : ℕ → Option Private} {f : Flat}

def flushed (id : ℕ) (s : State σ) : Bool :=
  (s.numPages id).all fun n => (List.range n).all fun v => !(s.pageTable ⟨id, v⟩).dirty

def marked (id vAddr : ℕ) (s : State σ) : Bool :=
  (s.frameOf (s.swapPage (entryPtr id vAddr))).isSome && (s.pageTable (entryPtr id vAddr)).dirty

def virtual (P : Replacement σ) : Build (State σ) (ℕ → ℕ → UInt8) where
  unit := paging P
  numPages id s := s.numPages id
  create id x s := s.create id x
  copy id spaceDest s := s.copyAddrSpace id spaceDest
  destroy id s := s.destroy P id
  pageFaultHandler id addr s := s.pageFaultHandler P id addr.toNat
  get id vAddr size s := s.getMemFromVAddr P id vAddr size
  put id vAddr data s := s.storeBuffer P id vAddr data

/-- New programs lie in their address space, forks are of processes without dirty pages, and the
kernel reads valid pages and stores to dirty ones, inside a page. -/
def pagingGuards : Guards (State σ) where
  create _ x _ := x.Inside
  copy id s := flushed id s = true
  get id vAddr size s :=
    vAddr % PageSize + size ≤ PageSize ∧ (s.pageTable (entryPtr id vAddr)).valid = true
  put id vAddr size s := vAddr % PageSize + size ≤ PageSize ∧ marked id vAddr s = true

instance (c : Computer (State σ)) (a : Action) : Decidable (pagingGuards.Allow c a) :=
  match a with
  | .exec _ x => inferInstanceAs (Decidable x.Inside)
  | .fork _ => inferInstanceAs (Decidable (_ = true))
  | .user (.get _ _) | .user (.put _ _) => inferInstanceAs (Decidable (_ ∧ _ = true))
  | .user .instruction | .user (.fault _) | .user .interrupt | .user (.call _)
  | .user (.result _) | .user .resume | .idle | .switch _ | .exit =>
    inferInstanceAs (Decidable True)

/-- The machine with virtual memory, whose kernel keeps to the conditions. -/
abbrev pagedSystem (P : Replacement σ) : System (Computer (State σ)) Action :=
  Computer.guardedSystem (virtual P) pagingGuards Initial

/-! ## Forks -/

theorem contents_of_clean {p : EntryPtr} (h : UserInv s.Live s) (hp : s.Live p)
    (hd : (s.pageTable p).dirty = false) :
    s.contents (s.swapPage p) = block s.swapFile PageSize (s.swapPage p) := by
  cases hframe : s.frameOf (s.swapPage p) with
  | none => exact contents_of_absent hframe
  | some q =>
    obtain ⟨hq, hX, -⟩ := frameOf_eq_some_iff.mp hframe
    obtain ⟨p', hp', hL, heq⟩ := h.linked q hq _ hX
    obtain rfl := h.owns.inj p' p hL hp heq
    rw [contents_of_frameOf hframe]
    exact h.clean q hq _ p' hX hp' hd

theorem userInv_copyAddrSpace (h : UserInv s.Live s)
    (hs : s.copyAddrSpace id spaceDest = some t) : UserInv t.Live t := by
  obtain ⟨n, -, hdest, hframes, hcopied⟩ := copied_of_copyAddrSpace h.owns hs
  exact h.newSpace hdest hframes hcopied.table (fun X hX => (hcopied.kept X hX).2)
    (fun v hv => hcopied.fresh hv) (h.toInv.copyAddrSpace hs)

theorem represents_copyAddrSpace {n : ℕ} (hf : s.Represents f) (h : UserInv s.Live s)
    (hn : f.numPages id = some n) (hflushed : flushed id s = true)
    (hs : s.copyAddrSpace id spaceDest = some t) :
    t.Represents ⟨update f.numPages spaceDest (some n), update f.bytes spaceDest (f.bytes id)⟩ := by
  obtain ⟨m, hm, hdest, hframes, hcopied⟩ := copied_of_copyAddrSpace h.owns hs
  have hpages : t.numPages = update s.numPages spaceDest (some m) := hframes.numPages
  obtain rfl : n = m := Option.some.inj (hn.symm.trans ((congrFun hf.numPages id).trans hm))
  refine ⟨by rw [hpages, hf.numPages], fun id' v hv => ?_⟩
  dsimp only
  rcases live_of_update hpages hv with hold | ⟨hspace, hlt⟩
  · have hne : id' ≠ spaceDest := space_ne_of_live hdest hold
    rw [update_of_ne hne, hf.bytes id' v hold]
    exact (congrFun (hcopied.contents_kept hframes h.owns hdest hold) _).symm
  · obtain rfl : id' = spaceDest := hspace
    have hlive : s.Live (entryPtr id v) := ⟨n, hm, hlt⟩
    have hclean : (s.pageTable (entryPtr id v)).dirty = false := by
      simp only [flushed, hm, Option.all_some, List.all_eq_true, List.mem_range] at hflushed
      exact (Bool.not_eq_true' _).mp (hflushed _ hlt)
    have hcopy := hcopied.contents_copy hframes hlt
    rw [h.toInv.absent_of_clear (hcopied.fresh hlt)] at hcopy
    rw [update_self, hf.bytes id v hlive]
    refine congrFun (Eq.trans ?_ hcopy.symm) _
    exact contents_of_clean h hlive hclean

/-! ## Accesses of the kernel -/

theorem paged_getPhysicalPage {q : ℕ} (hf : s.Represents f) (h : UserInv s.Live s)
    (hlive : s.Live (entryPtr id vAddr)) (hvalid : (s.pageTable (entryPtr id vAddr)).valid = true)
    (hs : s.getPhysicalPage P (entryPtr id vAddr) = some (q, t)) :
    UserInv t.Live t ∧ t.Represents f := by
  have hsame := SameTables.getPhysicalPage hs
  obtain ⟨hinv, hclean, habsent⟩ := h.getPhysicalPage hlive hs
  have hacc : Access P id vAddr (Size.bytes .byte) false s (some q) _ :=
    .hit ⟨by simp [Size.bytes], hlive⟩ hvalid hs (getPhysicalPage_block h.frames hs).1
  refine ⟨⟨hsame.live ▸ hinv, hclean, fun p hp hv => ?_⟩,
    hf.numPages.trans hsame.numPages.symm, fun id' v hv => ?_⟩
  · refine habsent p ⟨hsame.live ▸ hp, ?_⟩ hv
    rintro rfl
    rw [UserInv.valid_getPhysicalPage hs, hvalid] at hv
    cases hv
  · rw [hsame.live] at hv
    rw [hf.bytes id' v hv, ← h.byteAt_access hacc]
    unfold byteAt
    rw [(SameTables.access hacc).swapPage, hsame.swapPage]
    rfl

theorem userInv_write {q c : ℕ} {g : ℕ → UInt8} (h : UserInv s.Live s)
    (hlive : s.Live (entryPtr id vAddr)) (hin : vAddr % PageSize + c ≤ PageSize)
    (hframe : s.frameOf (s.swapPage (entryPtr id vAddr)) = some q)
    (hdirty : (s.pageTable (entryPtr id vAddr)).dirty = true) :
    UserInv s.Live { s with
      mainMemory := blit s.mainMemory (q * PageSize + vAddr % PageSize) c g } := by
  refine ⟨h.toInv.of_memories, fun j hj X p hX hp hd => ?_, h.absent⟩
  have hjq : j ≠ q := by
    rintro rfl
    obtain ⟨p', hp', hL, rfl⟩ := h.linked j hj X hX
    obtain rfl := Option.some.inj (hp.symm.trans hp')
    have hpage := Option.some.inj (hX.symm.trans (frameOf_eq_some_iff.mp hframe).2.1)
    rw [h.owns.inj p _ hL hlive hpage, hdirty] at hd
    cases hd
  dsimp only
  rw [block_blit_other hin hjq]
  exact h.clean j hj X p hX hp hd

theorem represents_write {q c : ℕ} {g : ℕ → UInt8} (hf : s.Represents f) (h : UserInv s.Live s)
    (hlive : s.Live (entryPtr id vAddr)) (hin : vAddr % PageSize + c ≤ PageSize)
    (hframe : s.frameOf (s.swapPage (entryPtr id vAddr)) = some q) :
    State.Represents
      { s with mainMemory := blit s.mainMemory (q * PageSize + vAddr % PageSize) c g }
      { f with bytes := update f.bytes id (blit (f.bytes id) vAddr c g) } := by
  refine ⟨hf.numPages, fun id' v hv => ?_⟩
  have hv' : s.Live (entryPtr id' v) := hv
  rw [byteAt_write h.owns hframe hlive hin hv']
  dsimp only
  rw [update_apply]
  split
  case isTrue hid =>
    subst hid
    exact blit_congr (hf.bytes id' v hv')
  case isFalse => exact hf.bytes id' v hv'

theorem storeBuffer_of_marked {data : List UInt8} (hmarked : marked id vAddr s = true)
    (hs : s.storeBuffer P id vAddr data = some t) :
    s.Live (entryPtr id vAddr) ∧ (s.pageTable (entryPtr id vAddr)).dirty = true ∧
      ∃ q, s.frameOf (s.swapPage (entryPtr id vAddr)) = some q ∧
        t = { s.setBuffer data.length (fun i => data.getD i 0) with
          mainMemory := blit s.mainMemory (q * PageSize + vAddr % PageSize) data.length
            fun i => data.getD i 0 } := by
  obtain ⟨hsome, hdirty⟩ := Bool.and_eq_true_iff.mp hmarked
  obtain ⟨q, hq⟩ := Option.isSome_iff_exists.mp hsome
  obtain ⟨a, u, ha, rfl⟩ := storeBuffer_eq_some hs
  obtain ⟨q', hq', rfl⟩ := kernelAddr_natCast ha
  obtain ⟨e, he, ⟨hframe, rfl⟩ | ⟨hframe, -⟩⟩ := getPhysicalPage_eq_some hq'
  · obtain ⟨hlive, rfl⟩ := entryAt_eq_some_iff.mp he
    obtain rfl := Option.some.inj (hframe.symm.trans hq)
    have hbuffer : ∀ i < data.length,
        (s.setBuffer data.length fun i => data.getD i 0).diskBuffer i = data.getD i 0 :=
      fun i hi => blit_start (g := fun i => data.getD i 0) hi
    refine ⟨live_of_entryAt he, hdirty, q', hframe, ?_⟩
    rw [blit_source_congr hbuffer]
    rfl
  · obtain ⟨-, rfl⟩ := entryAt_eq_some_iff.mp he
    cases hframe.symm.trans hq

/-! ## The memories of the processes -/

def flat (G : ℕ → Option Private) : Flat where
  numPages id := (G id).map (·.numPages)
  bytes id := (G id).elim (fun _ => 0) (·.bytes)

theorem flat_update (n : Private) : flat (update G id (some n)) =
    ⟨update (flat G).numPages id (some n.numPages), update (flat G).bytes id n.bytes⟩ := by
  unfold flat
  congr
  · funext id'
    rw [update_apply, update_apply]
    split <;> rfl
  · funext id'
    rw [update_apply, update_apply]
    split <;> rfl

structure Paged (s : State σ) (G : ℕ → Option Private) : Prop where
  inv : UserInv s.Live s
  memories : s.Represents (flat G)

theorem Paged.setBuffer {n : ℕ} {g : ℕ → UInt8} (h : Paged s G) : Paged (s.setBuffer n g) G :=
  ⟨⟨h.inv.toInv.setBuffer, h.inv.clean, h.inv.absent⟩, h.memories.numPages, h.memories.bytes⟩

theorem Paged.numPages (h : Paged s G) : s.numPages id = (G id).map (·.numPages) :=
  (congrFun h.memories.numPages id).symm

theorem Paged.le_of_live {n : Private} {c : ℕ} (h : Paged s G) (hn : G id = some n)
    (hlive : s.Live (entryPtr id vAddr)) (hin : vAddr % PageSize + c ≤ PageSize) :
    vAddr + c ≤ n.numPages * PageSize := by
  obtain ⟨pages, hpages, hlt⟩ := hlive
  have hsome : s.numPages id = some n.numPages := by rw [h.numPages, hn, Option.map_some]
  obtain rfl := Option.some.inj (hsome.symm.trans hpages)
  have hend := Nat.mul_le_mul_right PageSize (Nat.succ_le_of_lt hlt)
  rw [Nat.succ_mul] at hend
  have haddr := Nat.div_add_mod' vAddr PageSize
  dsimp only [entryPtr] at hend
  omega

theorem Paged.bytes {n : Private} {v : ℕ} (h : Paged s (update G id (some n)))
    (hv : s.Live (entryPtr id v)) : n.bytes v = s.byteAt id v := by
  rw [← h.memories.bytes id v hv]
  simp only [flat_update, update_self]

theorem Paged.bytes_of_some {n : Private} {v : ℕ} (h : Paged s G) (hn : G id = some n)
    (hv : v < n.numPages * PageSize) : n.bytes v = s.byteAt id v := by
  have hlive : s.Live (entryPtr id v) :=
    ⟨n.numPages, by rw [h.numPages]; exact congrArg (Option.map _) hn,
      Nat.div_lt_of_lt_mul (by rwa [Nat.mul_comm])⟩
  rw [← update_eq_self id G, hn] at h
  exact h.bytes hlive

theorem Paged.of_blit {n : Private} {a c : ℕ} {g : ℕ → UInt8} (hinv : UserInv t.Live t)
    (h : t.Represents { flat (update G id (some n)) with
      bytes := update (flat (update G id (some n))).bytes id
        (blit ((flat (update G id (some n))).bytes id) a c g) }) :
    Paged t (update G id (some { n with bytes := blit n.bytes a c g })) := by
  refine ⟨hinv, ?_⟩
  rw [flat_update] at h ⊢
  simpa only [update_self, update_idem] using h

theorem represents_none (h : s.Represents { flat G with
    numPages := update (flat G).numPages id none }) : s.Represents (flat (update G id none)) := by
  have hpages : (flat (update G id none)).numPages = update (flat G).numPages id none := by
    funext id'
    simp only [flat, update_apply]
    split <;> rfl
  refine ⟨hpages.trans h.numPages, fun id' v hv => ?_⟩
  rw [← h.bytes id' v hv]
  have hne : id' ≠ id := by
    rintro rfl
    obtain ⟨n, hn, -⟩ := hv
    rw [← h.numPages] at hn
    simp [entryPtr] at hn
  simp only [flat, update_of_ne hne]

theorem paged_accessible {n : Private} {addr : BitVec 32} {size : Size}
    (h : Paged s (update G id (some n)))
    (halign : ¬ (size.bytes = 4 ∧ addr.toNat % 4 ≠ 0 ∨ size.bytes = 2 ∧ addr.toNat % 2 ≠ 0))
    (hlt : addr.toNat / PageSize < n.numPages) : s.Accessible id addr.toNat size.bytes :=
  ⟨halign, n.numPages, by rw [h.numPages, update_self, Option.map_some], hlt⟩

theorem paging_translate {r : Except State.Exception ℕ} {addr : BitVec 32} {size : Size}
    {w : Bool} (h : s.translate P id addr.toNat size.bytes w = some (r, t)) :
    (paging P id).translate addr size w s = some (r.mapError Mmu.ofException, t) := by
  change Option.map _ _ = _
  rw [h]
  rfl

theorem translate_of_paging {addr : BitVec 32} {size : Size} {w : Bool}
    (h : (paging P id).translate addr size w s = some (.error .pageFault, t)) :
    s.translate P id addr.toNat size.bytes w = some (.error .pageFault, t) := by
  obtain ⟨⟨r, u⟩, hu, hr⟩ := Option.map_eq_some_iff.mp h
  obtain ⟨hr, rfl⟩ := Prod.mk.inj hr
  cases r with
  | ok a => cases hr
  | error e =>
    cases e with
    | pageFault => exact hu
    | addressError | readOnly | busError => cases hr

/-- Every address is translated as in the private memory, but for the page faults. -/
theorem lockstep_paging : Lockstep (paging P id) Private.unit
    fun m n => Paged m (update G id (some n)) := by
  intro addr size writing m n h
  change Translated _ _ _ _ _ _ _ (Private.translate addr size writing n)
  have hpages : m.numPages id = some n.numPages := by
    rw [h.numPages, update_self, Option.map_some]
  unfold Private.translate
  split_ifs with halign hout
  · have htranslate : m.translate P id addr.toNat size.bytes writing =
        some (.error .addressError, m) := by
      rw [State.translate, if_pos halign]
    rw [paging_translate htranslate]
    exact .error (by decide) h
  · have htranslate : m.translate P id addr.toNat size.bytes writing =
        some (.error .addressError, m) := by
      rw [State.translate, if_neg halign]
      simp [hpages, hout]
    rw [paging_translate htranslate]
    exact .error (by decide) h
  · have hacc := paged_accessible h halign (Nat.lt_of_not_le hout)
    cases hvalid : (m.pageTable (entryPtr id addr.toNat)).valid with
    | false =>
      rw [paging_translate (translate_of_fault hacc hvalid)]
      exact .fault h
    | true =>
      obtain ⟨q, u, hu⟩ := h.inv.toInv.exists_hit (P := P) (w := writing) hacc hvalid
      have hrep := h.memories.access h.inv hu
      have hinv : UserInv u.Live u := (SameTables.access hu).live ▸ h.inv.access hu
      have htranslate : m.translate P id addr.toNat size.bytes writing =
          some (.ok (q * PageSize + addr.toNat % PageSize), u) := by
        cases hu with
        | hit _ hv hget hq =>
          exact translate_of_hit hacc hv (h.inv.writable _ hacc.live) hget hq
      rw [paging_translate htranslate]
      refine .ok ⟨hinv, hrep⟩ (fun i hi => ?_) fun hwriting value => ?_
      · refine Eq.trans ?_ (h.bytes (hacc.live_add hi)).symm
        have hin := hacc.in_page
        cases hu with
        | hit _ _ hget _ =>
          exact mainMemory_eq_byteAt (by omega) (getPhysicalPage_block h.inv.frames hget).2
      · subst hwriting
        exact .of_blit ((SameTables.access hu).live ▸ h.inv.store hu) (h.memories.store h.inv hu)

theorem represents_virtual : (virtual P).Represents pagingGuards Initial
    (fun x bytes => bytes = x.image) Paged where
  init m hm := by
    refine ⟨.of_initial hm, ?_, fun id v hv => ?_⟩
    · exact funext fun id => (hm.numPages id).symm
    · obtain ⟨n, hn, -⟩ := hv
      simp [hm.numPages] at hn
  numPages m G id h := h.numPages
  lockstep G id := lockstep_paging
  pageFault m m' G id n addr hfault hs := by
    obtain ⟨size, writing, m₀, h, hm⟩ := hfault
    obtain ⟨hacc, hvalid, rfl⟩ := translate_pageFault (translate_of_paging hm)
    obtain ⟨q, u, hu, rfl⟩ := pageFaultHandler_eq_some hs
    have hfault := Access.fault (w := writing) hacc hvalid hu
    exact ⟨(SameTables.access hfault).live ▸ h.inv.access hfault, h.memories.access h.inv hfault⟩
  create m m' G id x h hx hs := by
    have hnone := (created_of_create h.inv.toInv hx hs).1
    rw [h.numPages, Option.map_eq_none_iff] at hnone
    refine ⟨hnone, _, rfl, h.inv.create hx hs, ?_⟩
    rw [flat_update]
    exact h.memories.create h.inv hx hs
  copy m m' G id spaceDest n h hflushed hn _ hs := by
    refine ⟨userInv_copyAddrSpace h.inv hs, ?_⟩
    have hpages : (flat G).numPages id = some n.numPages := by
      simp [flat, hn]
    have hrep := represents_copyAddrSpace h.memories h.inv hpages hflushed hs
    rw [flat_update]
    simpa [flat, hn] using hrep
  destroy m m' G id h hs := ⟨h.inv.destroy hs, represents_none (h.memories.destroy h.inv hs)⟩
  get m m' G id n vAddr size data h hg hn hs := by
    obtain ⟨hin, hvalid⟩ := hg
    have hdata := getMemFromVAddr_byteAt h.inv.frames hin hs
    obtain ⟨a, ha, -⟩ := getMemFromVAddr_eq_some hs
    obtain ⟨q, hq, -⟩ := kernelAddr_natCast ha
    obtain ⟨e, he, -⟩ := getPhysicalPage_eq_some hq
    have hlive := live_of_entryAt he
    have hend := h.le_of_live hn hlive hin
    obtain ⟨hinv, hrep⟩ := paged_getPhysicalPage h.memories h.inv hlive hvalid hq
    refine ⟨hend, ?_, hinv, hrep⟩
    rw [hdata]
    refine List.map_congr_left fun i hi => h.bytes_of_some hn ?_
    have := List.mem_range.mp hi
    omega
  put m m' G id n vAddr data h hg hn hs := by
    obtain ⟨hin, hmarked⟩ := hg
    obtain ⟨hlive, hdirty, q, hq, rfl⟩ := storeBuffer_of_marked hmarked hs
    have hend := h.le_of_live hn hlive hin
    rw [← update_eq_self id G, hn] at h
    have h' : Paged (m.setBuffer data.length fun i => data.getD i 0) _ := h.setBuffer
    exact ⟨hend, .of_blit (userInv_write h'.inv hlive hin hq hdirty)
      (represents_write h'.memories h'.inv hlive hin hq)⟩

/-! ## Runs -/

/-- Processes that start with the images of their programs. -/
abbrev privateProcesses : System Processes Action := Processes.system fun x bytes => bytes = x.image

/-- As long as the kernel keeps to the conditions, demand paging cannot be told from private
memories: every run of the processes of the machine, under every replacement policy, is one of
processes that have a machine of their own each, with the same instructions, system calls, faults
and switches. In the end the registers of the machine are those of the process that runs, and each
address space has the bytes of its process. -/
theorem virtual_refines {P : Replacement σ} {c₀ c : Computer (State σ)} {as : List Action}
    (h₀ : (pagedSystem P).Init c₀) (h : Run (pagedSystem P) c₀ as c) :
    ∃ Q₀ Q, privateProcesses.Init Q₀ ∧ Run privateProcesses Q₀ as Q ∧ Q.current = c.current ∧
      (∀ id, c.machine.memory.numPages id = (Q.memories id).map (·.numPages)) ∧
      ∀ id p, Q.process id = some p →
        (id = c.current → p.machine.registers = c.machine.registers) ∧
        ∀ v < p.machine.memory.numPages * PageSize,
          c.machine.memory.byteAt id v = p.machine.memory.bytes v := by
  obtain ⟨Q₀, hQ₀, hr₀⟩ := (Computer.simulates (represents_virtual (P := P))).init c₀ h₀
  obtain ⟨Q, hrun, hr⟩ := (Computer.simulates represents_virtual).run h hr₀
  refine ⟨Q₀, Q, hQ₀, hrun, hr.current, fun id => hr.memory.numPages, fun id p hp => ?_⟩
  refine ⟨fun hid => (hr.registers (hid ▸ hp)).2, fun v hv => (hr.memory.bytes_of_some ?_ hv).symm⟩
  rw [Processes.memories, hp, Option.map_some]

/-- A program that loads a word into register 1 and stores register 1 in the load delay slot. -/
def storing : NoffFile where
  noffMagic := NOFFMAGIC
  code := ⟨0, 0, 12⟩
  initData := ⟨0, 0, 0⟩
  uninitData := ⟨0, 0, 0⟩
  content i := [8, 0, 1, 0x8c, 12, 0, 1, 0xac, 42, 0, 0, 0].getD i 0

def atStart : Computer (State (List (Fin NumPhysPages))) :=
  ⟨⟨fun _ => 0#32, boot []⟩, 0, fun _ => none⟩

theorem init_atStart : (pagedSystem fifo).Init atStart :=
  ⟨initial_boot [], fun _ => rfl⟩

theorem pagedSystem_of_any_exec {P : Replacement σ} {c : Computer (State σ)} {as : List Action}
    {p : Computer (State σ) → Bool}
    (h : (exec (guarded pagingGuards.Allow (Computer.step (virtual P))) c as).any p = true) :
    ∃ c', Run (pagedSystem P) c as c' ∧ p c' = true := by
  rw [pagedSystem, Computer.guardedSystem, Computer.system, guard_ofStep]
  exact run_of_any_exec h

/-- Two processes with the same program take turns; only the first is interrupted between the load
and the store. -/
def turns : List Action :=
  [.exec 2 storing, .switch 1, .user (.fault 0#32), .user .instruction, .switch 2,
    .user (.fault 0#32), .user .instruction, .user .instruction, .switch 1, .user .interrupt,
    .user .instruction]

theorem virtual_refines_turns : ∃ c Q₀ Q,
    Run (pagedSystem fifo) atStart (.exec 1 storing :: turns) c ∧
    Run privateProcesses Q₀ (.exec 1 storing :: turns) Q ∧ Q.current = c.current := by
  have hrun : (exec (guarded pagingGuards.Allow (Computer.step (virtual fifo))) atStart
      (.exec 1 storing :: turns)).any (fun _ => true) = true := by
    decide +kernel
  obtain ⟨c, hc, -⟩ := pagedSystem_of_any_exec hrun
  obtain ⟨Q₀, Q, -, hQ, hcur, -⟩ := virtual_refines init_atStart hc
  exact ⟨c, Q₀, Q, hc, hQ, hcur⟩

/-- As long as the kernel keeps to the conditions, a process computes from its start on as on a
machine of its own, whatever the others do and whichever pages are replaced: what happens to it is
a run from the image of its program. While it runs, the registers of the machine are its own, and
its address space has the bytes of its memory. -/
theorem virtual_isolated {P : Replacement σ} {c₀ c₁ c₂ c : Computer (State σ)} {id : ℕ}
    {x : NoffFile} {as bs : List Action} (h₀ : (pagedSystem P).Init c₀)
    (h₁ : Run (pagedSystem P) c₀ as c₁) (hexec : (pagedSystem P).Step c₁ (.exec id x) c₂)
    (h₂ : Run (pagedSystem P) c₂ bs c)
    (hlasts : (id, .exit) ∉ attributed c₂.current bs) :
    ∃ p, Run Process.system (.exec x.numPages x.image)
        ((attributed c₂.current bs).filterMap (eventOf id)) p ∧
      (c.current = id → c.machine.registers = p.machine.registers) ∧
      c.machine.memory.numPages id = some p.machine.memory.numPages ∧
      ∀ v < p.machine.memory.numPages * PageSize,
        c.machine.memory.byteAt id v = p.machine.memory.bytes v := by
  obtain ⟨bytes, p, G, rfl, hrun, hregs, hpaged, hG⟩ :=
    Computer.exists_alone represents_virtual h₀ h₁ hexec h₂ hlasts
  refine ⟨p, hrun, hregs, ?_, fun v hv => (hpaged.bytes_of_some hG hv).symm⟩
  rw [hpaged.numPages, hG, Option.map_some]

/-- The first of the two processes, which is interrupted. -/
theorem virtual_isolated_turns : ∃ (c : Computer (State (List (Fin NumPhysPages)))) (p : Process),
    Run Process.system (.exec storing.numPages storing.image)
      [.fault 0#32, .instruction, .interrupt, .instruction] p ∧
    c.machine.memory.byteAt 1 12 = p.machine.memory.bytes 12 ∧
    p.machine.memory.bytes 12 = 42 := by
  have hrun : (atStart.step (virtual fifo) (.exec 1 storing)).any (fun c₂ =>
      c₂.current == 0 && (exec (guarded pagingGuards.Allow (Computer.step (virtual fifo))) c₂
        turns).any fun c => c.machine.memory.byteAt 1 12 == 42 &&
          c.machine.memory.numPages 1 == some 9) = true := by
    decide +kernel
  obtain ⟨c₂, hexec, hrun⟩ := (Option.any_eq_true _ _).mp hrun
  obtain ⟨hcur, hrun⟩ := Bool.and_eq_true_iff.mp hrun
  obtain ⟨c, hc, hbyte⟩ := pagedSystem_of_any_exec hrun
  simp only [Bool.and_eq_true, beq_iff_eq] at hbyte hcur
  obtain ⟨p, hp, -, hpages, hbytes⟩ := virtual_isolated init_atStart (.nil atStart)
    ⟨show storing.Inside by decide, hexec⟩ hc (by simp [hcur, attributed, turns, Action.next])
  rw [hcur] at hp
  have hnine := Option.some.inj (hpages.symm.trans hbyte.2)
  have h12 := hbytes 12 (by rw [hnine]; decide)
  exact ⟨c, p, hp, h12, h12.symm.trans hbyte.1⟩

end Nachos.Machine
