import Nachos.Machine.Computer
import Nachos.Userprog.Frames
import Nachos.Userprog.Loading
import Nachos.VM.Loader

/-! # Processes without virtual memory

The build in which every page has a frame of its own. New frames are not
cleared, so a program starts with the bytes of its segments over whatever was
there. The loader copies whole blocks, and the segments are to be such that
these go to the frames of their own pages; the copies of the kernel are to stay
inside a page. Under these conditions every run is one of processes that have a
machine of their own each, forks and stores of the kernel included.
-/

namespace Nachos

open Function Bytes VM

namespace Userprog

namespace AddrSpace

variable {space space' : AddrSpace} {m m' : ℤ → UInt8} {v w : ℕ} {data : List UInt8}

/-- The byte at a virtual address, in the frame of its page. -/
def byteAt (m : ℤ → UInt8) (space : AddrSpace) (v : ℕ) : UInt8 :=
  m (space.frames.getD (v / PageSize) 0 * PageSize + v % PageSize : ℕ)

theorem byteAt_of_translate {a : ℤ} (h : space.translate v = some a) :
    space.byteAt m v = m a := by
  obtain ⟨f, hf, rfl⟩ := translate_nat.mp h
  rw [byteAt, show PageSize = 128 from rfl, List.getD_eq_getElem?_getD, hf, Option.getD_some]
  push_cast
  rfl

theorem translate_of_lt (hv : v < space.frames.length * PageSize) :
    space.translate v = some ((space.frames.getD (v / PageSize) 0 * PageSize + v % PageSize : ℕ) :
      ℤ) := by
  have hlt : v / 128 < space.frames.length := by
    rw [show PageSize = 128 from rfl] at hv
    omega
  refine translate_nat.mpr ⟨_, List.getElem?_eq_getElem hlt, ?_⟩
  rw [show PageSize = 128 from rfl, List.getD_eq_getElem _ _ hlt]
  push_cast
  rfl

def Outside (fs : List ℕ) (m m' : ℤ → UInt8) : Prop :=
  ∀ g ∉ fs, ∀ j < PageSize, m' (g * PageSize + j : ℕ) = m (g * PageSize + j : ℕ)

theorem Outside.byteAt {fs : List ℕ} (h : Outside fs m m') (hfs : ∀ f ∈ space.frames, f ∉ fs)
    (hv : v < space.frames.length * PageSize) : space.byteAt m' v = space.byteAt m v := by
  have hlt : v / PageSize < space.frames.length := Nat.div_lt_of_lt_mul (by rwa [Nat.mul_comm])
  rw [AddrSpace.byteAt, AddrSpace.byteAt, List.getD_eq_getElem _ _ hlt]
  exact h _ (hfs _ (List.getElem_mem hlt)) _ (Nat.mod_lt _ (by decide))

theorem Written.outside (h : space.Written w data m m') : Outside space.frames m m' := by
  intro g hg j hj
  refine h.other _ fun i _ htr => hg ?_
  rw [← Nat.cast_add] at htr
  obtain ⟨f, hf, heq⟩ := translate_nat.mp htr
  rw [show PageSize = 128 from rfl] at hj heq
  obtain rfl : f = g := by omega
  exact List.mem_of_getElem? hf

theorem Written.byteAt (h : space.Written w data m m') (hnd : space.frames.Nodup)
    (hv : v < space.frames.length * PageSize) :
    space.byteAt m' v = blit (space.byteAt m) w data.length (fun i => data.getD i 0) v := by
  by_cases hrange : w ≤ v ∧ v < w + data.length
  · obtain ⟨i, rfl⟩ := Nat.exists_eq_add_of_le hrange.1
    have htr := translate_of_lt hv
    rw [byteAt_of_translate htr, blit_add (by omega)]
    rw [Nat.cast_add] at htr
    exact h.byte (Int.natCast_nonneg w) hnd (by omega) htr
  · have htr := translate_of_lt hv
    have hother : m' _ = m _ := h.other _ fun i hi he => by
      rw [← Nat.cast_add] at he
      have := translate_inj hnd htr he
      omega
    rw [byteAt_of_translate htr, hother, ← byteAt_of_translate (m := m) htr]
    rcases Nat.lt_or_ge v w with hlt | hge
    · rw [blit_of_lt hlt]
    · rw [blit_of_le (by omega)]

theorem byteAt_congr (h : space'.frames = space.frames) : space'.byteAt m v = space.byteAt m v := by
  rw [byteAt, byteAt, h]

end AddrSpace

namespace Memory

variable {s s' : Memory} {i n : ℕ} {es pageTable : List TranslationEntry}

def Usable (e : TranslationEntry) : Prop := e.valid = true ∧ e.readOnly = false

theorem getPages_spec (h : s.getPages i n = some (pageTable, s')) :
    s'.mainMemory = s.mainMemory ∧ pageTable.length = n ∧ ∀ e ∈ pageTable, Usable e := by
  induction n generalizing i s pageTable with
  | zero =>
    obtain ⟨rfl, rfl⟩ := Prod.mk.inj (Option.some.inj h)
    exact ⟨rfl, rfl, nofun⟩
  | succ n ih =>
    simp only [getPages, Option.bind_eq_bind, Option.bind_eq_some_iff, Prod.exists] at h
    obtain ⟨f, s₁, hp, rest, s₂, hr, he⟩ := h
    obtain ⟨rfl, rfl⟩ := Prod.mk.inj (Option.some.inj he)
    obtain ⟨hm, hlen, hall⟩ := ih hr
    obtain ⟨r, -, hs₁⟩ := Option.map_eq_some_iff.mp hp
    obtain ⟨-, rfl⟩ := Prod.mk.inj hs₁
    refine ⟨hm, congrArg (· + 1) hlen, fun e he => ?_⟩
    rcases List.mem_cons.mp he with rfl | he
    · exact ⟨rfl, rfl⟩
    · exact hall e he

theorem clearPages_mainMemory (h : s.clearPages es = some s') : s'.mainMemory = s.mainMemory := by
  induction es generalizing s with
  | nil => exact Option.some.inj h ▸ rfl
  | cons e es ih =>
    obtain ⟨s₁, hc, hr⟩ := Option.bind_eq_some_iff.mp h
    obtain ⟨-, hs₁⟩ := Option.ite_none_right_eq_some.mp hc
    rw [ih hr, ← Option.some.inj hs₁]

structure Copies (es pageTable : List TranslationEntry) (m m' : ℤ → UInt8) : Prop where
  length : pageTable.length = es.length
  usable : ∀ e ∈ pageTable, Usable e
  outside : AddrSpace.Outside (pageTable.map (·.physicalPage)) m m'
  bytes : ∀ (k : ℕ) (e e' : TranslationEntry), es[k]? = some e → pageTable[k]? = some e' →
    ∀ j < PageSize,
      m' (e'.physicalPage * PageSize + j : ℕ) = m (e.physicalPage * PageSize + j : ℕ)

theorem copies_copyPages (hes : ∀ e ∈ es, s.bitmap.test e.physicalPage = true)
    (h : s.copyPages i es = some (pageTable, s')) :
    Copies es pageTable s.mainMemory s'.mainMemory := by
  induction es generalizing i s pageTable with
  | nil =>
    obtain ⟨rfl, rfl⟩ := Prod.mk.inj (Option.some.inj h)
    exact ⟨rfl, nofun, fun _ _ _ _ => rfl, nofun⟩
  | cons e es ih =>
    simp only [copyPages, Option.bind_eq_bind, Option.bind_eq_some_iff, Prod.exists] at h
    obtain ⟨f₀, s₁, hp, rest, s₂, hr, he⟩ := h
    obtain ⟨rfl, rfl⟩ := Prod.mk.inj (Option.some.inj he)
    obtain ⟨⟨f, b⟩, hf, hs₁⟩ := Option.map_eq_some_iff.mp hp
    obtain ⟨rfl, rfl⟩ := Prod.mk.inj hs₁
    dsimp only at hr ⊢
    have hclaims := BitMap.Claims.find hf
    have hmarked : ∀ j, j = f ∨ s.bitmap.test j = true → b.test j = true := by
      intro j hj
      rw [hclaims.test, Bool.or_eq_true, decide_eq_true_iff, List.mem_singleton]
      exact hj
    have hclear : s.bitmap.test f = false := (hclaims.clear f (List.mem_singleton_self f)).2
    have hne : ∀ {e'}, e' ∈ e :: es → e'.physicalPage ≠ f := by
      rintro e' he' rfl
      cases hclear.symm.trans (hes e' he')
    have hrest := ih (fun e' he' => hmarked _ (.inr (hes e' (List.mem_cons_of_mem _ he')))) hr
    have hf : f ∉ rest.map (·.physicalPage) := by
      intro hmem
      cases ((supplies_copyPages hr).claims.clear f hmem).2.symm.trans (hmarked f (.inl rfl))
    -- a frame that is not the new one has not been changed by this turn
    have hother : ∀ {g j}, g ≠ f → j < PageSize →
        copyTo (f * PageSize) PageSize
          (fun j : ℕ => s.mainMemory (e.physicalPage * PageSize + j)) s.mainMemory
          (g * PageSize + j : ℕ) = s.mainMemory (g * PageSize + j : ℕ) := by
      intro g j hg hj
      have hcopy : copyTo (f * PageSize + 0 : ℕ) PageSize
          (fun j : ℕ => s.mainMemory (e.physicalPage * PageSize + j)) s.mainMemory
          (g * PageSize + j : ℕ) = s.mainMemory (g * PageSize + j : ℕ) :=
        copyTo_other (by omega) hg hj
      rwa [Nat.add_zero, Nat.cast_mul] at hcopy
    refine ⟨congrArg (· + 1) hrest.length, fun e' he' => ?_, fun g hg j hj => ?_, ?_⟩
    · rcases List.mem_cons.mp he' with rfl | he'
      · exact ⟨rfl, rfl⟩
      · exact hrest.usable e' he'
    · rw [List.map_cons, List.mem_cons, not_or] at hg
      exact (hrest.outside g hg.2 j hj).trans (hother hg.1 hj)
    · intro k e₁ e₂ h₁ h₂ j hj
      cases k with
      | zero =>
        obtain rfl := Option.some.inj h₁
        obtain rfl := Option.some.inj h₂
        refine (hrest.outside f hf j hj).trans ?_
        have hin : (f * PageSize : ℤ) ≤ (f * PageSize + j : ℕ) ∧
            ((f * PageSize + j : ℕ) : ℤ) < f * PageSize + (PageSize : ℕ) := by
          push_cast
          omega
        refine (if_pos hin).trans ?_
        congr 1
        push_cast
        omega
      | succ k =>
        have hmem := List.mem_of_getElem? (show es[k]? = some e₁ from h₁)
        exact (hrest.bytes k e₁ e₂ h₁ h₂ j hj).trans (hother (hne (List.mem_cons_of_mem _ hmem)) hj)

end Memory

end Userprog

namespace Machine

open Userprog Transition

variable {s s' : Memory} {id spaceDest : ℕ} {space space' : AddrSpace} {G : ℕ → Option Private}
  {n : Private}

/-! ## The build -/

def Follows (space : AddrSpace) (g : Segment) : Prop :=
  0 < g.size → space.FramesFollow g.virtualAddr.toNat g.size.toNat

instance {v size : ℕ} : Decidable (space.FramesFollow v size) :=
  decidable_of_iff (v % PageSize = 0 ∨ ∀ q < space.frames.length, v < (q + 1) * PageSize →
      (q + 1) * PageSize < v + size → space.frames[q + 1]? = some (space.frames.getD q 0 + 1)) <| by
    refine or_congr_right ⟨fun h q hq hq' f hf => ?_, fun h q hlt hq hq' => ?_⟩
    · obtain ⟨hlt, rfl⟩ := List.getElem?_eq_some_iff.mp hf
      rw [h q hlt hq hq', List.getD_eq_getElem _ _ hlt]
    · exact h q hq hq' _ (by rw [List.getD_eq_getElem _ _ hlt, List.getElem?_eq_getElem hlt])

instance {g : Segment} : Decidable (Follows space g) := inferInstanceAs (Decidable (_ → _))

/-- The machine with the page table of an address space. -/
def frames (id : ℕ) : MemoryUnit Memory (ℕ → ℕ → UInt8) where
  translate addr size writing s := do
    let space ← s.spaces id
    let (r, space) ← space.machineTranslate addr.toNat size.bytes writing
    some (r.mapError Mmu.ofException, { s with spaces := update s.spaces id (some space) })
  mainMemory s a := s.mainMemory a
  setMainMemory f s :=
    { s with mainMemory := fun a => if 0 ≤ a then f a.toNat else s.mainMemory a }
  userMemory s id v := (s.spaces id).elim 0 (·.byteAt s.mainMemory v)
  Valid _ := True
  valid_translate _ _ := trivial
  userMemory_translate _ h := by
    simp only [Option.bind_eq_bind, Option.bind_eq_some_iff, Prod.exists] at h
    obtain ⟨space, hs, r, space', ht, he⟩ := h
    obtain ⟨-, rfl⟩ := Prod.mk.inj (Option.some.inj he)
    funext id' v
    dsimp only
    rw [update_apply]
    split
    next hid =>
      rw [hid, hs]
      exact AddrSpace.byteAt_congr (Memory.machineTranslate_spec ht).1
    next => rfl

def resident : Build Memory (ℕ → ℕ → UInt8) where
  unit := frames
  numPages id s := (s.spaces id).map (·.pageTable.length)
  create id x s := s.create id x
  copy id spaceDest s := s.copyAddrSpace id spaceDest
  destroy id s := s.destroy id
  pageFaultHandler _ _ s := some s
  get id vAddr size s := do
    let space ← s.spaces id
    let pAddr ← space.translate vAddr
    if pAddr + size ≤ MemorySize then
      some ((List.range size).map fun i : ℕ => s.mainMemory (pAddr + i), s)
    else none
  put id vAddr data s := do
    let space ← s.spaces id
    let pAddr ← space.translate vAddr
    if pAddr + data.length ≤ MemorySize then
      some { s with
        mainMemory := copyTo pAddr data.length (fun i => data.getD i 0) s.mainMemory }
    else none

/-- The segments of a new program lie in its address space and go to the frames of their own
pages, and the kernel copies inside a page. -/
def residentGuards : Guards Memory where
  create id x s := x.Inside ∧ ((s.create id x).bind (·.spaces id)).all
    (fun space => Follows space x.code ∧ Follows space x.initData) = true
  copy _ _ := True
  get _ vAddr size _ := vAddr % PageSize + size ≤ PageSize
  put _ vAddr size _ := vAddr % PageSize + size ≤ PageSize

instance (c : Computer Memory) (a : Action) : Decidable (residentGuards.Allow c a) :=
  match a with
  | .exec _ x => inferInstanceAs (Decidable (x.Inside ∧ _ = true))
  | .user (.get vAddr data) | .user (.put vAddr data) =>
    inferInstanceAs (Decidable (vAddr % PageSize + data.length ≤ PageSize))
  | .user .instruction | .user (.fault _) | .user .interrupt | .user (.call _)
  | .user (.result _) | .user .resume | .idle | .switch _ | .fork _ | .exit =>
    inferInstanceAs (Decidable True)

/-- The machine without virtual memory, whose kernel keeps to the conditions. -/
abbrev residentSystem : System (Computer Memory) Action :=
  Computer.guardedSystem resident residentGuards Memory.Initial

/-! ## The memories of the processes -/

structure Placed (s : Memory) (G : ℕ → Option Private) : Prop where
  inv : s.Inv
  usable : ∀ id space, s.spaces id = some space → ∀ e ∈ space.pageTable, Memory.Usable e
  pages : ∀ id, (s.spaces id).map (·.pageTable.length) = (G id).map (·.numPages)
  bytes : ∀ id space n, s.spaces id = some space → G id = some n →
    ∀ v < n.numPages * PageSize, space.byteAt s.mainMemory v = n.bytes v

theorem Placed.length (h : Placed s G) (hs : s.spaces id = some space) (hn : G id = some n) :
    space.frames.length = n.numPages := by
  have hpages := h.pages id
  rw [hs, hn] at hpages
  rw [AddrSpace.frames, List.length_map]
  exact Option.some.inj hpages

theorem Placed.nodup (h : Placed s G) (hs : s.spaces id = some space) : space.frames.Nodup := by
  have hnd := h.inv.nodup id
  rwa [Memory.framesOf, hs] at hnd

theorem Placed.exists_space (h : Placed s G) (hn : G id = some n) :
    ∃ space, s.spaces id = some space := by
  have hpages := h.pages id
  rw [hn] at hpages
  obtain ⟨space, hs, -⟩ := Option.map_eq_some_iff.mp hpages
  exact ⟨space, hs⟩

theorem Placed.disjoint (h : Placed s G) (hs : s.spaces id = some space) {id' : ℕ}
    (hs' : s.spaces id' = some space') (hne : id' ≠ id) :
    ∀ f ∈ space'.frames, f ∉ space.frames := by
  intro f hf
  have hdisj := h.inv.disjoint id' id hne f
  simp only [Memory.framesOf, hs, hs'] at hdisj
  exact hdisj hf

theorem Placed.setFlags (h : Placed s G) (hs : s.spaces id = some space)
    (hframes : space'.frames = space.frames) (husable : ∀ e ∈ space'.pageTable, Memory.Usable e) :
    Placed { s with spaces := update s.spaces id (some space') } G := by
  have hlen : space'.pageTable.length = space.pageTable.length := by
    simpa [AddrSpace.frames] using congrArg List.length hframes
  have hcases : ∀ {id' sp}, update s.spaces id (some space') id' = some sp →
      id' = id ∧ sp = space' ∨ s.spaces id' = some sp := by
    intro id' sp hsp
    rw [update_apply] at hsp
    split at hsp
    next hid => exact .inl ⟨hid, (Option.some.inj hsp).symm⟩
    next => exact .inr hsp
  refine ⟨h.inv.setFlags hs hframes, fun id' sp hsp => ?_, fun id' => ?_, fun id' sp n hsp hn => ?_⟩
  · rcases hcases hsp with ⟨-, rfl⟩ | hsp
    · exact husable
    · exact h.usable id' sp hsp
  · rw [← h.pages id']
    dsimp only
    rw [update_apply]
    split
    next hid => rw [hid, hs, Option.map_some, Option.map_some, hlen]
    next => rfl
  · rcases hcases hsp with ⟨rfl, rfl⟩ | hsp
    · intro v hv
      rw [AddrSpace.byteAt_congr hframes]
      exact h.bytes id' space n hs hn v hv
    · exact h.bytes id' sp n hsp hn

theorem Placed.write {w : ℕ} {data : List UInt8} {m : ℤ → UInt8} (h : Placed s G)
    (hs : s.spaces id = some space) (hn : G id = some n)
    (hw : space.Written w data s.mainMemory m) :
    Placed { s with mainMemory := m } (update G id (some { n with
      bytes := blit n.bytes w data.length fun i => data.getD i 0 })) := by
  refine ⟨h.inv.congr rfl fun _ => rfl, h.usable, fun id' => ?_, fun id' sp n' hsp hn' v hv => ?_⟩
  · rw [h.pages id', update_apply]
    split
    next hid => rw [hid, hn, Option.map_some, Option.map_some]
    next => rfl
  · rw [update_apply] at hn'
    split at hn'
    next hid =>
      subst hid
      obtain rfl := Option.some.inj (hsp.symm.trans hs)
      obtain rfl := Option.some.inj hn'
      have hlen := h.length hs hn
      rw [hw.byteAt (h.nodup hs) (by rwa [hlen])]
      exact blit_congr (h.bytes id' sp n hs hn v hv)
    next hid =>
      rw [hw.outside.byteAt (h.disjoint hs hsp hid) (by rwa [h.length hsp hn'])]
      exact h.bytes id' sp n' hsp hn' v hv

/-! ## Accesses -/

theorem frames_translate {addr : BitVec 32} {size : Size} {writing : Bool}
    {r : Except State.Exception ℕ} (hs : s.spaces id = some space)
    (ht : space.machineTranslate addr.toNat size.bytes writing = some (r, space')) :
    (frames id).translate addr size writing s = some (r.mapError Mmu.ofException,
      { s with spaces := update s.spaces id (some space') }) := by
  simp [frames, hs, ht]

theorem machineTranslate_of_usable {addr : ℕ} {size : Size} {writing : Bool}
    {entry : TranslationEntry}
    (halign : ¬ (size.bytes = 4 ∧ addr % 4 ≠ 0 ∨ size.bytes = 2 ∧ addr % 2 ≠ 0))
    (he : space.pageTable[addr / PageSize]? = some entry) (husable : Memory.Usable entry)
    (hlt : entry.physicalPage < NumPhysPages) :
    space.machineTranslate addr size.bytes writing =
      some (.ok (entry.physicalPage * PageSize + addr % PageSize), ⟨space.pageTable.set
        (addr / PageSize) { entry with use := true, dirty := entry.dirty || writing }⟩) := by
  have hbound : entry.physicalPage * PageSize + addr % PageSize + size.bytes ≤ MemorySize := by
    have hin := Memory.aligned_le halign
    have hpage := Nat.mul_le_mul_right PageSize (Nat.succ_le_of_lt hlt)
    rw [Nat.succ_mul] at hpage
    unfold MemorySize
    omega
  unfold AddrSpace.machineTranslate
  rw [if_neg halign]
  simp only [he, husable.1, husable.2, Bool.not_true, Bool.false_and, Bool.false_eq_true, if_false,
    if_neg (not_le.mpr hlt), if_pos hbound]

theorem setMainMemory_blit {a c : ℕ} {g : ℕ → UInt8} :
    (frames id).setMainMemory (blit ((frames id).mainMemory s) a c g) s =
      { s with mainMemory := copyTo a c g s.mainMemory } := by
  have hmem : (fun b : ℤ => if 0 ≤ b then blit (fun b : ℕ => s.mainMemory b) a c g b.toNat
      else s.mainMemory b) = copyTo a c g s.mainMemory := by
    funext b
    unfold copyTo blit
    by_cases hb : 0 ≤ b
    · obtain ⟨k, rfl⟩ := Int.eq_ofNat_of_zero_le hb
      simp only [hb, if_true, Int.toNat_natCast, Nat.cast_le]
      by_cases hk : a ≤ k ∧ k < a + c
      · rw [if_pos hk, if_pos (by omega)]
        congr 1
        omega
      · rw [if_neg hk, if_neg (by omega)]
    · rw [if_neg hb, if_neg (by omega)]
  exact congrArg (fun m => { s with mainMemory := m }) hmem

theorem usable_set {es : List TranslationEntry} {i : ℕ} {e : TranslationEntry} {use dirty : Bool}
    (h : ∀ e ∈ es, Memory.Usable e) (he : es[i]? = some e) :
    ∀ e' ∈ es.set i { e with use := use, dirty := dirty }, Memory.Usable e' := by
  intro e' he'
  rcases List.mem_or_eq_of_mem_set he' with hmem | rfl
  · exact h e' hmem
  · exact h e (List.mem_of_getElem? he)

theorem lockstep_frames : Lockstep (frames id) Private.unit
    fun m n => Placed m (update G id (some n)) := by
  intro addr size writing s n h
  change Translated _ _ _ _ _ _ _ (Private.translate addr size writing n)
  have hG : update G id (some n) id = some n := update_self ..
  obtain ⟨space, hs⟩ := h.exists_space hG
  have hlen := h.length hs hG
  have hsame := h.setFlags hs rfl (h.usable id space hs)
  rw [AddrSpace.frames, List.length_map] at hlen
  unfold Private.translate
  split_ifs with halign hout
  · rw [frames_translate hs (r := .error .addressError) (by
      rw [AddrSpace.machineTranslate, if_pos halign])]
    exact .error (by decide) hsame
  · have hnone : space.pageTable[addr.toNat / PageSize]? = none := by
      rw [List.getElem?_eq_none_iff, hlen]
      exact hout
    have herror : space.machineTranslate addr.toNat size.bytes writing =
        some (.error .addressError, space) := by
      rw [AddrSpace.machineTranslate, if_neg halign]
      dsimp only
      rw [hnone]
    rw [frames_translate hs herror]
    exact .error (by decide) hsame
  · have hlt : addr.toNat / PageSize < space.pageTable.length := by omega
    obtain ⟨entry, he⟩ : ∃ e, space.pageTable[addr.toNat / PageSize]? = some e :=
      ⟨_, List.getElem?_eq_getElem hlt⟩
    have hmem := List.mem_of_getElem? he
    have husable := h.usable id space hs entry hmem
    have hframe : entry.physicalPage < NumPhysPages := by
      refine h.inv.lt id _ ?_
      rw [Memory.framesOf, hs]
      exact List.mem_map_of_mem hmem
    have htranslate : space.machineTranslate addr.toNat size.bytes writing = _ :=
      machineTranslate_of_usable halign he husable hframe
    rw [frames_translate hs htranslate]
    have hframes := (Memory.machineTranslate_spec htranslate).1
    have hflags := h.setFlags hs hframes (usable_set (h.usable id space hs) he)
    have htr : ∀ sp : AddrSpace, sp.frames = space.frames → sp.translate addr.toNat =
        some ((entry.physicalPage * PageSize + addr.toNat % PageSize : ℕ) : ℤ) := by
      intro sp hsp
      refine AddrSpace.translate_nat.mpr ⟨entry.physicalPage, ?_, by simp [PageSize]⟩
      rw [hsp, AddrSpace.frames, List.getElem?_map, show (128 : ℕ) = PageSize from rfl, he,
        Option.map_some]
    have hin := Memory.aligned_le halign
    have hoff : (addr.toNat : ℤ).tmod PageSize + size.bytes ≤ 128 := by
      rw [← Int.ofNat_tmod, show (PageSize : ℕ) = 128 from rfl] at *
      omega
    refine .ok hflags (fun i hi => ?_) fun _ value => ?_
    · have hbyte := AddrSpace.translate_add (htr space rfl) (Int.natCast_nonneg i) (by omega)
      rw [← Nat.cast_add, ← Nat.cast_add] at hbyte
      refine (AddrSpace.byteAt_of_translate hbyte).symm.trans
        (h.bytes id space n hs hG (addr.toNat + i) ?_)
      have hend := Nat.mul_le_mul_right PageSize (Nat.succ_le_of_lt (Nat.lt_of_not_le hout))
      have haddr := Nat.div_add_mod' addr.toNat PageSize
      rw [Nat.succ_mul] at hend
      omega
    · have hlength : (List.map (valueByte value) (List.range size.bytes)).length = size.bytes := by
        simp
      have hdata : ∀ i < size.bytes,
          (List.map (valueByte value) (List.range size.bytes)).getD i 0 = valueByte value i := by
        intro i hi
        simp [List.getD, hi]
      have hw : AddrSpace.Written _ addr.toNat
          (List.map (valueByte value) (List.range size.bytes)) s.mainMemory _ :=
        .copyTo (htr _ hframes) (by rwa [hlength])
      have hwrite := hflags.write (update_self ..) hG hw
      rw [hlength, copyTo_congr hdata, blit_source_congr hdata, update_idem] at hwrite
      rw [setMainMemory_blit]
      exact hwrite

/-! ## Address spaces that come and go -/

theorem Placed.new {pageTable : List TranslationEntry} {s₁ : Memory} (h : Placed s G)
    (hnone : s.spaces id = none) (hsupplies : Memory.Supplies pageTable s s₁)
    (hb : s'.bitmap = s₁.bitmap) (hs' : s'.spaces = update s₁.spaces id (some ⟨pageTable⟩))
    (husable : ∀ e ∈ pageTable, Memory.Usable e) (hlen : pageTable.length = n.numPages)
    (houtside : AddrSpace.Outside (pageTable.map (·.physicalPage)) s.mainMemory s'.mainMemory)
    (hbytes : ∀ v < n.numPages * PageSize,
      AddrSpace.byteAt s'.mainMemory ⟨pageTable⟩ v = n.bytes v) :
    Placed s' (update G id (some n)) := by
  rw [hsupplies.spaces] at hs'
  have hinv : s'.Inv := h.inv.new (by rw [hnone]; rfl) hsupplies hb (by rw [hs', hsupplies.spaces])
  have hcases : ∀ {id' sp}, s'.spaces id' = some sp →
      id' = id ∧ sp = ⟨pageTable⟩ ∨ id' ≠ id ∧ s.spaces id' = some sp := by
    intro id' sp hsp
    rw [hs', update_apply] at hsp
    split at hsp
    next hid => exact .inl ⟨hid, (Option.some.inj hsp).symm⟩
    next hid => exact .inr ⟨hid, hsp⟩
  refine ⟨hinv, fun id' sp hsp => ?_, fun id' => ?_, fun id' sp n' hsp hn' v hv => ?_⟩
  · rcases hcases hsp with ⟨-, rfl⟩ | ⟨-, hsp⟩
    · exact husable
    · exact h.usable id' sp hsp
  · rw [hs', update_apply, update_apply]
    split
    · rw [Option.map_some, Option.map_some, hlen]
    · exact h.pages id'
  · rcases hcases hsp with ⟨rfl, rfl⟩ | ⟨hne, hold⟩
    · rw [update_self] at hn'
      obtain rfl := Option.some.inj hn'
      exact hbytes v hv
    · rw [update_of_ne hne] at hn'
      have hdisj : ∀ f ∈ sp.frames, f ∉ pageTable.map (·.physicalPage) := by
        intro f hf
        have := hinv.disjoint id' id hne f
        simp only [Memory.framesOf, hsp, hs', update_self] at this
        exact this hf
      rw [houtside.byteAt hdisj (by rwa [h.length hold hn'])]
      exact h.bytes id' sp n' hold hn' v hv

theorem Placed.copyAddrSpace (h : Placed s G) (hn : G id = some n)
    (hs : s.copyAddrSpace id spaceDest = some s') : Placed s' (update G spaceDest (some n)) := by
  simp only [Memory.copyAddrSpace, Option.bind_eq_bind, Option.ite_none_right_eq_some,
    Option.bind_eq_some_iff, Prod.exists] at hs
  obtain ⟨space, hspace, hnone, pageTable, s₁, hg, he⟩ := hs
  obtain rfl := Option.some.inj he
  have hlen := h.length hspace hn
  have hmarked : ∀ e ∈ space.pageTable, s.bitmap.test e.physicalPage = true := by
    intro e hmem
    have hf : e.physicalPage ∈ s.framesOf id := by
      rw [Memory.framesOf, hspace]
      exact List.mem_map_of_mem hmem
    exact (h.inv.marked _ (h.inv.lt id _ hf)).mpr ⟨id, hf⟩
  have hcopies := Memory.copies_copyPages hmarked hg
  rw [AddrSpace.frames, List.length_map] at hlen
  refine h.new (Option.isNone_iff_eq_none.mp hnone) (Memory.supplies_copyPages hg) rfl rfl
    hcopies.usable (hcopies.length.trans hlen) hcopies.outside fun v hv => ?_
  have hlt : v / PageSize < space.pageTable.length := by
    rw [hlen]
    exact Nat.div_lt_of_lt_mul (by rwa [Nat.mul_comm])
  have hlt' : v / PageSize < pageTable.length := by rwa [hcopies.length]
  rw [← h.bytes id space n hspace hn v hv]
  have hcopy := hcopies.bytes (v / PageSize) _ _ (List.getElem?_eq_getElem hlt)
    (List.getElem?_eq_getElem hlt') (v % PageSize) (Nat.mod_lt _ (by decide))
  simp only [AddrSpace.byteAt, AddrSpace.frames]
  rw [List.getD_eq_getElem _ _ (by simpa using hlt'), List.getD_eq_getElem _ _ (by simpa using hlt),
    List.getElem_map, List.getElem_map]
  exact hcopy

theorem Placed.destroy (h : Placed s G) (hs : s.destroy id = some s') :
    Placed s' (update G id none) := by
  have hinv := h.inv.destroy hs
  simp only [Memory.destroy, Option.bind_eq_bind, Option.bind_eq_some_iff] at hs
  obtain ⟨space, hsp, s₁, hc, he⟩ := hs
  obtain rfl := Option.some.inj he
  have hspaces := (Memory.clearPages_spec hc).2.1
  have hmem := Memory.clearPages_mainMemory hc
  have hcases : ∀ {id' sp}, update s₁.spaces id none id' = some sp →
      id' ≠ id ∧ s.spaces id' = some sp := by
    intro id' sp hsp
    rw [hspaces, update_apply] at hsp
    split at hsp
    next => cases hsp
    next hid => exact ⟨hid, hsp⟩
  refine ⟨hinv, fun id' sp hsp => h.usable id' sp (hcases hsp).2, fun id' => ?_,
    fun id' sp n' hsp hn' => ?_⟩
  · dsimp only
    rw [hspaces, update_apply, update_apply]
    split
    · rfl
    · exact h.pages id'
  · obtain ⟨hne, hsp⟩ := hcases hsp
    rw [update_of_ne hne] at hn'
    dsimp only
    rw [hmem]
    exact h.bytes id' sp n' hsp hn'

theorem readSegment_spec {x : NoffFile} {g : Segment} {m : ℤ → UInt8} (hg : x.SegmentInside g)
    (hlen : space.frames.length = x.numPages) (hnd : space.frames.Nodup)
    (hfollows : Follows space g) :
    AddrSpace.Outside space.frames m (space.readSegment x g m) ∧
      ∀ v < x.numPages * PageSize,
        space.byteAt (space.readSegment x g m) v = x.loadSegment (space.byteAt m) g v := by
  unfold AddrSpace.readSegment NoffFile.loadSegment
  split
  case isFalse => exact ⟨fun _ _ _ _ => rfl, fun _ _ => rfl⟩
  case isTrue hpos =>
    obtain ⟨hv, hf, hin⟩ := hg hpos
    have hfollow := hfollows hpos
    obtain ⟨virtualAddr, inFileAddr, size⟩ := g
    dsimp only at hpos hv hf hin hfollow ⊢
    obtain ⟨a, rfl⟩ := Int.eq_ofNat_of_zero_le hv
    obtain ⟨b, rfl⟩ := Int.eq_ofNat_of_zero_le hf
    obtain ⟨k, rfl⟩ := Int.eq_ofNat_of_zero_le (Int.le_of_lt hpos)
    simp only [Int.toNat_natCast] at hfollow ⊢
    have hin' : a + k ≤ space.frames.length * 128 := by
      rw [hlen]
      exact_mod_cast hin
    have hw := AddrSpace.written_readFile x b m hfollow hin' (Nat.le_refl k)
    refine ⟨hw.outside, fun v hv => ?_⟩
    rw [hw.byteAt hnd (by rwa [hlen]), AddrSpace.length_fileBytes,
      blit_source_congr fun i hi => AddrSpace.getD_fileBytes hi]

/-- What a program starts with: its segments, over the bytes that the frames had. -/
def Loaded (x : NoffFile) (bytes : ℕ → UInt8) : Prop :=
  ∃ f, bytes = x.loadSegment (x.loadSegment f x.code) x.initData

theorem Placed.create {x : NoffFile} (h : Placed s G) (hx : x.Inside)
    (hs : s.create id x = some s')
    (hfollows : ∀ space, s'.spaces id = some space →
      Follows space x.code ∧ Follows space x.initData) :
    G id = none ∧ ∃ bytes, Loaded x bytes ∧ Placed s' (update G id (some ⟨x.numPages, bytes⟩)) := by
  simp only [Memory.create, Option.bind_eq_bind, Option.ite_none_right_eq_some,
    Option.bind_eq_some_iff, Prod.exists] at hs
  obtain ⟨⟨hnone, -, -⟩, pageTable, s₁, hg, he⟩ := hs
  obtain rfl := Option.some.inj he
  obtain ⟨hmem, hlength, husable⟩ := Memory.getPages_spec hg
  have hsupplies := Memory.supplies_getPages hg
  obtain ⟨hcode, hdata⟩ := hfollows ⟨pageTable⟩ (update_self ..)
  have hlen : AddrSpace.frames ⟨pageTable⟩ = pageTable.map (·.physicalPage) := rfl
  have hpages : (AddrSpace.frames ⟨pageTable⟩).length = x.numPages := by
    rw [hlen, List.length_map, hlength]
  obtain ⟨houtside₁, hbytes₁⟩ := readSegment_spec (m := s₁.mainMemory) hx.1 hpages
    hsupplies.claims.nodup hcode
  obtain ⟨houtside₂, hbytes₂⟩ := readSegment_spec
    (m := AddrSpace.readSegment x ⟨pageTable⟩ x.code s₁.mainMemory) hx.2 hpages
    hsupplies.claims.nodup hdata
  have hempty := Option.isNone_iff_eq_none.mp hnone
  refine ⟨?_, _, ⟨AddrSpace.byteAt s₁.mainMemory ⟨pageTable⟩, rfl⟩, h.new hempty hsupplies rfl rfl
    husable hlength (fun g hg j hj => ?_) fun v hv => ?_⟩
  · have hid := h.pages id
    rw [hempty] at hid
    exact Option.map_eq_none_iff.mp hid.symm
  · rw [← hmem, ← houtside₁ g hg j hj]
    exact houtside₂ g hg j hj
  · exact (hbytes₂ v hv).trans (loadSegment_congr (hbytes₁ v hv))

theorem Placed.le_of_translate {vAddr c : ℕ} {pAddr : ℤ} (h : Placed s G)
    (hs : s.spaces id = some space) (hn : G id = some n) (htr : space.translate vAddr = some pAddr)
    (hin : vAddr % PageSize + c ≤ PageSize) : vAddr + c ≤ n.numPages * PageSize := by
  obtain ⟨f, hf, -⟩ := AddrSpace.translate_nat.mp htr
  have hlt : vAddr / PageSize < space.frames.length := (List.getElem?_eq_some_iff.mp hf).1
  rw [h.length hs hn] at hlt
  have hend := Nat.mul_le_mul_right PageSize (Nat.succ_le_of_lt hlt)
  have haddr := Nat.div_add_mod' vAddr PageSize
  rw [Nat.succ_mul] at hend
  omega

theorem tmod_le {vAddr c : ℕ} (hin : vAddr % PageSize + c ≤ PageSize) :
    (vAddr : ℤ).tmod PageSize + c ≤ 128 := by
  rw [← Int.ofNat_tmod]
  exact_mod_cast hin

theorem represents_resident :
    resident.Represents residentGuards Memory.Initial Loaded Placed where
  init s hs := by
    refine ⟨.of_initial hs, fun id space hsp => ?_, fun id => ?_, fun id space n hsp => ?_⟩
    · rw [hs.spaces] at hsp
      cases hsp
    · rw [hs.spaces]
      rfl
    · rw [hs.spaces] at hsp
      cases hsp
  numPages s G id h := h.pages id
  lockstep G id := lockstep_frames
  pageFault s s' G id n addr hfault hs := by
    obtain ⟨size, writing, s₀, h, hs₀⟩ := hfault
    have htranslated := lockstep_frames addr size writing s₀ n h
    have hs₀ : (frames id).translate addr size writing s₀ = some (.error .pageFault, s) := hs₀
    rw [hs₀] at htranslated
    obtain rfl := Option.some.inj hs
    generalize Private.unit.translate addr size writing n = y at htranslated
    cases htranslated with
    | fault hplaced => exact hplaced
    | error hne => exact absurd rfl hne
  create s s' G id x h hg hs := by
    obtain ⟨hx, hall⟩ := hg
    refine h.create hx hs fun space hspace => ?_
    have hs : s.create id x = some s' := hs
    rw [hs, Option.bind_some, hspace, Option.all_some] at hall
    exact of_decide_eq_true hall
  copy s s' G id spaceDest n h _ hn _ hs := h.copyAddrSpace hn hs
  destroy s s' G id h hs := h.destroy hs
  get s s' G id n vAddr size data h hin hn hs := by
    simp only [resident, Option.bind_eq_bind, Option.bind_eq_some_iff,
      Option.ite_none_right_eq_some] at hs
    obtain ⟨space, hspace, pAddr, htr, -, he⟩ := hs
    obtain ⟨rfl, rfl⟩ := Prod.mk.inj (Option.some.inj he)
    have hend := h.le_of_translate hspace hn htr hin
    refine ⟨hend, List.map_congr_left fun i hi => ?_, h⟩
    have hlt := List.mem_range.mp hi
    have hle := tmod_le hin
    have hbyte := AddrSpace.translate_add htr (Int.natCast_nonneg i) (by omega)
    rw [← Nat.cast_add] at hbyte
    rw [← h.bytes id space n hspace hn (vAddr + i) (by omega), AddrSpace.byteAt_of_translate hbyte]
  put s s' G id n vAddr data h hin hn hs := by
    simp only [resident, Option.bind_eq_bind, Option.bind_eq_some_iff,
      Option.ite_none_right_eq_some] at hs
    obtain ⟨space, hspace, pAddr, htr, -, he⟩ := hs
    obtain rfl := Option.some.inj he
    exact ⟨h.le_of_translate hspace hn htr hin, h.write hspace hn (.copyTo htr (tmod_le hin))⟩

/-! ## Runs -/

/-- Without virtual memory, too, as long as the kernel keeps to the conditions, every run is one of
processes that have a machine of their own each, with the same instructions, system calls, forks,
stores of the kernel and switches. In the end the registers of the machine are those of the
process that runs, and the frames of each address space have the bytes of its process. -/
theorem resident_refines {c₀ c : Computer Memory} {as : List Action}
    (h₀ : residentSystem.Init c₀) (h : Run residentSystem c₀ as c) :
    ∃ Q₀ Q, (Processes.system Loaded).Init Q₀ ∧ Run (Processes.system Loaded) Q₀ as Q ∧
      Q.current = c.current ∧
      (∀ id, (c.machine.memory.spaces id).map (·.pageTable.length) =
        (Q.memories id).map (·.numPages)) ∧
      ∀ id p, Q.process id = some p →
        (id = c.current → p.machine.registers = c.machine.registers) ∧
        ∀ space, c.machine.memory.spaces id = some space →
          ∀ v < p.machine.memory.numPages * PageSize,
            space.byteAt c.machine.memory.mainMemory v = p.machine.memory.bytes v := by
  obtain ⟨Q₀, hQ₀, hr₀⟩ := (Computer.simulates represents_resident).init c₀ h₀
  obtain ⟨Q, hrun, hr⟩ := (Computer.simulates represents_resident).run h hr₀
  refine ⟨Q₀, Q, hQ₀, hrun, hr.current, hr.memory.pages, fun id p hp => ?_⟩
  refine ⟨fun hid => (hr.registers (hid ▸ hp)).2, fun space hspace => ?_⟩
  exact hr.memory.bytes id space _ hspace (by rw [Processes.memories, hp, Option.map_some])

def calling : NoffFile where
  noffMagic := NOFFMAGIC
  code := ⟨0, 0, 4⟩
  initData := ⟨0, 0, 0⟩
  uninitData := ⟨0, 0, 0⟩
  content i := [12, 0, 0, 0].getD i 0

def forking : List Action :=
  [.exec 1 calling, .switch 1, .user (.call ⟨0#32, 0#32, 0#32, 0#32⟩), .fork 2,
    .user (.put 8 [7]), .user (.result 2#32), .user .resume, .switch 2]

theorem resident_refines_fork : ∃ c Q₀ Q,
    Run residentSystem ⟨⟨fun _ => 0#32, Memory.boot⟩, 0, fun _ => none⟩ forking c ∧
    Run (Processes.system Loaded) Q₀ forking Q ∧ Q.current = c.current := by
  have hrun : (exec (guarded residentGuards.Allow (Computer.step resident))
      ⟨⟨fun _ => 0#32, Memory.boot⟩, 0, fun _ => none⟩ forking).any (fun _ => true) = true := by
    decide +kernel
  obtain ⟨c, hc, -⟩ := run_of_any_exec (I := fun c => Memory.Initial c.machine.memory ∧
    ∀ id, c.threads id = none) hrun
  rw [← guard_ofStep] at hc
  have hboot : Memory.boot.Initial := ⟨rfl, fun i _ => by simp [Memory.boot, BitMap.test],
    fun _ => rfl⟩
  obtain ⟨Q₀, Q, -, hQ, hcur, -⟩ := resident_refines ⟨hboot, fun _ => rfl⟩ hc
  exact ⟨c, Q₀, Q, hc, hQ, hcur⟩

end Machine

end Nachos
