import Nachos.Userprog.AddrSpace

/-! # Frames of live address spaces

The frames of the live address spaces are different frames of the machine, and
`MemoryManager` has handed out these frames and no others. A store stays inside
a frame of its address space, so no other address space can load what it wrote.
-/

namespace Nachos

open Function

namespace BitMap

variable {b b' b'' : BitMap} {fs gs : List ℕ} {i j : ℕ}

structure Claims (fs : List ℕ) (b b' : BitMap) : Prop where
  numBits : b'.numBits = b.numBits
  nodup : fs.Nodup
  clear : ∀ f ∈ fs, f < b.numBits ∧ b.test f = false
  test : ∀ j, b'.test j = (decide (j ∈ fs) || b.test j)

theorem Claims.nil : Claims [] b b := ⟨rfl, List.nodup_nil, by simp, by simp⟩

theorem Claims.find (h : b.find = some (i, b')) : Claims [i] b b' := by
  obtain ⟨hi, ht, -, rfl⟩ := find_eq_some_iff.mp h
  refine ⟨rfl, by simp, by simp [hi, ht], fun j => ?_⟩
  rw [test_mark]
  simp [eq_comm]

theorem Claims.append (h : Claims fs b b') (h' : Claims gs b' b'') :
    Claims (fs ++ gs) b b'' where
  numBits := h'.numBits.trans h.numBits
  nodup := by
    refine List.nodup_append.mpr ⟨h.nodup, h'.nodup, ?_⟩
    rintro f hf g hg rfl
    have := (h'.clear f hg).2
    simp [h.test, hf] at this
  clear f hf := by
    rcases List.mem_append.mp hf with hf | hf
    · exact h.clear f hf
    · obtain ⟨hlt, ht⟩ := h'.clear f hf
      rw [h.test, Bool.or_eq_false_iff] at ht
      exact ⟨h.numBits ▸ hlt, ht.2⟩
  test j := by
    rw [h'.test, h.test, ← Bool.or_assoc]
    simp [Bool.or_comm]

end BitMap

namespace Userprog.Memory

open VM Transition BitMap

variable {s s' : Memory} {id id' i n f : ℕ} {es pageTable : List TranslationEntry} {x : NoffFile}

/-! ## Loops -/

/-- Frames have been handed out for the entries of a new page table, and nothing but the bit map
and the bytes of the memory has changed. -/
structure Supplies (pageTable : List TranslationEntry) (s s' : Memory) : Prop where
  claims : Claims (pageTable.map (·.physicalPage)) s.bitmap s'.bitmap
  spaces : s'.spaces = s.spaces

theorem Supplies.cons {m : ℤ → UInt8} (hp : s.getPage = some (f, s'))
    {s'' : Memory} (h : Supplies pageTable { s' with mainMemory := m } s'') :
    Supplies (newEntry i f :: pageTable) s s'' := by
  obtain ⟨⟨g, b⟩, hf, he⟩ := Option.map_eq_some_iff.mp hp
  obtain ⟨rfl, rfl⟩ := Prod.mk.inj he
  exact ⟨(Claims.find hf).append h.claims, h.spaces⟩

theorem supplies_getPages (h : s.getPages i n = some (pageTable, s')) :
    Supplies pageTable s s' := by
  induction n generalizing i s pageTable with
  | zero =>
    obtain ⟨rfl, rfl⟩ := Prod.mk.inj (Option.some.inj h)
    exact ⟨.nil, rfl⟩
  | succ n ih =>
    simp only [getPages, Option.bind_eq_bind, Option.bind_eq_some_iff, Prod.exists] at h
    obtain ⟨f, s₁, hp, rest, s₂, hr, he⟩ := h
    obtain ⟨rfl, rfl⟩ := Prod.mk.inj (Option.some.inj he)
    exact .cons hp (ih hr)

theorem supplies_copyPages (h : s.copyPages i es = some (pageTable, s')) :
    Supplies pageTable s s' := by
  induction es generalizing i s pageTable with
  | nil =>
    obtain ⟨rfl, rfl⟩ := Prod.mk.inj (Option.some.inj h)
    exact ⟨.nil, rfl⟩
  | cons e es ih =>
    simp only [copyPages, Option.bind_eq_bind, Option.bind_eq_some_iff, Prod.exists] at h
    obtain ⟨f, s₁, hp, rest, s₂, hr, he⟩ := h
    obtain ⟨rfl, rfl⟩ := Prod.mk.inj (Option.some.inj he)
    exact .cons hp (ih hr)

theorem clearPages_spec (h : s.clearPages es = some s') :
    s'.bitmap.numBits = s.bitmap.numBits ∧ s'.spaces = s.spaces ∧
      ∀ j, s'.bitmap.test j = (!decide (j ∈ es.map (·.physicalPage)) && s.bitmap.test j) := by
  induction es generalizing s with
  | nil =>
    obtain rfl := Option.some.inj h
    simp
  | cons e es ih =>
    obtain ⟨s₁, hc, hr⟩ := Option.bind_eq_some_iff.mp h
    simp only [clearPage, Option.ite_none_right_eq_some, Option.some.injEq] at hc
    obtain ⟨-, rfl⟩ := hc
    obtain ⟨hn, hs, ht⟩ := ih hr
    refine ⟨hn, hs, fun j => ?_⟩
    rw [ht, test_clear]
    by_cases hj : j = e.physicalPage
    · simp [hj]
    · simp [hj, Ne.symm hj]

/-! ## The invariant -/

def framesOf (s : Memory) (id : ℕ) : List ℕ := (s.spaces id).elim [] AddrSpace.frames

structure Inv (s : Memory) : Prop where
  numBits : s.bitmap.numBits = NumPhysPages
  lt : ∀ id, ∀ f ∈ s.framesOf id, f < NumPhysPages
  nodup : ∀ id, (s.framesOf id).Nodup
  disjoint : ∀ id id', id ≠ id' → ∀ f ∈ s.framesOf id, f ∉ s.framesOf id'
  marked : ∀ f < NumPhysPages, s.bitmap.test f = true ↔ ∃ id, f ∈ s.framesOf id

theorem framesOf_update {o : Option AddrSpace} (hs : s'.spaces = update s.spaces id o) :
    s'.framesOf id = o.elim [] AddrSpace.frames ∧
      ∀ id' ≠ id, s'.framesOf id' = s.framesOf id' := by
  refine ⟨by simp [framesOf, hs], fun id' hne => ?_⟩
  simp [framesOf, hs, update_of_ne hne]

namespace Inv

theorem congr (h : Inv s) (hb : s'.bitmap = s.bitmap) (hf : ∀ id, s'.framesOf id = s.framesOf id) :
    Inv s' := by
  refine ⟨hb ▸ h.numBits, fun id => hf id ▸ h.lt id, fun id => hf id ▸ h.nodup id,
    fun id id' hne => ?_, fun f hlt => ?_⟩
  · rw [hf id, hf id']
    exact h.disjoint id id' hne
  · rw [hb, h.marked f hlt]
    simp only [hf]

theorem new {s₁ : Memory} (h : Inv s) (hnone : (s.spaces id).isNone = true)
    (hg : Supplies pageTable s s₁) (hb : s'.bitmap = s₁.bitmap)
    (hs : s'.spaces = update s₁.spaces id (some ⟨pageTable⟩)) : Inv s' := by
  obtain ⟨hid, hother⟩ := framesOf_update (s := s) (hg.spaces ▸ hs)
  have hempty : s.framesOf id = [] := by
    simp [framesOf, Option.isNone_iff_eq_none.mp hnone]
  have hfresh : ∀ f ∈ s'.framesOf id, f < NumPhysPages ∧ ∀ id', f ∉ s.framesOf id' := by
    intro f hf
    rw [hid] at hf
    obtain ⟨hlt, ht⟩ := hg.claims.clear f hf
    rw [h.numBits] at hlt
    refine ⟨hlt, fun id' hmem => ?_⟩
    rw [(h.marked f hlt).mpr ⟨id', hmem⟩] at ht
    cases ht
  refine ⟨by rw [hb, hg.claims.numBits, h.numBits], ?_, ?_, ?_, ?_⟩
  · intro id' f hf
    by_cases he : id' = id
    · exact (hfresh f (he ▸ hf)).1
    · exact h.lt id' f (hother id' he ▸ hf)
  · intro id'
    by_cases he : id' = id
    · rw [he, hid]
      exact hg.claims.nodup
    · rw [hother id' he]
      exact h.nodup id'
  · intro i j hij f hi hj
    by_cases hii : i = id
    · subst hii
      exact (hfresh f hi).2 j (hother j (Ne.symm hij) ▸ hj)
    · rw [hother i hii] at hi
      by_cases hjj : j = id
      · subst hjj
        exact (hfresh f hj).2 i hi
      · exact h.disjoint i j hij f hi (hother j hjj ▸ hj)
  · intro f hlt
    rw [hb, hg.claims.test, Bool.or_eq_true, decide_eq_true_iff, h.marked f hlt]
    constructor
    · rintro (hf | ⟨id', hf⟩)
      · exact ⟨id, by rw [hid]; exact hf⟩
      · have he : id' ≠ id := by
          rintro rfl
          simp [hempty] at hf
        exact ⟨id', (hother id' he).symm ▸ hf⟩
    · rintro ⟨id', hf⟩
      by_cases he : id' = id
      · subst he
        rw [hid] at hf
        exact .inl hf
      · exact .inr ⟨id', hother id' he ▸ hf⟩

theorem create (h : Inv s) (hs : s.create id x = some s') : Inv s' := by
  simp only [Memory.create, Option.bind_eq_bind, Option.ite_none_right_eq_some,
    Option.bind_eq_some_iff, Prod.exists] at hs
  obtain ⟨⟨hnone, -, -⟩, pageTable, s₁, hg, he⟩ := hs
  obtain rfl := Option.some.inj he
  exact h.new hnone (supplies_getPages hg) rfl rfl

theorem copyAddrSpace (h : Inv s) (hs : s.copyAddrSpace id id' = some s') : Inv s' := by
  simp only [Memory.copyAddrSpace, Option.bind_eq_bind, Option.ite_none_right_eq_some,
    Option.bind_eq_some_iff, Prod.exists] at hs
  obtain ⟨space, -, hnone, pageTable, s₁, hg, he⟩ := hs
  obtain rfl := Option.some.inj he
  exact h.new hnone (supplies_copyPages hg) rfl rfl

theorem destroy (h : Inv s) (hs : s.destroy id = some s') : Inv s' := by
  simp only [Memory.destroy, Option.bind_eq_bind, Option.bind_eq_some_iff] at hs
  obtain ⟨space, hsp, s₁, hc, he⟩ := hs
  obtain rfl := Option.some.inj he
  obtain ⟨hn, hs₁, ht⟩ := clearPages_spec hc
  have hfs : s.framesOf id = space.pageTable.map (·.physicalPage) := by
    simp [framesOf, hsp, AddrSpace.frames]
  generalize hs' : { s₁ with spaces := update s₁.spaces id none } = s'
  have hb : s'.bitmap = s₁.bitmap := by rw [← hs']
  have hspaces : s'.spaces = update s.spaces id none := by rw [← hs', hs₁]
  obtain ⟨hid, hother⟩ := framesOf_update hspaces
  have hsub : ∀ id' f, f ∈ s'.framesOf id' → id' ≠ id ∧ f ∈ s.framesOf id' := by
    intro id' f hf
    by_cases he : id' = id
    · rw [he, hid] at hf
      cases hf
    · exact ⟨he, hother id' he ▸ hf⟩
  refine ⟨by rw [hb, hn, h.numBits], fun id' f hf => h.lt id' f (hsub id' f hf).2, fun id' => ?_,
    fun i j hij f hi hj => h.disjoint i j hij f (hsub i f hi).2 (hsub j f hj).2, fun f hlt => ?_⟩
  · by_cases he : id' = id
    · rw [he, hid]
      exact List.nodup_nil
    · rw [hother id' he]
      exact h.nodup id'
  · rw [hb, ht, ← hfs, Bool.and_eq_true, Bool.not_eq_true', decide_eq_false_iff_not, h.marked f hlt]
    constructor
    · rintro ⟨hno, id', hf⟩
      have he : id' ≠ id := by
        rintro rfl
        exact hno hf
      exact ⟨id', (hother id' he).symm ▸ hf⟩
    · rintro ⟨id', hf⟩
      obtain ⟨he, hf⟩ := hsub id' f hf
      exact ⟨h.disjoint id' id he f hf, id', hf⟩

end Inv

/-! ## User-mode accesses -/

theorem aligned_le {virtAddr : ℕ} {size : Size}
    (h : ¬ (size.bytes = 4 ∧ virtAddr % 4 ≠ 0 ∨ size.bytes = 2 ∧ virtAddr % 2 ≠ 0)) :
    virtAddr % PageSize + size.bytes ≤ PageSize := by
  unfold PageSize
  cases size with
  | byte => exact Nat.mod_lt virtAddr (by decide)
  | half =>
    have hv : virtAddr % 2 = 0 := by simpa [Size.bytes] using h
    simp only [Size.bytes]
    omega
  | word =>
    have hv : virtAddr % 4 = 0 := by simpa [Size.bytes] using h
    simp only [Size.bytes]
    omega

theorem map_set_physicalPage {e e' : TranslationEntry} (he : pageTable[i]? = some e)
    (hf : e'.physicalPage = e.physicalPage) :
    (pageTable.set i e').map (·.physicalPage) = pageTable.map (·.physicalPage) := by
  obtain ⟨hlt, rfl⟩ := List.getElem?_eq_some_iff.mp he
  rw [List.map_set, hf, ← List.getElem_map (fun e : TranslationEntry => e.physicalPage)
    (h := by simpa using hlt), List.set_getElem_self]

/-- An access sets flags of an entry. What it reaches is in a frame of the address space and does
not cross the end of the frame. -/
theorem machineTranslate_spec {space space' : AddrSpace} {virtAddr : ℕ} {size : Size}
    {writing : Bool} {r : Except State.Exception ℕ}
    (h : space.machineTranslate virtAddr size.bytes writing = some (r, space')) :
    space'.frames = space.frames ∧ ∀ physAddr, r = .ok physAddr →
      ∃ f ∈ space.frames, ∃ offset, physAddr = f * PageSize + offset ∧
        offset + size.bytes ≤ PageSize := by
  have herror : ∀ {e : State.Exception}, some (Except.error e, space) = some (r, space') →
      space'.frames = space.frames ∧ ∀ physAddr, r = .ok physAddr →
        ∃ f ∈ space.frames, ∃ offset, physAddr = f * PageSize + offset ∧
          offset + size.bytes ≤ PageSize := by
    intro e he
    obtain ⟨rfl, rfl⟩ := Prod.mk.inj (Option.some.inj he)
    exact ⟨rfl, by simp⟩
  unfold AddrSpace.machineTranslate at h
  split at h
  case isTrue => exact herror h
  case isFalse hal =>
    dsimp only at h
    split at h
    case h_1 => exact herror h
    case h_2 entry he =>
      split at h
      · exact herror h
      split at h
      · exact herror h
      split at h
      · exact herror h
      simp only [Option.ite_none_right_eq_some, Option.some.injEq, Prod.mk.injEq] at h
      obtain ⟨-, rfl, rfl⟩ := h
      refine ⟨map_set_physicalPage he rfl, fun a ha => ?_⟩
      obtain rfl := Except.ok.inj ha
      exact ⟨entry.physicalPage, List.mem_map_of_mem (List.mem_of_getElem? he), _, rfl,
        aligned_le hal⟩

theorem Inv.setFlags {space space' : AddrSpace} (h : Inv s) (hs : s.spaces id = some space)
    (hf : space'.frames = space.frames) {m : ℤ → UInt8} :
    Inv { s with mainMemory := m, spaces := update s.spaces id (some space') } := by
  refine h.congr rfl fun id' => ?_
  by_cases he : id' = id
  · simp [framesOf, he, hs, hf]
  · simp [framesOf, update_of_ne he]

theorem writeMem_spec {addr : ℕ} {size : Size} {value : BitVec 32} {r : Bool}
    (h : s.writeMem id addr size value = some (r, s')) :
    ∃ space space' : AddrSpace, s.spaces id = some space ∧ space'.frames = space.frames ∧
      ∃ m, s' = { s with mainMemory := m, spaces := update s.spaces id (some space') } ∧
        (m = s.mainMemory ∨ ∃ f ∈ space.frames, ∃ offset, offset + size.bytes ≤ PageSize ∧
          m = copyTo (f * PageSize + offset : ℕ) size.bytes (valueByte value) s.mainMemory) := by
  simp only [writeMem, Option.bind_eq_bind, Option.bind_eq_some_iff, Prod.exists] at h
  obtain ⟨space, hs, e, space', ht, h⟩ := h
  obtain ⟨hf, hin⟩ := machineTranslate_spec ht
  refine ⟨space, space', hs, hf, ?_⟩
  cases e with
  | error e =>
    obtain ⟨-, -, he⟩ := Option.map_eq_some_iff.mp h
    obtain ⟨-, rfl⟩ := Prod.mk.inj he
    exact ⟨s.mainMemory, rfl, .inl rfl⟩
  | ok physAddr =>
    obtain ⟨-, rfl⟩ := Prod.mk.inj (Option.some.inj h)
    obtain ⟨f, hf, offset, rfl, hle⟩ := hin physAddr rfl
    exact ⟨_, rfl, .inr ⟨f, hf, offset, hle, rfl⟩⟩

theorem Inv.step {a : Action} (h : Inv s) (hs : s.step a = some s') : Inv s' := by
  cases a with
  | create id x => exact h.create hs
  | fork id spaceDest => exact h.copyAddrSpace hs
  | exit id => exact h.destroy hs
  | load id addr size =>
    obtain ⟨⟨v, s₁⟩, hr, rfl⟩ := Option.map_eq_some_iff.mp hs
    simp only [readMem, Option.bind_eq_bind, Option.bind_eq_some_iff, Prod.exists] at hr
    obtain ⟨space, hs, e, space', ht, hr⟩ := hr
    have hi := h.setFlags (m := s.mainMemory) hs (machineTranslate_spec ht).1
    cases e with
    | error e =>
      obtain ⟨-, -, he⟩ := Option.map_eq_some_iff.mp hr
      obtain ⟨-, rfl⟩ := Prod.mk.inj he
      exact hi
    | ok physAddr =>
      obtain ⟨-, rfl⟩ := Prod.mk.inj (Option.some.inj hr)
      exact hi
  | store id addr size value =>
    obtain ⟨⟨v, s₁⟩, hr, rfl⟩ := Option.map_eq_some_iff.mp hs
    obtain ⟨space, space', hsp, hf, m, rfl, -⟩ := writeMem_spec hr
    exact h.setFlags hsp hf

theorem Inv.of_initial (h : s.Initial) : Inv s := by
  have he : ∀ id, s.framesOf id = [] := fun id => by simp [framesOf, h.spaces]
  refine ⟨h.numBits, by simp [he], by simp [he], by simp [he], fun f hf => ?_⟩
  simp [he, h.bitmap f hf]

theorem inv_of_reachable (h : Reachable system s) : Inv s :=
  h.invariant (P := Inv) (fun _ => Inv.of_initial) fun _ _ _ hi hs => hi.step hs

/-! ## Isolation -/

theorem copyTo_other {g offset m j : ℕ} {buffer : ℕ → UInt8} {mainMemory : ℤ → UInt8}
    (hm : offset + m ≤ PageSize) (hne : g ≠ f) (hj : j < PageSize) :
    copyTo (f * PageSize + offset : ℕ) m buffer mainMemory (g * PageSize + j : ℕ) =
      mainMemory (g * PageSize + j : ℕ) := by
  have hout : ¬ (f * PageSize + offset ≤ g * PageSize + j ∧
      g * PageSize + j < f * PageSize + offset + m) := by
    unfold PageSize at hm hj ⊢
    omega
  rw [copyTo, if_neg (by omega)]

/-- What an address space loads depends on its page table and the bytes of its frames. -/
theorem readMem_congr {addr : ℕ} {size : Size} (hs : s'.spaces id = s.spaces id)
    (hm : ∀ f ∈ s.framesOf id, ∀ j < PageSize,
      s'.mainMemory (f * PageSize + j : ℕ) = s.mainMemory (f * PageSize + j : ℕ)) :
    (s'.readMem id addr size).map Prod.fst = (s.readMem id addr size).map Prod.fst := by
  simp only [readMem, hs]
  cases hsp : s.spaces id with
  | none => rfl
  | some space =>
    cases ht : space.machineTranslate addr size.bytes false with
    | none => simp [ht]
    | some r =>
      obtain ⟨e, space'⟩ := r
      cases e with
      | error e => cases e <;> simp [ht, exceptionHandler]
      | ok physAddr =>
        obtain ⟨f, hf, offset, rfl, hle⟩ := (machineTranslate_spec ht).2 physAddr rfl
        have hbytes : ∀ i < size.bytes, _ = _ := fun i hi =>
          hm f (by simpa [framesOf, hsp] using hf) (offset + i) (by omega)
        have hv := readValue_congr hbytes
        simp only [← Nat.add_assoc] at hv
        simp only [Option.bind_eq_bind, Option.bind_some, ht, Option.map_some, hv]

theorem readMem_writeMem {addr addr' : ℕ} {size size' : Size} {value : BitVec 32} {r : Bool}
    (h : Inv s) (hne : id' ≠ id) (hw : s.writeMem id addr size value = some (r, s')) :
    (s'.readMem id' addr' size').map Prod.fst = (s.readMem id' addr' size').map Prod.fst := by
  obtain ⟨space, space', hs, -, m, rfl, hm⟩ := writeMem_spec hw
  refine readMem_congr (update_of_ne hne _ _) fun g hg j hj => ?_
  rcases hm with rfl | ⟨f, hf, offset, hle, rfl⟩
  · rfl
  · have hf' : f ∈ s.framesOf id := by simpa [framesOf, hs] using hf
    have hgf : g ≠ f := by
      rintro rfl
      exact h.disjoint id' id hne g hg hf'
    exact copyTo_other hle hgf hj

/-- In every state that creations, forks and deletions of address spaces and their programs lead
to, the frames in the page tables of the live address spaces are frames of the machine,
different within and across address spaces, and they are exactly the frames that the memory
manager has marked; and a store by one address space does not change what another one loads. -/
theorem frames_disjoint_and_marked (h : Reachable system s) :
    (∀ id space, s.spaces id = some space →
      (∀ f ∈ space.frames, f < NumPhysPages) ∧ space.frames.Nodup) ∧
    (∀ id id' space space', s.spaces id = some space → s.spaces id' = some space' → id ≠ id' →
      ∀ f ∈ space.frames, f ∉ space'.frames) ∧
    (∀ f < NumPhysPages, s.bitmap.test f = true ↔
      ∃ id space, s.spaces id = some space ∧ f ∈ space.frames) ∧
    ∀ id id' addr size value r s', id ≠ id' → s.writeMem id addr size value = some (r, s') →
      ∀ addr' size', (s'.readMem id' addr' size').map Prod.fst =
        (s.readMem id' addr' size').map Prod.fst := by
  have hi := inv_of_reachable h
  have hfs : ∀ {id space}, s.spaces id = some space → s.framesOf id = space.frames := by
    intro id space hs
    simp [framesOf, hs]
  refine ⟨fun id space hs => ?_, fun id id' space space' hs hs' hne => ?_, fun f hf => ?_,
    fun id id' addr size value r s' hne hw addr' size' => readMem_writeMem hi hne.symm hw⟩
  · rw [← hfs hs]
    exact ⟨hi.lt id, hi.nodup id⟩
  · rw [← hfs hs, ← hfs hs']
    exact hi.disjoint id id' hne
  · rw [hi.marked f hf]
    refine exists_congr fun id => ?_
    cases hs : s.spaces id with
    | none => simp [framesOf, hs]
    | some space => simp [hfs hs]

def boot : Memory where
  mainMemory _ := 0
  bitmap := ⟨NumPhysPages, fun _ => 0⟩
  spaces _ := none

/-- Address space 0 is created and forked. Its store to the first word of its memory does not
reach the first word of the copy. -/
theorem frames_disjoint_and_marked_fork :
    ∃ s r s', Reachable system s ∧ s.writeMem 0 0 .word 7 = some (r, s') ∧
      (s'.readMem 1 0 .word).map Prod.fst = some (some 0) := by
  have hs : (exec step boot [.create 0 (blank 0), .fork 0 1]).any (fun s =>
      (s.writeMem 0 0 .word 7).isSome &&
        (s.readMem 1 0 .word).map Prod.fst == some (some 0)) = true := by
    decide +kernel
  obtain ⟨s, hr, ht⟩ := run_of_any_exec hs
  have hr' : Reachable system s :=
    ⟨boot, _, ⟨rfl, fun i _ => by simp [boot, BitMap.test], fun _ => rfl⟩, hr⟩
  simp only [Bool.and_eq_true, beq_iff_eq] at ht
  obtain ⟨⟨r, s'⟩, hw⟩ := Option.isSome_iff_exists.mp ht.1
  exact ⟨s, r, s', hr', hw, ((frames_disjoint_and_marked hr').2.2.2 0 1 0 .word 7 r s' (by decide)
    hw 0 .word).trans ht.2⟩

end Userprog.Memory

end Nachos
