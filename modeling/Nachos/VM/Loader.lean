import Nachos.VM.Invariant
import Nachos.VM.NewPages
import Nachos.VM.ReadFile

/-! # Loading an executable

The constructor of `AddrSpace` takes zeroed swap pages, and `ReadFile` copies
the segments into them, page by page and never across the end of a page.
-/

namespace Nachos.VM

open Function Bytes State

variable {σ : Type} {s t u : State σ} {id n X : ℕ}

def State.swapByte (s : State σ) (id v : ℕ) : UInt8 :=
  s.swapFile (s.swapPage (entryPtr id v) * PageSize + v % PageSize)

def NoffFile.loadSegment (x : NoffFile) (f : ℕ → UInt8) (g : Segment) : ℕ → UInt8 :=
  if 0 < g.size then
    blit f g.virtualAddr.toNat g.size.toNat fun i => x.content (g.inFileAddr.toNat + i)
  else f

/-- The memory that a program starts with. -/
def NoffFile.image (x : NoffFile) : ℕ → UInt8 :=
  x.loadSegment (x.loadSegment (fun _ => 0) x.code) x.initData

def NoffFile.SegmentInside (x : NoffFile) (g : Segment) : Prop :=
  0 < g.size → 0 ≤ g.virtualAddr ∧ 0 ≤ g.inFileAddr ∧
    g.virtualAddr + g.size ≤ x.numPages * PageSize

def NoffFile.Inside (x : NoffFile) : Prop := x.SegmentInside x.code ∧ x.SegmentInside x.initData

instance (x : NoffFile) (g : Segment) : Decidable (x.SegmentInside g) :=
  inferInstanceAs (Decidable (_ → _))

instance (x : NoffFile) : Decidable x.Inside := inferInstanceAs (Decidable (_ ∧ _))

/-! ## Segments -/

def OwnPages (s : State σ) (id n : ℕ) : Prop :=
  ∀ v < n, ∀ w < n, s.swapPage ⟨id, v⟩ = s.swapPage ⟨id, w⟩ → v = w

/-- `ReadFile` copies the range of the file to the range of the address space, and writes to
no other page. -/
theorem exists_readFile {x : NoffFile} {turns vAddr size fileAddr copySize : ℕ}
    (hn : s.numPages id = some n) (hown : OwnPages s id n) (hin : vAddr + size ≤ n * PageSize)
    (hc : 0 < copySize) (hc' : copySize ≤ PageSize) (ht : size ≤ turns) :
    ∃ f b, s.readFile id x turns vAddr size fileAddr copySize =
        some { s with swapFile := f, diskBuffer := b } ∧
      (∀ v < n * PageSize, State.swapByte { s with swapFile := f, diskBuffer := b } id v =
        blit (s.swapByte id) vAddr size (fun i => x.content (fileAddr + i)) v) ∧
      ∀ X, (∀ v < n, s.swapPage ⟨id, v⟩ ≠ X) →
        block f PageSize X = block s.swapFile PageSize X := by
  have hpage : ∀ v < n * PageSize, v / PageSize < n := fun v hv =>
    Nat.div_lt_of_lt_mul (by rwa [Nat.mul_comm])
  have hinj : ∀ v < n * PageSize, ∀ w < n * PageSize, s.swapAddr id v = s.swapAddr id w → v = w :=
    fun v hv w hw he => swapAddr_inj he (hown _ (hpage v hv) _ (hpage w hw))
  obtain ⟨f, b, hread, -, hf⟩ := exists_scatter_readFile x fileAddr hn hin hc hc' ht
  refine ⟨f, b, hread, fun v hv => ?_, fun X hX => ?_⟩
  · change f (s.swapAddr id v) = _
    by_cases hrange : vAddr ≤ v ∧ v < vAddr + size
    · obtain ⟨i, rfl⟩ := Nat.exists_eq_add_of_le hrange.1
      rw [blit_add (by omega)]
      refine hf.value (fun i hi j hj b hb hb' => ?_) (by omega) rfl
      have heq := hinj (vAddr + i) (by omega) (vAddr + j) (by omega)
        (Option.some.inj (hb.trans hb'.symm))
      omega
    · have hother := hf.other (s.swapAddr id v) fun i hi he =>
        hrange (by have := hinj _ (by omega) _ hv (Option.some.inj he); omega)
      rcases Nat.lt_or_ge v vAddr with hlt | hge
      · rw [blit_of_lt hlt, hother]
        rfl
      · rw [blit_of_le (by omega), hother]
        rfl
  · funext j
    refine hf.other (X * PageSize + j) fun i hi he => hX _ (hpage (vAddr + i) (by omega)) ?_
    have hmod : (vAddr + i) % PageSize < PageSize := Nat.mod_lt _ (by decide)
    have hj := j.isLt
    have heq := Option.some.inj he
    unfold swapAddr entryPtr at heq
    generalize s.swapPage ⟨id, (vAddr + i) / PageSize⟩ = p at *
    unfold PageSize at *
    omega

theorem exists_readSegment {x : NoffFile} {g : Segment} (hg : x.SegmentInside g)
    (hn : s.numPages id = some x.numPages) (hown : OwnPages s id x.numPages) :
    ∃ f b, s.readSegment id x g = some { s with swapFile := f, diskBuffer := b } ∧
      (∀ v < x.numPages * PageSize, State.swapByte { s with swapFile := f, diskBuffer := b } id v =
        x.loadSegment (s.swapByte id) g v) ∧
      ∀ X, (∀ v < x.numPages, s.swapPage ⟨id, v⟩ ≠ X) →
        block f PageSize X = block s.swapFile PageSize X := by
  unfold readSegment NoffFile.loadSegment
  split
  case isFalse => exact ⟨s.swapFile, s.diskBuffer, rfl, fun _ _ => rfl, fun _ _ => rfl⟩
  case isTrue hpos =>
    obtain ⟨hv, hf, hin⟩ := hg hpos
    obtain ⟨virtualAddr, inFileAddr, size⟩ := g
    dsimp only at hpos hv hf hin ⊢
    obtain ⟨a, rfl⟩ := Int.eq_ofNat_of_zero_le hv
    obtain ⟨b, rfl⟩ := Int.eq_ofNat_of_zero_le hf
    obtain ⟨m, rfl⟩ := Int.eq_ofNat_of_zero_le (Int.le_of_lt hpos)
    exact exists_readFile hn hown (by exact_mod_cast hin) (by decide) (Nat.le_refl _)
      (Nat.le_refl _)

theorem loadSegment_congr {x : NoffFile} {g : Segment} {f f' : ℕ → UInt8} {v : ℕ}
    (h : f v = f' v) : x.loadSegment f g v = x.loadSegment f' g v := by
  unfold NoffFile.loadSegment
  split
  · exact blit_congr h
  · exact h

/-! ## The constructor -/

structure Created (s : State σ) (id : ℕ) (x : NoffFile) (t : State σ) : Prop where
  frames : SameFrames (s.setNumPages id x.numPages) t
  entry : ∀ v < x.numPages, t.pageTable ⟨id, v⟩ = newEntry v (t.swapPage ⟨id, v⟩)
  fresh : ∀ v < x.numPages, s.swapMap.test (t.swapPage ⟨id, v⟩) = false
  image : ∀ v < x.numPages * PageSize, t.swapByte id v = x.image v
  table : ∀ p, p.space ≠ id → t.pageTable p = s.pageTable p
  kept : ∀ X, s.swapMap.test X = true → block t.swapFile PageSize X = block s.swapFile PageSize X

theorem created_of_allocPages {x : NoffFile} (h : Inv s.Live s) (hx : x.Inside)
    (hid : s.numPages id = none)
    (hu : (s.setNumPages id x.numPages).allocPages id x.numPages = some u) :
    ∃ f b, (u.readSegment id x x.code).bind (·.readSegment id x x.initData) =
        some { u with swapFile := f, diskBuffer := b } ∧
      Created s id x { u with swapFile := f, diskBuffer := b } := by
  have hfill := filled_of_allocPages hu
  have hsame := allocPages_sameFrames hu
  have hn : u.numPages id = some x.numPages := by rw [hsame.numPages]; simp [setNumPages]
  have h' : Inv s.Live (s.setNumPages id x.numPages) := h.of_memories
  have hinv := h'.allocPages (fun p hp => space_ne_of_live hid hp) hu
  have hown : OwnPages u id x.numPages := fun v hv w hw he => by
    have := hinv.owns.inj ⟨id, v⟩ ⟨id, w⟩ (.inr ⟨rfl, hv⟩) (.inr ⟨rfl, hw⟩) he
    simpa using this
  obtain ⟨f₁, b₁, hf₁, hbytes₁, hother₁⟩ := exists_readSegment hx.1 hn hown
  obtain ⟨f₂, b₂, hf₂, hbytes₂, hother₂⟩ :=
    exists_readSegment (s := { u with swapFile := f₁, diskBuffer := b₁ }) hx.2 hn hown
  have hzero : ∀ v < x.numPages * PageSize, u.swapByte id v = 0 := by
    intro v hv
    have hvn : v / PageSize < x.numPages := Nat.div_lt_of_lt_mul (by rwa [Nat.mul_comm])
    exact congrFun (hfill.filled _ hvn) ⟨v % PageSize, Nat.mod_lt _ (by decide)⟩
  have hkept : ∀ X, s.swapMap.test X = true → ∀ v < x.numPages, u.swapPage ⟨id, v⟩ ≠ X := by
    rintro X hX v hv rfl
    have hfresh : s.swapMap.test (u.swapPage ⟨id, v⟩) = false := hfill.fresh hv
    rw [hX] at hfresh
    cases hfresh
  refine ⟨f₂, b₂, by rw [hf₁]; exact hf₂, ?_⟩
  constructor
  · obtain ⟨h₁, h₂, h₃, h₄, h₅, h₆⟩ := hsame
    exact ⟨h₁, h₂, h₃, h₄, h₅, h₆⟩
  · exact hfill.entry
  · exact fun v hv => hfill.fresh hv
  · intro v hv
    refine (hbytes₂ v hv).trans (loadSegment_congr ((hbytes₁ v hv).trans (loadSegment_congr ?_)))
    exact hzero v hv
  · exact hfill.table
  · intro X hX
    refine (hother₂ X (hkept X hX)).trans ((hother₁ X (hkept X hX)).trans ?_)
    exact (hfill.kept X hX).2

theorem created_of_create {x : NoffFile} (h : Inv s.Live s) (hx : x.Inside)
    (hs : s.create id x = some t) : s.numPages id = none ∧ Created s id x t := by
  obtain ⟨⟨hid, -⟩, u, v, hu, hv, ht⟩ := create_eq_some hs
  obtain ⟨f, b, hf, hcreated⟩ := created_of_allocPages h hx hid hu
  rw [hv, Option.bind_some, ht] at hf
  obtain rfl := Option.some.inj hf
  exact ⟨hid, hcreated⟩

/-- There are clear pages enough, so the address space is created. -/
theorem exists_create {x : NoffFile} (h : Inv s.Live s) (hx : x.Inside) (hid : s.numPages id = none)
    (hm : x.noffMagic = NOFFMAGIC) (hn : x.numPages ≤ s.swapMap.numClear) :
    ∃ t, s.create id x = some t := by
  obtain ⟨u, hu⟩ : ∃ u, (s.setNumPages id x.numPages).allocPages id x.numPages = some u :=
    exists_allocPages hn
  obtain ⟨f, b, hf, -⟩ := created_of_allocPages h hx hid hu
  exact ⟨_, by simpa [create, hid, hm, hn, hu] using hf⟩

theorem Created.contents_new {x : NoffFile} {v : ℕ} {i : Fin PageSize} (hc : Created s id x t)
    (h : Inv s.Live s) (hv : v < x.numPages) :
    t.contents (t.swapPage ⟨id, v⟩) i = x.image (v * PageSize + i) := by
  have habs : t.frameOf (t.swapPage ⟨id, v⟩) = none :=
    (frameOf_congr hc.frames.activePageMap).trans (h.absent_of_clear (hc.fresh v hv))
  rw [contents_of_absent habs, ← hc.image _ (mul_add_lt hv i.isLt)]
  have hdiv : (v * PageSize + i) / PageSize = v := by
    rw [Nat.mul_comm, Nat.mul_add_div (by decide), Nat.div_eq_of_lt i.isLt, Nat.add_zero]
  have hmod : (v * PageSize + i) % PageSize = i := by
    rw [Nat.mul_comm, Nat.mul_add_mod, Nat.mod_eq_of_lt i.isLt]
  simp [swapByte, entryPtr, hdiv, hmod, block]

theorem Created.contents_kept {x : NoffFile} {p : EntryPtr} (hc : Created s id x t)
    (h : Inv s.Live s) (hid : s.numPages id = none) (hp : s.Live p) :
    t.contents (t.swapPage p) = s.contents (s.swapPage p) := by
  have hpage : t.swapPage p = s.swapPage p :=
    congrArg TranslationEntry.physicalPage (hc.table p (space_ne_of_live hid hp))
  rw [hpage]
  funext i
  exact contents_congr hc.frames.activePageMap (fun q _ => by rw [hc.frames.mainMemory]; rfl)
    (congrFun (hc.kept _ (h.owns.marked p hp).2) i)

end Nachos.VM
