import Nachos.Library.Scatter
import Nachos.VM.Ownership

/-! # `ReadFile` with virtual memory

The loop cuts its copies at the ends of pages. The size of a copy is kept for
the next turn, so after a short copy at the start of a range the pages may be
filled in more than one turn.
-/

namespace Nachos.VM

open Bytes State

variable {σ : Type} {s : State σ} {x : NoffFile} {id n vAddr size fileAddr copySize turns : ℕ}

/-- The place of a virtual address in the swap file. -/
def State.swapAddr (s : State σ) (id v : ℕ) : ℕ :=
  s.swapPage (entryPtr id v) * PageSize + v % PageSize

/-- The bytes that one turn of `ReadFile` copies. -/
def chunk (size copySize vAddr : ℕ) : ℕ :=
  let copySize := if size < PageSize then size else copySize
  if PageSize ≤ copySize + vAddr % PageSize then PageSize - vAddr % PageSize else copySize

theorem chunk_bounds {size copySize : ℕ} (vAddr : ℕ) (hs : 0 < size) (hc : 0 < copySize)
    (hc' : copySize ≤ PageSize) : 0 < chunk size copySize vAddr ∧
    chunk size copySize vAddr ≤ size ∧ vAddr % PageSize + chunk size copySize vAddr ≤ PageSize := by
  unfold chunk
  unfold PageSize at *
  dsimp only
  split <;> split <;> omega

theorem readFile_succ {x : NoffFile} {turns vAddr size fileAddr copySize : ℕ} (hs : 0 < size)
    (hlive : s.Live (entryPtr id vAddr)) :
    s.readFile id x (turns + 1) vAddr size fileAddr copySize =
      State.readFile id x turns (vAddr + chunk size copySize vAddr : ℕ)
        ((size : ℤ) - chunk size copySize vAddr) (fileAddr + chunk size copySize vAddr : ℕ)
        (chunk size copySize vAddr)
        { s with
          diskBuffer := blit s.diskBuffer 0 (chunk size copySize vAddr)
            fun i => x.content (fileAddr + i)
          swapFile := blit s.swapFile
            (s.swapPage (entryPtr id vAddr) * PageSize + vAddr % PageSize)
            (chunk size copySize vAddr) fun i => x.content (fileAddr + i) } := by
  have hentry : s.entryAt ⟨id, vAddr / PageSize⟩ = some (s.pageTable (entryPtr id vAddr)) :=
    entryAt_of_live hlive
  have hoff : (vAddr : ℤ).tmod PageSize = (vAddr % PageSize : ℕ) := (Int.ofNat_tmod _ _).symm
  have hpage : (vAddr : ℤ).tdiv PageSize = (vAddr / PageSize : ℕ) := (Int.ofNat_tdiv _ _).symm
  have hlt : vAddr % PageSize < PageSize := Nat.mod_lt _ (by decide)
  have hchunk : (if (PageSize : ℤ) ≤ (if (size : ℤ) < PageSize then (size : ℤ) else copySize) +
      (vAddr % PageSize : ℕ) then (PageSize : ℤ) - (vAddr % PageSize : ℕ)
      else if (size : ℤ) < PageSize then (size : ℤ) else copySize) =
        (chunk size copySize vAddr : ℕ) := by
    unfold chunk
    dsimp only
    split_ifs <;> omega
  have hposition : ((s.pageTable (entryPtr id vAddr)).physicalPage : ℤ) * PageSize +
      (vAddr % PageSize : ℕ) =
        (s.swapPage (entryPtr id vAddr) * PageSize + vAddr % PageSize : ℕ) := by
    simp [swapPage]
  have hneg : ∀ m : ℕ, ¬ (m : ℤ) < 0 := fun m => by omega
  rw [readFile, if_pos (by exact_mod_cast hs)]
  simp only [hoff, hpage, hchunk, hentry, Int.toNat_natCast, Option.bind_eq_bind, Option.bind_some,
    hposition, hneg, or_self, if_false]
  rw [Int.natCast_add, Int.natCast_add]

/-! ## Transfers -/

/-- A call of `writePage`, with the part of the file that it writes. -/
structure Transfer where
  vAddr : ℕ
  fileAddr : ℕ
  size : ℕ
  deriving DecidableEq

/-- The calls of `writePage` in the turns of the loop. -/
def transfers : ℕ → (vAddr size fileAddr copySize : ℕ) → List Transfer
  | 0, _, _, _, _ => []
  | turns + 1, vAddr, size, fileAddr, copySize =>
    if 0 < size then
      let c := chunk size copySize vAddr
      ⟨vAddr, fileAddr, c⟩ :: transfers turns (vAddr + c) (size - c) (fileAddr + c) c
    else []

/-- `VMManager::writePage` with bytes of the file, which have been read into `diskBuffer`. -/
def State.writePage (id : ℕ) (x : NoffFile) (s : State σ) (w : Transfer) : State σ :=
  { s with
    diskBuffer := blit s.diskBuffer 0 w.size fun i => x.content (w.fileAddr + i)
    swapFile := blit s.swapFile (s.swapAddr id w.vAddr) w.size fun i => x.content (w.fileAddr + i) }

theorem swapFile_writePage {w : Transfer} : (s.writePage id x w).swapFile =
    blit s.swapFile (s.swapAddr id w.vAddr) w.size fun i => x.content (w.fileAddr + i) := rfl

theorem swapAddr_writePage {w : Transfer} {v : ℕ} :
    (s.writePage id x w).swapAddr id v = s.swapAddr id v := rfl

theorem transfer_inside (hc : 0 < copySize) (hc' : copySize ≤ PageSize) {w : Transfer}
    (hw : w ∈ transfers turns vAddr size fileAddr copySize) :
    w.size ≤ PageSize ∧ w.vAddr % PageSize + w.size ≤ PageSize := by
  induction turns generalizing vAddr size fileAddr copySize with
  | zero => cases hw
  | succ turns ih =>
    rw [transfers] at hw
    split at hw
    case isTrue hs =>
      obtain ⟨h₁, -, h₃⟩ := chunk_bounds vAddr hs hc hc'
      rcases List.mem_cons.mp hw with rfl | hw
      · exact ⟨by dsimp only; omega, h₃⟩
      · exact ih h₁ (by omega) hw
    case isFalse => cases hw

theorem readFile_eq_transfers (hn : s.numPages id = some n) (hin : vAddr + size ≤ n * PageSize)
    (hc : 0 < copySize) (hc' : copySize ≤ PageSize) (ht : size ≤ turns) :
    s.readFile id x turns vAddr size fileAddr copySize =
      some ((transfers turns vAddr size fileAddr copySize).foldl (State.writePage id x) s) := by
  induction turns generalizing s vAddr size fileAddr copySize with
  | zero =>
    obtain rfl : size = 0 := by omega
    rfl
  | succ turns ih =>
    rcases Nat.eq_zero_or_pos size with rfl | hs
    · simp [readFile, transfers]
    · have hpage : vAddr / PageSize < n := Nat.div_lt_of_lt_mul (by rw [Nat.mul_comm]; omega)
      obtain ⟨h₁, h₂, h₃⟩ := chunk_bounds vAddr hs hc hc'
      rw [readFile_succ hs ⟨n, hn, hpage⟩, transfers, if_pos hs, ← Int.ofNat_sub h₂]
      exact ih hn (by omega) h₁ (by omega) (by omega)

/-! ## What the loop writes -/

theorem swapAddr_add {i : ℕ} (h : vAddr % PageSize + i < PageSize) :
    s.swapAddr id (vAddr + i) = s.swapAddr id vAddr + i := by
  obtain ⟨hd, hm⟩ := div_mod_add h
  rw [swapAddr, swapAddr, entryPtr, entryPtr, hd, hm, Nat.add_assoc]

theorem scatter_writePage {w : Transfer} (h : w.vAddr % PageSize + w.size ≤ PageSize) :
    Scatter (fun i => some (s.swapAddr id (w.vAddr + i))) w.size
      (fun i => x.content (w.fileAddr + i)) s.swapFile (s.writePage id x w).swapFile where
  other b hb := by
    have hno : ∀ i < w.size, s.swapAddr id w.vAddr + i ≠ b := fun i hi he =>
      hb i hi (by rw [swapAddr_add (by omega), he])
    rw [swapFile_writePage]
    rcases Nat.lt_or_ge b (s.swapAddr id w.vAddr) with hlt | hge
    · exact blit_of_lt hlt
    · refine blit_of_le (Nat.le_of_not_lt fun hlt => hno (b - s.swapAddr id w.vAddr) ?_ ?_)
      · omega
      · omega
  last i hi b hb _ := by
    rw [swapAddr_add (by omega)] at hb
    obtain rfl := Option.some.inj hb
    rw [swapFile_writePage, blit_add hi]

theorem scatter_transfers (hc : 0 < copySize) (hc' : copySize ≤ PageSize) (ht : size ≤ turns) :
    Scatter (fun i => some (s.swapAddr id (vAddr + i))) size (fun i => x.content (fileAddr + i))
      s.swapFile
      ((transfers turns vAddr size fileAddr copySize).foldl (State.writePage id x) s).swapFile := by
  induction turns generalizing s vAddr size fileAddr copySize with
  | zero =>
    obtain rfl : size = 0 := by omega
    exact .zero
  | succ turns ih =>
    rw [transfers]
    split
    case isTrue hs =>
      obtain ⟨h₁, h₂, h₃⟩ := chunk_bounds vAddr hs hc hc'
      rw [List.foldl_cons]
      generalize chunk size copySize vAddr = c at h₁ h₂ h₃ ⊢
      have hfirst : Scatter (fun i => some (s.swapAddr id (vAddr + i))) c
          (fun i => x.content (fileAddr + i)) s.swapFile
          (s.writePage id x ⟨vAddr, fileAddr, c⟩).swapFile :=
        scatter_writePage (w := ⟨vAddr, fileAddr, c⟩) h₃
      have hrest : Scatter
          (fun i => some ((s.writePage id x ⟨vAddr, fileAddr, c⟩).swapAddr id (vAddr + c + i)))
          (size - c) (fun i => x.content (fileAddr + c + i))
          (s.writePage id x ⟨vAddr, fileAddr, c⟩).swapFile
          ((transfers turns (vAddr + c) (size - c) (fileAddr + c) c).foldl (State.writePage id x)
            (s.writePage id x ⟨vAddr, fileAddr, c⟩)).swapFile :=
        ih h₁ (by omega) (by omega)
      simp only [swapAddr_writePage, Nat.add_assoc] at hrest
      have hadd := hfirst.add hrest
      rwa [Nat.add_sub_cancel' h₂] at hadd
    case isFalse hs =>
      obtain rfl : size = 0 := by omega
      exact .zero

theorem foldl_writePage (ws : List Transfer) :
    ws.foldl (State.writePage id x) s = { s with
      swapFile := (ws.foldl (State.writePage id x) s).swapFile
      diskBuffer := (ws.foldl (State.writePage id x) s).diskBuffer } := by
  induction ws generalizing s with
  | nil => rfl
  | cons w ws ih =>
    rw [List.foldl_cons, ih]
    rfl

/-- The loop writes the range of the file to the range of the address space, and nothing else. -/
theorem exists_scatter_readFile (x : NoffFile) (fileAddr : ℕ) (hn : s.numPages id = some n)
    (hin : vAddr + size ≤ n * PageSize) (hc : 0 < copySize) (hc' : copySize ≤ PageSize)
    (ht : size ≤ turns) :
    ∃ f b, s.readFile id x turns vAddr size fileAddr copySize =
        some { s with swapFile := f, diskBuffer := b } ∧
      { s with swapFile := f, diskBuffer := b } =
        (transfers turns vAddr size fileAddr copySize).foldl (State.writePage id x) s ∧
      Scatter (fun i => some (s.swapAddr id (vAddr + i))) size (fun i => x.content (fileAddr + i))
        s.swapFile f := by
  refine ⟨_, _, ?_, (foldl_writePage _).symm, scatter_transfers hc hc' ht⟩
  rw [readFile_eq_transfers hn hin hc hc' ht, ← foldl_writePage]

theorem swapAddr_inj {v w : ℕ} (h : s.swapAddr id v = s.swapAddr id w)
    (hown : s.swapPage (entryPtr id v) = s.swapPage (entryPtr id w) →
      v / PageSize = w / PageSize) : v = w := by
  have hv : v % PageSize < PageSize := Nat.mod_lt _ (by decide)
  have hw : w % PageSize < PageSize := Nat.mod_lt _ (by decide)
  unfold swapAddr at h
  generalize s.swapPage (entryPtr id v) = p at *
  generalize s.swapPage (entryPtr id w) = q at *
  unfold PageSize at *
  have := hown (by omega)
  omega

/-- `ReadFile` comes to its end, writes each byte of a range of the file to the place of its virtual
address and no other byte of the swap file, if no two pages of the range have the same swap page. No
call of `writePage` in it writes more than a page, or over the end of one. -/
theorem readFile_loads (s : State σ) (id n : ℕ) (hn : s.numPages id = some n) (x : NoffFile)
    (vAddr size fileAddr : ℕ) (hin : vAddr + size ≤ n * PageSize)
    (hown : ∀ i < size, ∀ j < size,
      s.swapPage (entryPtr id (vAddr + i)) = s.swapPage (entryPtr id (vAddr + j)) →
        (vAddr + i) / PageSize = (vAddr + j) / PageSize) :
    ∃ f b, s.readFile id x size vAddr size fileAddr PageSize =
        some { s with swapFile := f, diskBuffer := b } ∧
      (∀ i < size, f (s.swapAddr id (vAddr + i)) = x.content (fileAddr + i)) ∧
      (∀ a, (∀ i < size, s.swapAddr id (vAddr + i) ≠ a) → f a = s.swapFile a) ∧
      { s with swapFile := f, diskBuffer := b } =
        (transfers size vAddr size fileAddr PageSize).foldl (State.writePage id x) s ∧
      ∀ w ∈ transfers size vAddr size fileAddr PageSize,
        w.size ≤ PageSize ∧ w.vAddr % PageSize + w.size ≤ PageSize := by
  have hP : 0 < PageSize := by decide
  obtain ⟨f, b, hread, htransfers, hf⟩ :=
    exists_scatter_readFile x fileAddr hn hin hP le_rfl (le_refl size)
  refine ⟨f, b, hread, fun i hi => ?_, fun a ha => ?_, htransfers, fun w hw => ?_⟩
  · refine hf.value (fun i hi j hj b hb hb' => ?_) hi rfl
    have heq := swapAddr_inj (Option.some.inj (hb.trans hb'.symm)) (hown i hi j hj)
    omega
  · exact hf.other a fun i hi he => ha i hi (Option.some.inj he)
  · exact transfer_inside hP le_rfl hw

/-- A state with an address space of two pages. -/
def twoPages (swapPage : ℕ → ℕ) : State Unit where
  mainMemory _ := 0
  swapFile _ := 0
  diskBuffer _ := 0
  swapMap := ⟨SwapSize, fun _ => 0⟩
  memMap := ⟨NumPhysPages, fun _ => 0⟩
  activePageMap _ := none
  activePages _ := none
  policy := ()
  numPages id := if id = 0 then some 2 else none
  pageTable p := newEntry p.page (swapPage p.page)

/-- A file with a one behind the first 128 bytes. -/
def oneInSecondPage : NoffFile :=
  ⟨NOFFMAGIC, ⟨0, 0, 0⟩, ⟨0, 0, 0⟩, ⟨0, 0, 0⟩, fun i => if i = 128 then 1 else 0⟩

/-- A range from the first page to the second one, with two calls of `writePage`. -/
theorem readFile_loads_twoPages :
    transfers 150 100 150 0 PageSize = [⟨100, 0, 28⟩, ⟨128, 28, 122⟩] ∧
    ∃ f b, (twoPages (7 - ·)).readFile 0 oneInSecondPage 150 100 150 0 PageSize =
        some { twoPages (7 - ·) with swapFile := f, diskBuffer := b } ∧
      f (6 * PageSize + 100) = 1 := by
  have hown : ∀ i < 150, ∀ j < 150, (twoPages (7 - ·)).swapPage (entryPtr 0 (100 + i)) =
      (twoPages (7 - ·)).swapPage (entryPtr 0 (100 + j)) →
        (100 + i) / PageSize = (100 + j) / PageSize := by
    intro i hi j hj he
    change 7 - (100 + i) / 128 = 7 - (100 + j) / 128 at he
    change (100 + i) / 128 = (100 + j) / 128
    omega
  obtain ⟨f, b, hread, hbytes, -⟩ := readFile_loads (twoPages (7 - ·)) 0 2 rfl oneInSecondPage 100
    150 0 (by decide) hown
  exact ⟨by decide, f, b, hread, hbytes 128 (by decide)⟩

/-- Two pages with the same swap page: what was loaded to the first one is lost. -/
theorem exists_not_loaded :
    ∃ t, (twoPages fun _ => 7).readFile 0 oneInSecondPage 256 0 256 0 PageSize = some t ∧
      t.swapFile ((twoPages fun _ => 7).swapAddr 0 (0 + 0)) ≠ oneInSecondPage.content (0 + 0) := by
  have hn : (twoPages fun _ => 7).numPages 0 = some 2 := rfl
  have hin : 0 + 256 ≤ 2 * PageSize := by decide
  obtain ⟨f, b, hread, -, hf⟩ := exists_scatter_readFile oneInSecondPage 0 hn hin
    (show 0 < PageSize by decide) le_rfl (le_refl 256)
  refine ⟨_, hread, ?_⟩
  have hone : f (7 * PageSize) = 1 := by
    refine hf.last 128 (by decide) _ rfl fun j hj hj' he => ?_
    have hplace := Option.some.inj he
    change 7 * 128 + (0 + j) % 128 = 7 * 128 at hplace
    omega
  change f (7 * PageSize) ≠ 0
  rw [hone]
  decide

end Nachos.VM
