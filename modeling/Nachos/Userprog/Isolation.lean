import Mathlib.Algebra.Order.Ring.Int
import Mathlib.Data.Finset.Card
import Mathlib.Data.Int.Interval
import Nachos.Userprog.Levels
import Nachos.Userprog.Ranges

/-! # What `Read` writes

`putMemIntoVAddr` translates the first address of a copy only. The loop for
files cuts its copies at the ends of pages, so each byte goes where its own
address is translated to; the console copies everything at once, and one byte
more than it has read. `AddrSpace::Translate` also accepts negative addresses
of less than a page and puts them in front of the first frame.
-/

namespace Nachos.Userprog

open Function Command VM Words

variable {φ : Type} {space : AddrSpace} {v vAddr size a pAddr : ℤ} {n : ℕ}

/-! ## Isolation -/

namespace AddrSpace

variable {m m₁ m' : ℤ → UInt8} {data data' : List UInt8}

/-- Between two contents of the memory the frames of other address spaces are the same, and of the
bytes of this one only some from `vAddr` on are not. -/
structure Isolated (space : AddrSpace) (m m' : ℤ → UInt8) (vAddr count : ℤ) : Prop where
  frames : ∀ f < NumPhysPages, f ∉ space.frames → ∀ j < PageSize,
    m' (f * PageSize + j : ℕ) = m (f * PageSize + j : ℕ)
  bytes : ∀ (w : ℕ) a, space.translate w = some a → ¬ (vAddr ≤ w ∧ w < vAddr + count) →
    m' a = m a

theorem Isolated.refl {count : ℤ} : space.Isolated m m vAddr count :=
  ⟨fun _ _ _ _ _ => rfl, fun _ _ _ _ => rfl⟩

/-- The range is in the address space. A negative start is in front of the first frame, which may
be a frame of the address space whose bytes are in the range themselves. -/
def RangeFits (space : AddrSpace) (vAddr : ℤ) (n : ℕ) : Prop :=
  n = 0 ∨ vAddr + n ≤ space.frames.length * 128 ∧
    (0 ≤ vAddr ∨ -128 < vAddr ∧ ∃ j f : ℕ, space.frames[j]? = some f ∧
      space.frames[0]? = some (f + 1) ∧ (j + 1) * 128 ≤ vAddr + n)

section Frames

variable {count : ℤ} {w w' : ℕ}

theorem backed_of_rangeFits (hframes : ∀ f ∈ space.frames, f < NumPhysPages)
    (h : space.RangeFits vAddr n) : space.Backed vAddr n := by
  intro i hi
  have hM : (MemorySize : ℤ) = 32 * 128 := rfl
  obtain h0 | ⟨hle, hstart⟩ := h
  · omega
  · by_cases hnn : 0 ≤ vAddr + i
    · obtain ⟨f, hf, htr⟩ := exists_translate space hnn (by omega)
      have : f < 32 := hframes f hf
      exact ⟨_, htr, by omega, by omega⟩
    · obtain h0 | ⟨hgt, j, f, hj, hf, hend⟩ := hstart
      · omega
      · have : f + 1 < 32 := hframes _ (List.mem_of_getElem? hf)
        exact ⟨_, (translate_of_neg (by omega)).mpr ⟨by omega, _, hf, rfl⟩, by omega, by omega⟩

theorem length_frames_le (hnd : space.frames.Nodup)
    (hframes : ∀ f ∈ space.frames, f < NumPhysPages) : space.frames.length ≤ 32 := by
  have hsub : space.frames ⊆ List.range 32 := fun f hf => List.mem_range.mpr (hframes f hf)
  simpa using (hnd.subperm hsub).length_le

end Frames

end AddrSpace

namespace Sys

open AddrSpace

variable {s s' : Sys φ} {buffer : ℕ → UInt8} {m m' : ℤ → UInt8} {b b' : ℕ → UInt8}

/-- The state with other bytes in the memory and in `diskBuffer`. -/
def withData (s : Sys φ) (mainMemory : ℤ → UInt8) (diskBuffer : ℕ → UInt8) : Sys φ :=
  { s with memory := { s.memory with mainMemory := mainMemory }, diskBuffer := diskBuffer }

@[simp] theorem withData_withData : (s.withData m b).withData m' b' = s.withData m' b' := rfl

theorem run_translate (hspace : s.memory.spaces s.current = some space) :
    (translate vAddr).run s = (space.translate vAddr).map (·, s) := by
  simp [translate, hspace]

theorem run_putMem {length : ℕ} (hspace : s.memory.spaces s.current = some space)
    (hsize : size ≠ 0) : (putMemIntoVAddr buffer length vAddr size).run s = some ((), s') ↔
      ∃ pAddr, space.translate vAddr = some pAddr ∧
        (0 < size ∧ size ≤ length ∧ 0 ≤ pAddr ∧ pAddr + size ≤ MemorySize) ∧
        s' = s.withData (copyTo pAddr size.toNat buffer s.memory.mainMemory) s.diskBuffer := by
  unfold putMemIntoVAddr
  rw [if_neg hsize, run_bind_eq_some]
  constructor
  · rintro ⟨pAddr, s₁, h₁, h⟩
    rw [run_translate hspace] at h₁
    obtain ⟨p, htr, he⟩ := Option.map_eq_some_iff.mp h₁
    obtain ⟨rfl, rfl⟩ := Prod.mk.inj he
    split at h
    · rename_i hc
      exact ⟨p, htr, hc, (Prod.mk.inj (Option.some.inj h)).2.symm⟩
    · cases h
  · rintro ⟨p, htr, hc, rfl⟩
    refine ⟨p, s, by rw [run_translate hspace, htr]; rfl, ?_⟩
    rw [if_pos hc]
    rfl

theorem copySize_spec (vAddr : ℤ) (hsize : 0 < size) :
    0 < copySize vAddr size ∧ copySize vAddr size ≤ size ∧ copySize vAddr size ≤ 128 ∧
      vAddr.tmod PageSize + copySize vAddr size ≤ 128 := by
  have hlt : vAddr.tmod PageSize < 128 := Int.tmod_lt_of_pos _ (by decide)
  have hP : (PageSize : ℤ) = 128 := rfl
  unfold copySize
  by_cases hs : size < PageSize
  · simp only [if_pos hs]
    split <;> omega
  · simp only [if_neg hs]
    split <;> omega

theorem exists_putMem {data : List UInt8} (hspace : s.memory.spaces s.current = some space)
    (hlen : data.length ≤ 128) (hpage : vAddr.tmod PageSize + data.length ≤ 128)
    (hb : space.Backed vAddr data.length) :
    ∃ m', (putMemIntoVAddr (fun i => data.getD i 0) PageSize vAddr data.length).run s =
        some ((), s.withData m' s.diskBuffer) ∧
      space.Written vAddr data s.memory.mainMemory m' := by
  rcases eq_or_ne data [] with rfl | hne
  · exact ⟨s.memory.mainMemory, rfl, .nil⟩
  · have hpos : 0 < data.length := List.length_pos_iff.mpr hne
    obtain ⟨pAddr, htr, -⟩ := hb 0 hpos
    rw [Nat.cast_zero, add_zero] at htr
    obtain h0 | ⟨hp, hm⟩ := (backed_of_translate htr hpage).mp hb
    · omega
    · have hlen' : (data.length : ℤ) ≤ PageSize := by exact_mod_cast hlen
      exact ⟨_, (run_putMem hspace (by omega)).mpr ⟨pAddr, htr, ⟨by omega, hlen', hp, hm⟩, rfl⟩,
        .copyTo htr hpage⟩

def available (content : φ → List UInt8) (f : φ) (pos size : ℤ) : List UInt8 :=
  if pos < 0 then [] else ((content f).drop pos.toNat).take size.toNat

/-- The files and the console have some bytes, and no other thread runs. At a negative position
`Lseek` fails an assertion; here nothing is read from there on, which leaves the memory as it is
at the assertion. -/
def quietEnv (content : φ → List UInt8) (input : ℕ → UInt8) : Env φ where
  fileOpen _ s := some (none, s)
  fileCreate _ s := some ((), s)
  readAt f numBytes position s := some (available content f position numBytes, s)
  writeAt _ _ _ s := some ((), s)
  noff _ := blank 0
  getchar _ _ := input
  swap _ s := some ((), s)
  others s := some ((), s)

section Loop

variable {content : φ → List UInt8} {input : ℕ → UInt8} {file : UserOpenFile} {f : φ}
  {pos tot r : ℤ} {turns : ℕ}

theorem available_of_nonneg (hpos : 0 ≤ pos) :
    available content f pos size = ((content f).drop pos.toNat).take size.toNat :=
  if_neg (by omega)

theorem available_of_neg (hpos : pos < 0) : available content f pos size = [] := if_pos hpos

theorem available_of_le (h : size ≤ 0) : available content f pos size = [] := by
  unfold available
  split
  · rfl
  · rw [show size.toNat = 0 by omega, List.take_zero]

theorem available_of_length_le (h : (content f).length ≤ pos) :
    available content f pos size = [] := by
  rw [available_of_nonneg (by omega), List.drop_eq_nil_of_le (by omega), List.take_nil]

theorem length_le_of_available (hpos : 0 ≤ pos) (hsize : 0 < size)
    (h : available content f pos size = []) : (content f).length ≤ pos := by
  rw [available_of_nonneg hpos, List.take_eq_nil_iff, List.drop_eq_nil_iff] at h
  omega

theorem available_split {k : ℤ} (hpos : 0 ≤ pos) (hk : 0 ≤ k) (hle : k ≤ size) :
    available content f pos size =
      available content f pos k ++ available content f (pos + k) (size - k) := by
  rw [available_of_nonneg hpos, available_of_nonneg hpos, available_of_nonneg (by omega),
    show size.toNat = k.toNat + (size - k).toNat by omega, List.take_add, List.drop_drop,
    show pos.toNat + k.toNat = (pos + k).toNat by omega]

theorem length_available_or (content : φ → List UInt8) (f : φ) (size : ℤ) {k : ℤ} (hpos : 0 ≤ pos)
    (hk : 0 ≤ k) :
    ((available content f pos k).length : ℤ) = k ∨
      available content f (pos + k) (size - k) = [] := by
  rw [available_of_nonneg hpos, available_of_nonneg (by omega), List.length_take,
    List.length_drop, List.take_eq_nil_iff, List.drop_eq_nil_iff]
  omega

theorem length_available_le (content : φ → List UInt8) (f : φ) (pos : ℤ) {k : ℤ} (hk : 0 ≤ k) :
    ((available content f pos k).length : ℤ) ≤ k := by
  unfold available
  split
  · simpa using hk
  · rw [List.length_take]
    omega

theorem run_readLoop_of_le {E : Env φ} (h : size ≤ 0) :
    (readLoop E file turns vAddr size pos tot).run s = some (tot, s) := by
  cases turns <;> simp [readLoop, not_lt.mpr h]

theorem run_openFile (hopen : s.files.openFile file = some f) :
    (openFile file).run s = some (f, s) := by
  simp [openFile, hopen]

theorem run_readLoop_succ {E : Env φ} {data : List UInt8} (hsize : 0 < size)
    (hopen : s.files.openFile file = some f)
    (hread : E.readAt f (copySize vAddr size) pos s = some (data, s)) :
    (readLoop E file (turns + 1) vAddr size pos tot).run s =
      ((putMemIntoVAddr (fun i => data.getD i 0) PageSize vAddr data.length).run
        (s.withData s.memory.mainMemory fun i => data.getD i 0)).bind fun p =>
          (readLoop E file turns (addInt vAddr (copySize vAddr size))
            (size - copySize vAddr size) (addInt pos (copySize vAddr size))
            (tot + data.length)).run p.2 := by
  have hext : (external (E.readAt f (copySize vAddr size) pos)).run s = some (data, s) :=
    congrArg (Option.map _) hread
  rw [readLoop, if_pos hsize]
  simp only [StateT.run_bind, run_openFile hopen, hext, Option.bind_eq_bind, Option.bind_some,
    StateT.run_modify, Option.pure_def]
  rfl

/-- Behind the end of the file the loop copies nothing, at whatever address and position it goes
on. -/
theorem run_readLoop_of_behind (input : ℕ → UInt8) (turns : ℕ) :
    ∀ (s : Sys φ) (vAddr size pos tot : ℤ), size.toNat ≤ turns → IsInt size → IsInt pos →
      s.files.openFile file = some f → (0 ≤ pos → (content f).length ≤ pos) →
      (pos < 0 → pos + size < 0) →
      ∃ b, (readLoop (quietEnv content input) file turns vAddr size pos tot).run s =
        some (tot, s.withData s.memory.mainMemory b) := by
  induction turns with
  | zero =>
    intro s vAddr size pos tot ht _ _ _ _ _
    exact ⟨s.diskBuffer, run_readLoop_of_le (by omega)⟩
  | succ turns ih =>
    intro s vAddr size pos tot ht hint hpos hopen hbehind hneg
    rcases le_or_gt size 0 with hle | hsize
    · exact ⟨s.diskBuffer, run_readLoop_of_le hle⟩
    · obtain ⟨hn, hle, hn128, -⟩ := copySize_spec vAddr hsize
      obtain ⟨hp₁, hp₂⟩ := hpos
      obtain ⟨-, hs₂⟩ := hint
      have hnil : available content f pos (copySize vAddr size) = [] := by
        rcases lt_or_ge pos 0 with h | h
        · exact available_of_neg h
        · exact available_of_length_le (hbehind h)
      rw [run_readLoop_succ hsize hopen (congrArg (fun l => some (l, s)) hnil)]
      generalize copySize vAddr size = n at *
      have hnext : (0 ≤ addInt pos n → (content f).length ≤ addInt pos n) ∧
          (addInt pos n < 0 → addInt pos n + (size - n) < 0) := by
        rcases lt_or_ge (pos + n) (2 ^ 31) with h | h
        · rw [addInt_eq ⟨by omega, h⟩]
          omega
        · rw [addInt_eq_sub h (by omega)]
          omega
      obtain ⟨b, hb⟩ := ih (s.withData s.memory.mainMemory fun i => ([] : List UInt8).getD i 0)
        (addInt vAddr n) (size - n) (addInt pos n) tot (by omega) ⟨by omega, by omega⟩
        isInt_addInt hopen hnext.1 hnext.2
      refine ⟨b, ?_⟩
      rw [List.length_nil, Nat.cast_zero, add_zero]
      exact hb

theorem addInt_of_backed {n : ℤ} {k : ℕ} (hsmall : space.frames.length ≤ 32)
    (hb : space.Backed vAddr k) (hk : 0 < k) (hn : 0 ≤ n) (hn' : n ≤ 128) :
    addInt vAddr n = vAddr + n := by
  obtain ⟨a, ha, -⟩ := hb 0 hk
  rw [Nat.cast_zero, add_zero] at ha
  refine addInt_eq ?_
  rcases lt_or_ge vAddr 0 with h | h
  · have hgt := ((translate_of_neg h).mp ha).1
    exact ⟨by omega, by omega⟩
  · obtain ⟨f, hf, -⟩ := (translate_of_nonneg h).mp ha
    have hlt := (List.getElem?_eq_some_iff.mp hf).1
    exact ⟨by omega, by omega⟩

theorem backed_split (hpos : 0 ≤ pos) (hsize : 0 < size) :
    let n := copySize vAddr size
    space.Backed vAddr (available content f pos size).length ↔
      space.Backed vAddr (available content f pos n).length ∧
        space.Backed (vAddr + n) (available content f (pos + n) (size - n)).length := by
  intro n
  obtain ⟨hn, hle, -, -⟩ := copySize_spec vAddr hsize
  change 0 < n at hn
  change n ≤ size at hle
  have hrest : space.Backed (vAddr + (available content f pos n).length)
      (available content f (pos + n) (size - n)).length ↔
      space.Backed (vAddr + n) (available content f (pos + n) (size - n)).length := by
    rcases length_available_or content f size hpos hn.le with hl | hnil
    · rw [hl]
    · simp [hnil, Backed]
  rw [available_split hpos hn.le hle, List.length_append, backed_add, hrest]

theorem available_of_wraps {n : ℤ} (hpos : 0 ≤ pos) (hn : 0 ≤ n) (hle : n ≤ size)
    (hend : pos + (available content f pos size).length < 2 ^ 31) (h : 2 ^ 31 ≤ pos + n) :
    available content f (pos + n) (size - n) = [] := by
  rcases length_available_or content f size hpos hn with hl | hnil
  · rw [available_split hpos hn hle, List.length_append] at hend
    omega
  · exact hnil

theorem exists_readLoop_of_behind {turns : ℕ} {s : Sys φ} {tot : ℤ} (input : ℕ → UInt8)
    (ht : size.toNat ≤ turns) (hint : IsInt size) (hopen : s.files.openFile file = some f)
    (hpos : IsInt pos) (hbehind : 0 ≤ pos → (content f).length ≤ pos)
    (hneg : pos < 0 → pos + size < 0) (v : ℤ) :
    ∃ m' b', (readLoop (quietEnv content input) file turns vAddr size pos tot).run s =
        some (tot + (([] : List UInt8).length : ℕ), s.withData m' b') ∧
      space.Written v [] s.memory.mainMemory m' := by
  obtain ⟨b, hb⟩ := run_readLoop_of_behind input turns s vAddr size pos tot ht hint hpos hopen
    hbehind hneg
  exact ⟨s.memory.mainMemory, b, by simpa using hb, .nil⟩

theorem exists_readLoop_of_nil {turns : ℕ} {s : Sys φ} {tot : ℤ} (input : ℕ → UInt8)
    (ht : size.toNat ≤ turns) (hint : IsInt size) (hopen : s.files.openFile file = some f)
    (hpos : 0 ≤ pos) (hpos' : IsInt pos) (hnil : available content f pos size = []) :
    ∃ m' b', (readLoop (quietEnv content input) file turns vAddr size pos tot).run s =
        some (tot + (available content f pos size).length, s.withData m' b') ∧
      space.Written vAddr (available content f pos size) s.memory.mainMemory m' := by
  rw [hnil]
  rcases le_or_gt size 0 with hle | hsize
  · refine ⟨s.memory.mainMemory, s.diskBuffer, ?_, .nil⟩
    rw [List.length_nil, Nat.cast_zero, add_zero]
    exact run_readLoop_of_le hle
  · have hlen := length_le_of_available hpos hsize hnil
    exact exists_readLoop_of_behind input ht hint hopen hpos' (fun _ => hlen) (by omega) _

theorem written_split {n : ℤ} {m m₁ m' : ℤ → UInt8} (hpos : 0 ≤ pos) (hn : 0 ≤ n)
    (h : space.Written vAddr (available content f pos n) m m₁)
    (h' : space.Written (vAddr + n) (available content f (pos + n) (size - n)) m₁ m') :
    space.Written vAddr
      (available content f pos n ++ available content f (pos + n) (size - n)) m m' := by
  refine h.append ?_
  rcases length_available_or content f size hpos hn with hl | hnil
  · rwa [hl]
  · rw [hnil] at h' ⊢
    exact ⟨fun a _ => h'.other a (by simp), by simp⟩

section Turns

variable (hsmall : space.frames.length ≤ 32)

include hsmall

theorem exists_readLoop (input : ℕ → UInt8) (turns : ℕ) :
    ∀ (s : Sys φ) (vAddr size pos tot : ℤ), size.toNat ≤ turns → IsInt size →
      s.memory.spaces s.current = some space → s.files.openFile file = some f → 0 ≤ pos →
      IsInt pos → pos + (available content f pos size).length < 2 ^ 31 →
      space.Backed vAddr (available content f pos size).length →
      ∃ m' b', (readLoop (quietEnv content input) file turns vAddr size pos tot).run s =
          some (tot + (available content f pos size).length, s.withData m' b') ∧
        space.Written vAddr (available content f pos size) s.memory.mainMemory m' := by
  induction turns with
  | zero =>
    intro s vAddr size pos tot ht hint _ hopen hpos hpos' _ _
    exact exists_readLoop_of_nil input ht hint hopen hpos hpos' (available_of_le (by omega))
  | succ turns ih =>
    intro s vAddr size pos tot ht hint hspace hopen hpos hpos' hend hb
    rcases eq_or_ne (available content f pos size) [] with hnil | hne
    · exact exists_readLoop_of_nil input ht hint hopen hpos hpos' hnil
    · have hsize : 0 < size := by
        by_contra hle
        exact hne (available_of_le (by omega))
      obtain ⟨hb₁, hb₂⟩ := (backed_split hpos hsize).mp hb
      obtain ⟨hn, hle, hn128, hpage⟩ := copySize_spec vAddr hsize
      have hv := addInt_of_backed hsmall hb (List.length_pos_iff.mpr hne) hn.le hn128
      have hlen := length_available_le content f pos hn.le
      have hwraps := available_of_wraps hpos hn.le hle hend
      rw [available_split hpos hn.le hle, List.length_append] at hend
      rw [run_readLoop_succ hsize hopen rfl, available_split hpos hn.le hle]
      have hor := length_available_or content f size hpos hn.le
      generalize copySize vAddr size = n at *
      obtain ⟨hint₁, hint₂⟩ := hint
      obtain ⟨-, hpos'⟩ := hpos'
      obtain ⟨m₁, hput, hstored⟩ := exists_putMem
        (s := s.withData s.memory.mainMemory fun i => (available content f pos n).getD i 0)
        hspace (by omega) (by omega) hb₁
      have hnext : pos + n < 2 ^ 31 →
          pos + n + (available content f (pos + n) (size - n)).length < 2 ^ 31 := by
        rcases hor with hl | hnil
        · omega
        · simp [hnil]
      -- the position may wrap around behind the end of the file
      obtain ⟨m', b', hrun, hstored'⟩ : ∃ m' b',
          (readLoop (quietEnv content input) file turns (vAddr + n) (size - n) (addInt pos n)
            (tot + (available content f pos n).length)).run (s.withData m₁ fun i =>
              (available content f pos n).getD i 0) =
            some (tot + (available content f pos n).length +
              (available content f (pos + n) (size - n)).length, s.withData m' b') ∧
          space.Written (vAddr + n) (available content f (pos + n) (size - n)) m₁ m' := by
        rcases lt_or_ge (pos + n) (2 ^ 31) with h | h
        · rw [addInt_eq ⟨by omega, h⟩]
          exact ih (s.withData m₁ _) (vAddr + n) (size - n) (pos + n) _ (by omega)
            ⟨by omega, by omega⟩ hspace hopen (by omega) ⟨by omega, h⟩ (hnext h) hb₂
        · rw [hwraps h]
          refine exists_readLoop_of_behind (s := s.withData m₁ _) input (by omega)
            ⟨by omega, by omega⟩ hopen isInt_addInt ?_ ?_ _
          · rw [addInt_eq_sub h (by omega)]
            omega
          · rw [addInt_eq_sub h (by omega)]
            omega
      refine ⟨m', b', ?_, written_split hpos hn.le hstored hstored'⟩
      rw [hput, Option.bind_some, hv, List.length_append, Nat.cast_add, ← add_assoc]
      exact hrun

end Turns

end Loop

/-! ## `Read` -/

section Read

variable {content : φ → List UInt8} {input : ℕ → UInt8} {pcb : PCB} {file : UserOpenFile} {f : φ}
  {fd : ℤ} {length : φ → ℕ}

/-- The console gets a request of `-1` bytes. The bytes that a file has at its position fit in the
address space. -/
def ReadFits (files : OpenFiles φ) (space : AddrSpace) (pcb : PCB) (length : φ → ℕ)
    (vAddr size fd : ℤ) : Prop :=
  if fd = 0 then size = -1
  else match pcb.getOpenFile fd with
    | none => True
    | some .null => True
    | some .garbage => False
    | some (.ptr file) => 0 < size → ∃ f, files.openFile file = some f ∧
        (0 ≤ file.position →
          space.RangeFits vAddr (min size.toNat (length f - file.position.toNat)))

theorem run_setLevel_quiet {now : IntStatus} :
    (setLevel (quietEnv content input) now).run s = some (s.level, { s with level := now }) := by
  unfold setLevel
  rw [run_get_bind, run_modify_bind]
  split <;> rfl

theorem run_between_setLevel (c : Code φ Unit) :
    (do
      let oldLevel ← setLevel (quietEnv content input) .off
      c
      let _ ← setLevel (quietEnv content input) oldLevel : Code φ Unit).run s =
      (c.run { s with level := .off }).map fun r => ((), { r.2 with level := s.level }) := by
  simp only [StateT.run_bind, run_setLevel_quiet, Option.bind_eq_bind, Option.bind_some]
  exact Option.map_eq_bind.symm

theorem run_userFile (hproc : s.files.procs s.current = some pcb)
    (hfile : pcb.getOpenFile fd = some (.ptr file)) :
    (userFile fd).run s = some (file, s) := by
  simp [userFile, hproc, hfile]

theorem run_readFile {E : Env φ} (hproc : s.files.procs s.current = some pcb)
    (hfile : pcb.getOpenFile fd = some (.ptr file)) :
    (readFile E vAddr size fd).run s =
      ((readLoop E file size.toNat vAddr size file.position 0).run s).bind
        fun p => ((do
          setPosition fd file (addInt file.position p.1)
          modify ({ · with result := p.1 }) : Code φ Unit)).run p.2 := by
  unfold readFile
  simp only [StateT.run_bind, run_userFile hproc hfile, Option.bind_eq_bind, Option.bind_some]

/-- The current process has the file open. -/
def HasFile (s : Sys φ) (fd : ℤ) (file : UserOpenFile) : Prop :=
  ∃ pcb, s.files.procs s.current = some pcb ∧ pcb.getOpenFile fd = some (.ptr file)

theorem run_setPosition {position : ℤ} (hproc : s.files.procs s.current = some pcb) :
    (setPosition fd file position).run s = some ((), { s with files := { s.files with
      procs := update s.files.procs s.current (some { pcb with
        openFileTable := update pcb.openFileTable fd.toNat
          (.ptr { file with position := position }) }) } }) := by
  simp [setPosition, hproc]

theorem exists_setPosition (position : ℤ) (hproc : s.files.procs s.current = some pcb)
    (hfile : pcb.getOpenFile fd = some (.ptr file)) :
    ∃ procs, (setPosition fd file position).run s =
        some ((), { s with files := { s.files with procs := procs } }) ∧
      HasFile { s with files := { s.files with procs := procs } } fd
        { file with position := position } := by
  unfold PCB.getOpenFile at hfile
  obtain ⟨hfd, hslot⟩ := Option.ite_none_right_eq_some.mp hfile
  have htest : pcb.openFileMap.test fd.toNat = true := by
    by_contra htest
    rw [if_neg htest] at hslot
    cases hslot
  refine ⟨_, run_setPosition hproc, _, update_self .., ?_⟩
  rw [PCB.getOpenFile, if_pos hfd, if_pos htest]
  exact congrArg some (update_self ..)

theorem readFile_of_readLoop {E : Env φ} {tot : ℤ} (hproc : s.files.procs s.current = some pcb)
    (hfile : pcb.getOpenFile fd = some (.ptr file))
    (h : (readLoop E file size.toNat vAddr size file.position 0).run s =
      some (tot, s.withData m b)) :
    ∃ s', (readFile E vAddr size fd).run s = some ((), s') ∧
      s'.memory.mainMemory = m ∧ s'.result = tot ∧
      s'.HasFile fd { file with position := addInt file.position tot } := by
  obtain ⟨procs, hset, hhas⟩ := exists_setPosition (s := s.withData m b)
    (addInt file.position tot) hproc hfile
  refine ⟨{ s.withData m b with files := { s.files with procs := procs }, result := tot }, ?_, rfl,
    rfl, hhas⟩
  rw [run_readFile hproc hfile, h, Option.bind_some, StateT.run_bind, hset]
  rfl

theorem length_available {pos : ℤ} (hpos : 0 ≤ pos) : (available content f pos size).length =
    min size.toNat ((content f).length - pos.toNat) := by
  rw [available_of_nonneg hpos, List.length_take, List.length_drop]

section Cases

variable (hspace : s.memory.spaces s.current = some space)
  (hproc : s.files.procs s.current = some pcb) (hsmall : space.frames.length ≤ 32)
  (hint : IsInt size) (hlong : ∀ f, (content f).length < 2 ^ 31)

include hspace hproc hsmall hint hlong

variable (hints : ∀ file, pcb.getOpenFile fd = some (.ptr file) → IsInt file.position)

include hints

end Cases

end Read

end Sys

end Nachos.Userprog
