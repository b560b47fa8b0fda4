import Nachos.Userprog.Isolation

/-! # `Read` and `Write` for UNIX files

With `FILESYS_STUB` an open file is a UNIX file, which behaves as an array of
bytes. The loops of `myRead` and `myWrite` cut a range of virtual addresses at
the ends of pages; put together, their turns transfer the whole range at once.
The loops count positions in `int`, and `Lseek` fails its assertion at a
position that has become negative.
-/

namespace Nachos.Userprog

open Function Command VM Words

/-! ## UNIX files -/

/-- A UNIX file, with a number that all the descriptors for it share. -/
structure UnixFile where
  number : ℕ
  bytes : List UInt8

namespace UnixFile

variable {bytes data data' : List UInt8} {position i number : ℕ} {f : UnixFile}

def writeBytes (bytes : List UInt8) (position : ℕ) (data : List UInt8) : List UInt8 :=
  if data.length = 0 then bytes
  else (List.range (max bytes.length (position + data.length))).map fun i =>
    if position ≤ i ∧ i < position + data.length then data.getD (i - position) 0
    else bytes.getD i 0

theorem length_writeBytes : (writeBytes bytes position data).length =
    if data.length = 0 then bytes.length else max bytes.length (position + data.length) := by
  unfold writeBytes
  split
  · rfl
  · rw [List.length_map, List.length_range]

theorem getD_writeBytes : (writeBytes bytes position data).getD i 0 =
    if position ≤ i ∧ i < position + data.length then data.getD (i - position) 0
    else bytes.getD i 0 := by
  unfold writeBytes
  by_cases hnil : data.length = 0
  · rw [if_pos hnil, if_neg (by omega)]
  · rw [if_neg hnil]
    rcases Nat.lt_or_ge i (max bytes.length (position + data.length)) with hi | hi
    · rw [List.getD_eq_getElem _ _ (by simpa using hi), List.getElem_map, List.getElem_range]
    · rw [List.getD_eq_default _ _ (by simpa using hi), if_neg (by omega),
        List.getD_eq_default _ _ (by omega)]

theorem getElem?_eq_getD {l : List UInt8} (hi : i < l.length) : l[i]? = some (l.getD i 0) := by
  rw [List.getElem?_eq_getElem hi, List.getD_eq_getElem _ _ hi]

theorem getElem?_writeBytes_add (hi : i < data.length) :
    (writeBytes bytes position data)[position + i]? = some (data.getD i 0) := by
  have hlen : position + i < (writeBytes bytes position data).length := by
    rw [length_writeBytes, if_neg (by omega)]
    omega
  rw [getElem?_eq_getD hlen, getD_writeBytes, if_pos (by omega), Nat.add_sub_cancel_left]

theorem getElem?_writeBytes_of_outside (hi : i < bytes.length)
    (h : i < position ∨ position + data.length ≤ i) :
    (writeBytes bytes position data)[i]? = bytes[i]? := by
  have hlen : i < (writeBytes bytes position data).length := by
    rw [length_writeBytes]
    split <;> omega
  rw [getElem?_eq_getD hlen, getD_writeBytes, if_neg (by omega), getElem?_eq_getD hi]

theorem writeBytes_append : writeBytes (writeBytes bytes position data) (position + data.length)
    data' = writeBytes bytes position (data ++ data') := by
  have hlen : (writeBytes (writeBytes bytes position data) (position + data.length) data').length =
      (writeBytes bytes position (data ++ data')).length := by
    simp only [length_writeBytes, List.length_append]
    split <;> split <;> split <;> omega
  have hget : ∀ i, (writeBytes (writeBytes bytes position data) (position + data.length)
      data').getD i 0 = (writeBytes bytes position (data ++ data')).getD i 0 := by
    intro i
    simp only [getD_writeBytes, List.length_append]
    by_cases hlt : i < position + data.length
    · rw [if_neg (by omega)]
      by_cases hge : position ≤ i
      · rw [if_pos ⟨hge, hlt⟩, if_pos (by omega), List.getD_append _ _ _ _ (by omega)]
      · rw [if_neg (by omega), if_neg (by omega)]
    · by_cases hend : i < position + data.length + data'.length
      · rw [if_pos (by omega), if_pos (by omega), List.getD_append_right _ _ _ _ (by omega),
          Nat.sub_sub]
      · rw [if_neg (by omega), if_neg (by omega), if_neg (by omega)]
  refine List.ext_getElem hlen fun i hi hi' => ?_
  rw [← List.getD_eq_getElem _ 0 hi, ← List.getD_eq_getElem _ 0 hi', hget]

/-- A file after a write to the file with some number. -/
def write (number position : ℕ) (data : List UInt8) (f : UnixFile) : UnixFile :=
  if f.number = number then { f with bytes := writeBytes f.bytes position data } else f

@[simp] theorem number_write : (f.write number position data).number = f.number := by
  unfold write
  split <;> rfl

theorem write_nil : f.write number position [] = f := by
  unfold write
  split <;> rfl

theorem write_write : (f.write number position data).write number (position + data.length) data' =
    f.write number position (data ++ data') := by
  by_cases h : f.number = number
  · simp only [write, if_pos h, writeBytes_append]
  · simp only [write, if_neg h]

end UnixFile

namespace OpenFiles

variable {files : OpenFiles UnixFile} {file : UserOpenFile} {f : UnixFile}
  {number position : ℕ} {data data' : List UInt8}

def writeUnix (number position : ℕ) (data : List UInt8) (files : OpenFiles UnixFile) :
    OpenFiles UnixFile :=
  { files with heap := fun address => (files.heap address).map fun object =>
      { object with openFile := object.openFile.map (·.write number position data) } }

theorem writeUnix_nil : files.writeUnix number position [] = files := by
  simp [writeUnix, UnixFile.write_nil]

theorem writeUnix_writeUnix :
    (files.writeUnix number position data).writeUnix number (position + data.length) data' =
      files.writeUnix number position (data ++ data') := by
  simp [writeUnix, Function.comp_def, UnixFile.write_write]

theorem openFile_writeUnix (h : files.openFile file = some f) :
    (files.writeUnix number position data).openFile file =
      some (f.write number position data) := by
  obtain ⟨object, hobject, hf⟩ := Option.bind_eq_some_iff.mp h
  simp [openFile, writeUnix, hobject, hf]

end OpenFiles

/-! ## Virtual bytes -/

namespace AddrSpace

variable {space : AddrSpace} {m : ℤ → UInt8} {v vAddr a : ℤ} {n k : ℕ}

/-- The bytes of a range of virtual addresses. -/
def virtualBytes (space : AddrSpace) (m : ℤ → UInt8) (vAddr : ℤ) (n : ℕ) : List UInt8 :=
  (List.range n).map fun i : ℕ => (space.translate (vAddr + i)).elim 0 m

@[simp] theorem length_virtualBytes : (space.virtualBytes m v n).length = n := by
  simp [virtualBytes]

theorem getD_virtualBytes (hi : n < k) (ha : space.translate (v + n) = some a) :
    (space.virtualBytes m v k).getD n 0 = m a := by
  rw [List.getD_eq_getElem _ _ (by rwa [length_virtualBytes])]
  simp [virtualBytes, ha]

theorem virtualBytes_add : space.virtualBytes m v (n + k) =
    space.virtualBytes m v n ++ space.virtualBytes m (v + n) k := by
  simp [virtualBytes, List.range_add, Function.comp_def, add_assoc]

def Contains (space : AddrSpace) (vAddr : ℤ) (n : ℕ) : Prop :=
  ∀ i < n, 0 ≤ vAddr + i ∧ vAddr + i < space.frames.length * PageSize

instance : Decidable (space.Contains vAddr n) :=
  inferInstanceAs (Decidable (∀ i < n, 0 ≤ vAddr + i ∧ vAddr + i < space.frames.length * PageSize))

theorem Contains.rangeFits (h : space.Contains vAddr n) : space.RangeFits vAddr n := by
  rcases Nat.eq_zero_or_pos n with h0 | hpos
  · exact .inl h0
  · have hfirst := (h 0 hpos).1
    have hlast := (h (n - 1) (by omega)).2
    have hP : (PageSize : ℤ) = 128 := rfl
    rw [hP] at hlast
    exact .inr ⟨by omega, .inl (by omega)⟩

theorem Contains.lt_of_pos (h : space.Contains vAddr n) (hn : 0 < n)
    (hsmall : space.frames.length ≤ 32) : 0 ≤ vAddr ∧ vAddr + n < 2 ^ 31 := by
  have hfirst := (h 0 hn).1
  have hlast := (h (n - 1) (by omega)).2
  have hP : (PageSize : ℤ) = 128 := rfl
  rw [hP] at hlast
  omega

end AddrSpace

namespace Sys

open AddrSpace

variable {s : Sys UnixFile} {space : AddrSpace} {pcb : PCB} {file : UserOpenFile} {f : UnixFile}
  {vAddr size fd pos : ℤ} {n : ℕ} {input : ℕ → UInt8}

/-- The files are UNIX files, and no other thread runs. -/
def stubEnv (input : ℕ → UInt8) : Env UnixFile :=
  { quietEnv UnixFile.bytes input with
    -- `Lseek` asserts that the position is one of a file.
    readAt := fun f numBytes position s =>
      if position < 0 then none
      else some (available UnixFile.bytes f position numBytes, s)
    writeAt := fun f data position s =>
      if position < 0 then none
      else some ((), { s with files := s.files.writeUnix f.number position.toNat data }) }

def writeUnix (number position : ℕ) (data : List UInt8) (diskBuffer : ℕ → UInt8)
    (s : Sys UnixFile) : Sys UnixFile :=
  { s with diskBuffer := diskBuffer, files := s.files.writeUnix number position data }

theorem writeUnix_writeUnix {number position : ℕ} {data data' : List UInt8} {b b' : ℕ → UInt8} :
    (s.writeUnix number position data b).writeUnix number (position + data.length) data' b' =
      s.writeUnix number position (data ++ data') b' := by
  simp only [writeUnix, OpenFiles.writeUnix_writeUnix]

/-! ## `Write` -/

theorem run_getMem {φ : Type} {s : Sys φ} (hspace : s.memory.spaces s.current = some space)
    (hn : 0 < n) (hpage : vAddr.tmod PageSize + n ≤ 128) (hb : space.Backed vAddr n) :
    (getMemFromVAddr vAddr n).run s =
      some (space.virtualBytes s.memory.mainMemory vAddr n, s) := by
  obtain ⟨pAddr, htr, -⟩ := hb 0 hn
  rw [Nat.cast_zero, add_zero] at htr
  obtain h0 | ⟨hp, hm⟩ := (backed_of_translate htr hpage).mp hb
  · omega
  · have hbytes : space.virtualBytes s.memory.mainMemory vAddr n =
        (List.range n).map fun i : ℕ => s.memory.mainMemory (pAddr + i) := by
      refine List.map_congr_left fun i hi => ?_
      have hi := List.mem_range.mp hi
      rw [AddrSpace.translate_add htr (by omega) (by omega), Option.elim_some]
    unfold getMemFromVAddr
    rw [if_neg (by omega), StateT.run_bind, run_translate hspace, htr, hbytes]
    simp only [Option.map_some, Option.bind_eq_bind, Option.bind_some, StateT.run_bind,
      StateT.run_get, Option.pure_def]
    rw [if_pos ⟨by omega, hp, hm⟩, Int.toNat_natCast]
    rfl

theorem run_writeLoop_of_le {turns : ℕ} (h : size ≤ 0) :
    (writeLoop (stubEnv input) file turns vAddr size pos).run s = some (pos, s) := by
  cases turns <;> simp [writeLoop, not_lt.mpr h]

theorem run_writeLoop_succ {turns : ℕ} {bytes : List UInt8} (hsize : 0 < size) (hpos : 0 ≤ pos)
    (hopen : s.files.openFile file = some f)
    (hget : (getMemFromVAddr vAddr (copySize vAddr size)).run s = some (bytes, s)) :
    (writeLoop (stubEnv input) file (turns + 1) vAddr size pos).run s =
      (writeLoop (stubEnv input) file turns (addInt vAddr (copySize vAddr size))
        (size - copySize vAddr size) (addInt pos (copySize vAddr size))).run
          (s.writeUnix f.number pos.toNat bytes fun i => bytes.getD i 0) := by
  have hopen' : (openFile file).run { s with diskBuffer := fun i => bytes.getD i 0 } =
      some (f, { s with diskBuffer := fun i => bytes.getD i 0 }) := run_openFile hopen
  have hwrite : ∀ s : Sys UnixFile, (external ((stubEnv input).writeAt f bytes pos)).run s =
      some ((), { s with files := s.files.writeUnix f.number pos.toNat bytes }) :=
    fun s => congrArg (Option.map _) (if_neg (not_lt.mpr hpos))
  rw [writeLoop, if_pos hsize]
  simp only [StateT.run_bind, hget, Option.bind_eq_bind, Option.bind_some, StateT.run_modify,
    Option.pure_def, hopen', hwrite]
  rfl

/-- The turns of the loop write the whole range. -/
theorem exists_writeLoop (input : ℕ → UInt8) (turns : ℕ) :
    ∀ (s : Sys UnixFile) (f : UnixFile) (vAddr pos : ℤ) (n : ℕ), n ≤ turns →
      s.memory.spaces s.current = some space → s.files.openFile file = some f → 0 ≤ pos →
      space.Backed vAddr n → pos + n < 2 ^ 31 → (0 < n → 0 ≤ vAddr ∧ vAddr + n < 2 ^ 31) →
      ∃ b, (writeLoop (stubEnv input) file turns vAddr n pos).run s =
        some (pos + n, s.writeUnix f.number pos.toNat
          (space.virtualBytes s.memory.mainMemory vAddr n) b) := by
  have hzero : ∀ (turns : ℕ) (s : Sys UnixFile) (f : UnixFile) (vAddr pos : ℤ),
      ∃ b, (writeLoop (stubEnv input) file turns vAddr (0 : ℕ) pos).run s =
        some (pos + (0 : ℕ), s.writeUnix f.number pos.toNat
          (space.virtualBytes s.memory.mainMemory vAddr 0) b) := by
    intro turns s f vAddr pos
    refine ⟨s.diskBuffer, ?_⟩
    rw [Nat.cast_zero, run_writeLoop_of_le le_rfl, writeUnix, virtualBytes, List.range_zero,
      List.map_nil, OpenFiles.writeUnix_nil, add_zero]
  induction turns with
  | zero =>
    intro s f vAddr pos n ht _ _ _ _ _ _
    obtain rfl : n = 0 := by omega
    exact hzero 0 s f vAddr pos
  | succ turns ih =>
    intro s f vAddr pos n ht hspace hopen hpos hb hmax hvAddr
    rcases Nat.eq_zero_or_pos n with rfl | hn
    · exact hzero _ s f vAddr pos
    · obtain ⟨hk, hle, -, hpage⟩ := copySize_spec vAddr (show 0 < (n : ℤ) by omega)
      obtain ⟨k, hk'⟩ := Int.eq_ofNat_of_zero_le hk.le
      obtain ⟨l, rfl⟩ := Nat.exists_eq_add_of_le (show k ≤ n by omega)
      rw [hk'] at hk hpage
      obtain ⟨hv, hv'⟩ := hvAddr hn
      obtain ⟨hb₁, hb₂⟩ := backed_add.mp hb
      have hget := run_getMem hspace (by omega) hpage hb₁
      obtain ⟨b, hrun⟩ := ih (s.writeUnix f.number pos.toNat _ _) _ (vAddr + k) (pos + k) l
        (by omega) hspace (OpenFiles.openFile_writeUnix hopen) (by omega) hb₂ (by omega) (by omega)
      refine ⟨b, ?_⟩
      rw [run_writeLoop_succ (by omega) hpos hopen (by rw [hk']; exact hget), hk',
        addInt_eq ⟨by omega, by omega⟩, addInt_eq ⟨by omega, by omega⟩,
        show ((k + l : ℕ) : ℤ) - k = l by omega, hrun]
      have hend : (pos + k).toNat =
          pos.toNat + (space.virtualBytes s.memory.mainMemory vAddr k).length := by
        rw [length_virtualBytes]
        omega
      rw [UnixFile.number_write, hend, writeUnix_writeUnix, Nat.cast_add, ← add_assoc,
        virtualBytes_add]
      rfl

/-- What `Write` of a range leaves in the file, and the new position. -/
structure WritesRange (s s' : Sys UnixFile) (space : AddrSpace) (file : UserOpenFile)
    (f f' : UnixFile) (vAddr : ℤ) (n : ℕ) (fd : ℤ) : Prop where
  openFile : s'.files.openFile file = some f'
  bytes : ∀ i < n, ∃ a, space.translate (vAddr + i) = some a ∧
    f'.bytes[file.position.toNat + i]? = some (s.memory.mainMemory a)
  other : ∀ j < f.bytes.length, j < file.position.toNat ∨ file.position.toNat + n ≤ j →
    f'.bytes[j]? = f.bytes[j]?
  length : f'.bytes.length =
    if n = 0 then f.bytes.length else max f.bytes.length (file.position.toNat + n)
  position : s'.HasFile fd { file with position := file.position + n }

/-- What `Read` of a range leaves in the memory, its result and the new position. -/
structure ReadsRange (s s' : Sys UnixFile) (space : AddrSpace) (file : UserOpenFile)
    (f : UnixFile) (vAddr : ℤ) (k : ℕ) (fd : ℤ) : Prop where
  bytes : ∀ i < k, ∃ a, space.translate (vAddr + i) = some a ∧
    f.bytes[file.position.toNat + i]? = some (s'.memory.mainMemory a)
  other : ∀ a, (∀ i < k, space.translate (vAddr + i) ≠ some a) →
    s'.memory.mainMemory a = s.memory.mainMemory a
  result : s'.result = k
  position : s'.HasFile fd { file with position := file.position + k }

theorem setLevel_stubEnv : setLevel (stubEnv input) = setLevel (quietEnv UnixFile.bytes input) :=
  rfl

theorem run_myWrite : (myWrite (stubEnv input) vAddr size fd).run s =
    ((if fd = 1 then writeConsole vAddr size else writeFile (stubEnv input) vAddr size fd).run
      { s with level := .off }).map fun r => ((), { r.2 with level := s.level }) := by
  unfold myWrite
  rw [setLevel_stubEnv]
  exact run_between_setLevel _

theorem run_myRead_stubEnv : (myRead (stubEnv input) vAddr size fd).run s =
    ((if fd = 0 then readConsole (stubEnv input) vAddr size
      else readFile (stubEnv input) vAddr size fd).run
        { s with level := .off }).map fun r => ((), { r.2 with level := s.level }) := by
  unfold myRead
  rw [setLevel_stubEnv]
  exact run_between_setLevel _

/-- The position of the last turn of the loop, which begins a page unless it is the first one. -/
def lastPosition (vAddr size pos : ℤ) : ℤ :=
  max pos (pos + ((vAddr + size - 1) / PageSize * PageSize - vAddr))

theorem lastPosition_add {k : ℤ} (pos : ℤ) (hvAddr : 0 ≤ vAddr) (hk : copySize vAddr size = k)
    (hlt : k < size) :
    pos + k ≤ lastPosition vAddr size pos ∧
      lastPosition (vAddr + k) (size - k) (pos + k) ≤ lastPosition vAddr size pos := by
  have hP : (PageSize : ℤ) = 128 := rfl
  have hk' : k = 128 - vAddr % 128 := by
    have hnonneg := Int.tmod_nonneg 128 hvAddr
    rw [← Int.tmod_eq_emod_of_nonneg hvAddr]
    unfold copySize at hk
    rw [hP] at hk
    by_cases hs : size < 128
    · simp only [if_pos hs] at hk
      split at hk <;> omega
    · simp only [if_neg hs] at hk
      split at hk <;> omega
  rw [lastPosition, lastPosition, hP, show vAddr + k + (size - k) - 1 = vAddr + size - 1 by omega]
  omega

/-- Where no turn begins at a position that has wrapped around, the assertion of `Lseek` holds. -/
theorem readLoop_stubEnv (turns : ℕ) :
    ∀ vAddr size pos tot : ℤ, 0 ≤ vAddr → vAddr + size < 2 ^ 31 → 0 ≤ pos →
      lastPosition vAddr size pos < 2 ^ 31 →
      readLoop (stubEnv input) file turns vAddr size pos tot =
        readLoop (quietEnv UnixFile.bytes input) file turns vAddr size pos tot := by
  induction turns with
  | zero => exact fun _ _ _ _ _ _ _ _ => rfl
  | succ turns ih =>
    intro vAddr size pos tot hv hv' hpos hlast
    by_cases hsize : 0 < size
    · have hread : ∀ f, (stubEnv input).readAt f (copySize vAddr size) pos =
          (quietEnv UnixFile.bytes input).readAt f (copySize vAddr size) pos :=
        fun f => funext fun s => if_neg (not_lt.mpr hpos)
      have hnext : ∀ tot, readLoop (stubEnv input) file turns (addInt vAddr (copySize vAddr size))
          (size - copySize vAddr size) (addInt pos (copySize vAddr size)) tot =
          readLoop (quietEnv UnixFile.bytes input) file turns (addInt vAddr (copySize vAddr size))
            (size - copySize vAddr size) (addInt pos (copySize vAddr size)) tot := by
        intro tot
        obtain ⟨hn, hle, -, -⟩ := copySize_spec vAddr hsize
        generalize hk : copySize vAddr size = k at *
        rcases hle.eq_or_lt with heq | hlt
        · refine StateT.ext fun s => ?_
          rw [run_readLoop_of_le (by omega), run_readLoop_of_le (by omega)]
        · obtain ⟨hpos', hlast'⟩ := lastPosition_add pos hv hk hlt
          rw [addInt_eq ⟨by omega, by omega⟩, addInt_eq ⟨by omega, by omega⟩]
          exact ih _ _ _ tot (by omega) (by omega) (by omega) (by omega)
      simp only [readLoop, if_pos hsize, hread, hnext]
    · simp only [readLoop, if_neg hsize]

section Calls

variable (hspace : s.memory.spaces s.current = some space)
  (hopen : s.files.openFile file = some f) (hnd : space.frames.Nodup)
  (hframes : ∀ f ∈ space.frames, f < NumPhysPages) (hin : space.Contains vAddr n)
  (hpos : 0 ≤ file.position)

include hspace hopen hframes hin hnd hpos

theorem exists_readLoop_stubEnv (input : ℕ → UInt8)
    (hend : file.position + (available UnixFile.bytes f file.position n).length < 2 ^ 31)
    (hlast : lastPosition vAddr n file.position < 2 ^ 31) :
    ∃ m' b', (readLoop (stubEnv input) file (n : ℤ).toNat vAddr n file.position 0).run s =
        some (((available UnixFile.bytes f file.position n).length : ℤ), s.withData m' b') ∧
      space.Written vAddr (available UnixFile.bytes f file.position n) s.memory.mainMemory m' := by
  have hsmall := length_frames_le hnd hframes
  have hb : space.Backed vAddr (available UnixFile.bytes f file.position n).length := by
    intro i hi
    have hle := length_available_le UnixFile.bytes f file.position (Int.natCast_nonneg n)
    exact backed_of_rangeFits hframes hin.rangeFits i (by omega)
  have hn31 : (n : ℤ) < 2 ^ 31 := by
    rcases Nat.eq_zero_or_pos n with rfl | hn
    · decide
    · have := hin.lt_of_pos hn hsmall
      omega
  have hloop : readLoop (stubEnv input) file n vAddr n file.position 0 =
      readLoop (quietEnv UnixFile.bytes input) file n vAddr n file.position 0 := by
    rcases Nat.eq_zero_or_pos n with rfl | hn
    · rfl
    · obtain ⟨hv, hv'⟩ := hin.lt_of_pos hn hsmall
      exact readLoop_stubEnv n vAddr n file.position 0 hv hv' hpos hlast
  rw [Int.toNat_natCast, hloop]
  have := exists_readLoop hsmall input n s vAddr n file.position 0 (by omega)
    ⟨by omega, hn31⟩ hspace hopen hpos ⟨by omega, by omega⟩ hend hb
  rwa [zero_add] at this

variable (hhas : s.HasFile fd file)

include hhas

theorem exists_writeFile (input : ℕ → UInt8) (hmax : file.position + n < 2 ^ 31) :
    ∃ s', (writeFile (stubEnv input) vAddr n fd).run s = some ((), s') ∧
      s'.files.openFile file = some (f.write f.number file.position.toNat
        (space.virtualBytes s.memory.mainMemory vAddr n)) ∧
      s'.HasFile fd { file with position := file.position + n } := by
  obtain ⟨pcb, hproc, hfile⟩ := hhas
  obtain ⟨b, hloop⟩ := exists_writeLoop input n s f vAddr file.position n le_rfl hspace hopen hpos
    (backed_of_rangeFits hframes hin.rangeFits) hmax
    fun hn => hin.lt_of_pos hn (length_frames_le hnd hframes)
  obtain ⟨procs, hset, hhas⟩ := exists_setPosition
    (s := s.writeUnix f.number file.position.toNat _ b) (file.position + n) hproc hfile
  refine ⟨_, ?_, OpenFiles.openFile_writeUnix hopen, hhas⟩
  unfold writeFile
  simp only [StateT.run_bind, run_userFile hproc hfile, Option.bind_eq_bind, Option.bind_some,
    Int.toNat_natCast, hloop]
  exact hset

theorem writesRange_myWrite (hfd : fd ≠ 1) (input : ℕ → UInt8)
    (hmax : file.position + n < 2 ^ 31) :
    ∃ s' f', (myWrite (stubEnv input) vAddr n fd).run s = some ((), s') ∧
      WritesRange s s' space file f f' vAddr n fd := by
  obtain ⟨s', hrun, hopen', hhas'⟩ := exists_writeFile (s := { s with level := .off }) hspace
    hopen hnd hframes hin hpos hhas input hmax
  rw [UnixFile.write, if_pos rfl] at hopen'
  refine ⟨{ s' with level := s.level }, _, ?_, hopen', ?_, ?_, ?_, hhas'⟩
  · rw [run_myWrite, if_neg hfd, hrun]
    rfl
  · intro i hi
    obtain ⟨a, ha, -⟩ := backed_of_rangeFits hframes hin.rangeFits i hi
    refine ⟨a, ha, ?_⟩
    rw [UnixFile.getElem?_writeBytes_add (by rwa [length_virtualBytes]), getD_virtualBytes hi ha]
  · intro j hj hout
    exact UnixFile.getElem?_writeBytes_of_outside hj (by rwa [length_virtualBytes])
  · rw [UnixFile.length_writeBytes, length_virtualBytes]

theorem readsRange_myRead (hfd : fd ≠ 0) (input : ℕ → UInt8)
    (hend : file.position + min n (f.bytes.length - file.position.toNat) < 2 ^ 31)
    (hlast : lastPosition vAddr n file.position < 2 ^ 31) :
    ∃ s', (myRead (stubEnv input) vAddr n fd).run s = some ((), s') ∧
      ReadsRange s s' space file f vAddr (min n (f.bytes.length - file.position.toNat)) fd := by
  have hlen : (available UnixFile.bytes f file.position n).length =
      min n (f.bytes.length - file.position.toNat) := by
    rw [length_available hpos, Int.toNat_natCast]
  obtain ⟨m', b', hloop, hwritten⟩ := exists_readLoop_stubEnv (s := { s with level := .off })
    hspace hopen hnd hframes hin hpos input (by rwa [hlen]) hlast
  obtain ⟨pcb, hproc, hfile⟩ := hhas
  obtain ⟨s', hrun, rfl, hres, hhas'⟩ := readFile_of_readLoop (s := { s with level := .off }) hproc
    hfile hloop
  rw [hlen] at hres hhas'
  rw [addInt_eq ⟨by omega, hend⟩] at hhas'
  refine ⟨{ s' with level := s.level }, ?_, ?_, ?_, hres, hhas'⟩
  · rw [run_myRead_stubEnv, if_neg hfd, hrun]
    rfl
  · intro i hi
    obtain ⟨a, ha, -⟩ := backed_of_rangeFits hframes hin.rangeFits i (by omega)
    refine ⟨a, ha, ?_⟩
    have hv := (hin 0 (by omega)).1
    rw [hwritten.byte (by omega) hnd (by omega) ha, ← UnixFile.getElem?_eq_getD (by omega),
      available_of_nonneg hpos, List.getElem?_take_of_lt (by omega), List.getElem?_drop]
  · rw [← hlen]
    exact hwritten.other

end Calls

/-- `Write` of a range in the address space transfers the whole range, as long as the position
behind it is an `int`, and `Read` what the file has of it, as long as the position behind that and
the position of the last turn are. -/
theorem transfers_range {s : Sys UnixFile} {space : AddrSpace} {file : UserOpenFile} {f : UnixFile}
    {vAddr fd : ℤ} {n : ℕ} (hspace : s.memory.spaces s.current = some space)
    (hnd : space.frames.Nodup) (hframes : ∀ f ∈ space.frames, f < NumPhysPages)
    (hin : space.Contains vAddr n) (hhas : s.HasFile fd file) (hcin : fd ≠ 0) (hcout : fd ≠ 1)
    (hopen : s.files.openFile file = some f) (hpos : 0 ≤ file.position) (input : ℕ → UInt8) :
    (file.position + n < 2 ^ 31 →
      ∃ s' f', (myWrite (stubEnv input) vAddr n fd).run s = some ((), s') ∧
        WritesRange s s' space file f f' vAddr n fd) ∧
    (file.position + min n (f.bytes.length - file.position.toNat) < 2 ^ 31 →
      lastPosition vAddr n file.position < 2 ^ 31 →
      ∃ s', (myRead (stubEnv input) vAddr n fd).run s = some ((), s') ∧
        ReadsRange s s' space file f vAddr (min n (f.bytes.length - file.position.toNat)) fd) :=
  ⟨writesRange_myWrite hspace hopen hnd hframes hin hpos hhas hcout input,
    readsRange_myRead hspace hopen hnd hframes hin hpos hhas hcin input⟩

/-- A process with two pages in frames 5 and 0 and an open file of three bytes. -/
def oneUnixFile (position : ℤ) : Sys UnixFile :=
  { level := .on
    memory :=
      { mainMemory := fun _ => 7
        bitmap := ((⟨NumPhysPages, fun _ => 0⟩ : BitMap).mark 5).mark 0
        spaces := fun id => if id = 0 then some ⟨[Memory.newEntry 0 5, Memory.newEntry 1 0]⟩
          else none }
    files := { (OpenFiles.boot : OpenFiles UnixFile) with
      heap := fun file => if file = 0 then some ⟨some ⟨0, [1, 2, 3]⟩, [], 2, 1⟩ else none
      procs := fun p => if p = 0 then some { PCB.new.open_ [] 0 2 with
        openFileTable := update (PCB.new.open_ [] 0 2).openFileTable 2 (.ptr ⟨[], 0, position, 2⟩) }
        else none }
    diskBuffer := fun _ => 0
    current := 0
    next := 1
    bitmap := (⟨MAX_PROCS, fun _ => 0⟩ : BitMap).mark 0
    pid := fun _ => 0
    result := 0
    output := [] }

/-- Four bytes across the end of a page. -/
theorem transfers_range_two_pages :
    (∃ s' f', (myWrite (stubEnv fun _ => 0) 126 (4 : ℕ) 2).run (oneUnixFile 1) = some ((), s') ∧
      WritesRange (oneUnixFile 1) s' ⟨[Memory.newEntry 0 5, Memory.newEntry 1 0]⟩ ⟨[], 0, 1, 2⟩
        ⟨0, [1, 2, 3]⟩ f' 126 4 2) ∧
    ∃ s', (myRead (stubEnv fun _ => 0) 126 (4 : ℕ) 2).run (oneUnixFile 1) = some ((), s') ∧
      ReadsRange (oneUnixFile 1) s' ⟨[Memory.newEntry 0 5, Memory.newEntry 1 0]⟩ ⟨[], 0, 1, 2⟩
        ⟨0, [1, 2, 3]⟩ 126 2 2 := by
  have hhas : (oneUnixFile 1).HasFile 2 ⟨[], 0, 1, 2⟩ := ⟨_, rfl, rfl⟩
  have hin : AddrSpace.Contains ⟨[Memory.newEntry 0 5, Memory.newEntry 1 0]⟩ 126 4 := by decide
  obtain ⟨hwrite, hread⟩ := transfers_range rfl (by decide) (by decide) hin hhas (by decide)
    (by decide) rfl (by decide) fun _ => 0
  exact ⟨hwrite (by decide), hread (by decide) (by decide)⟩

/-- At the last position that is an `int`, `Write` of one byte leaves a negative position, and
`Read` of a range over the end of a page stops at the assertion of `Lseek`. -/
theorem exists_not_transfers_range :
    (oneUnixFile 2147483647).memory.spaces 0 =
      some ⟨[Memory.newEntry 0 5, Memory.newEntry 1 0]⟩ ∧
    (⟨[Memory.newEntry 0 5, Memory.newEntry 1 0]⟩ : AddrSpace).Contains 126 4 ∧
    (oneUnixFile 2147483647).HasFile 2 ⟨[], 0, 2147483647, 2⟩ ∧
    (oneUnixFile 2147483647).files.openFile ⟨[], 0, 2147483647, 2⟩ = some ⟨0, [1, 2, 3]⟩ ∧
    (∃ s', (myWrite (stubEnv fun _ => 0) 126 (1 : ℕ) 2).run (oneUnixFile 2147483647) =
      some ((), s') ∧ s'.HasFile 2 ⟨[], 0, -2147483648, 2⟩) ∧
    (myRead (stubEnv fun _ => 0) 126 (4 : ℕ) 2).run (oneUnixFile 2147483647) = none := by
  refine ⟨rfl, by decide, ⟨_, rfl, rfl⟩, rfl, ⟨_, rfl, _, rfl, rfl⟩, ?_⟩
  rw [← Option.isNone_iff_eq_none]
  decide +kernel

end Sys

end Nachos.Userprog
