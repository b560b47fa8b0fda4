import Mathlib.Data.Set.Card
import Nachos.Threads.Kernel
import Nachos.Userprog.BitMap

/-! # Open files

`ProcessManager` keeps a table of open files for the system, and each `PCB` one
for its process. An entry of the system table counts its users, but the count
is set when the entry is made and not when another process opens the file. The
tables agree as long as no process opens a file that another one has open,
closes a file that it has not opened, or exits with open files.
-/

namespace Nachos.Userprog

open Function Transition Threads

abbrev FileName := List UInt8

/-- An entry of an array of pointers that `new` does not initialise. -/
inductive Slot (α : Type*)
  | garbage
  | null
  | ptr (a : α)
  deriving DecidableEq

variable {φ : Type}

structure SysOpenFile (φ : Type) where
  openFile : Option φ
  fileName : FileName
  fd : ℕ
  numUsers : ℤ

/-- `UserOpenFile`, with the address of its `SysOpenFile`. -/
structure UserOpenFile where
  fileName : FileName
  sysOpenFile : ℕ
  position : ℤ
  fd : ℕ

structure PCB where
  openFileTable : ℕ → Slot UserOpenFile
  openFileMap : BitMap

/-- The tables of `ProcessManager` and of the live processes. -/
structure OpenFiles (φ : Type) where
  /-- The `SysOpenFile` objects by their addresses. -/
  heap : ℕ → Option (SysOpenFile φ)
  /-- The address of the next object. -/
  next : ℕ
  sysOpenFileTable : ℕ → Slot ℕ
  sysOpenFileMap : BitMap
  /-- The thread of a process has the number of the process. -/
  fsLock : ℕ → Lock
  /-- The live processes. -/
  procs : ℕ → Option PCB
  /-- The process is in `Close` of a descriptor and waits for `fsLock[fd]`. -/
  waiting : ℕ → Option ℕ

def SYS_MAX_OPEN_FILES : ℕ := 20

def MAX_OPEN_FILES : ℕ := 20

namespace PCB

def new : PCB := ⟨fun _ => .garbage, ⟨MAX_OPEN_FILES, fun _ => 0⟩⟩

/-- `PCB::getOpenFile(char*, SysOpenFile*)`, for the object with descriptor `fd`. -/
def open_ (name : FileName) (file fd : ℕ) (pcb : PCB) : PCB :=
  if pcb.openFileMap.test fd then pcb
  else
    { openFileMap := pcb.openFileMap.mark fd
      openFileTable := update pcb.openFileTable fd (.ptr ⟨name, file, 0, fd⟩) }

/-- `PCB::getOpenFile(int)`, with no result where the assertion of `Test` fails. -/
def getOpenFile (fd : ℤ) (pcb : PCB) : Option (Slot UserOpenFile) :=
  if 0 ≤ fd ∧ fd < MAX_OPEN_FILES then
    some (if pcb.openFileMap.test fd.toNat then pcb.openFileTable fd.toNat else .null)
  else none

/-- `PCB::closeFile`, behind the assertion of `Clear`; an entry that was never set is deleted as
if it pointed to an object. -/
def closeFile (fd : ℕ) (pcb : PCB) : Option PCB :=
  match pcb.openFileTable fd with
  | .garbage => none
  | _ => some
    { openFileMap := pcb.openFileMap.clear fd
      openFileTable := update pcb.openFileTable fd .null }

@[simp] theorem test_new {fd : ℕ} : PCB.new.openFileMap.test fd = false := by
  simp [new, BitMap.test]

end PCB

namespace OpenFiles

/-- `file->sysOpenFile->openFile`, with `none` for a pointer to no object. -/
def openFile (file : UserOpenFile) (s : OpenFiles φ) : Option φ :=
  (s.heap file.sysOpenFile).bind (·.openFile)

/-- The object that an entry of the system table points to. -/
def fileAt (s : OpenFiles φ) (fd : ℕ) : Option (SysOpenFile φ) :=
  match s.sysOpenFileTable fd with
  | .ptr file => s.heap file
  | _ => none

/-- The loop of `ProcessManager::getFD` over some descriptors, with `none` in place of `-1`. It has
no result if a marked entry does not point to an object. -/
def getFDIn (name : FileName) (s : OpenFiles φ) : List ℕ → Option (Option ℕ)
  | [] => some none
  | i :: is =>
    if s.sysOpenFileMap.test i then
      (s.fileAt i).bind fun f => if f.fileName = name then some (some i) else getFDIn name s is
    else getFDIn name s is

/-- `ProcessManager::getFD`, which skips `CIN` and `COUT`. -/
def getFD (name : FileName) (s : OpenFiles φ) : Option (Option ℕ) :=
  s.getFDIn name ((List.range (SYS_MAX_OPEN_FILES - 2)).map (· + 2))

/-- `ProcessManager::getOpenFile(char*, OpenFile*)`: the address of the object, or `none` for
`NULL`. -/
def getOpenFile (name : FileName) (openFile : Option φ) (s : OpenFiles φ) :
    Option (Option ℕ × OpenFiles φ) :=
  (s.getFD name).bind fun fd =>
    match fd with
    | some fd =>
      match s.sysOpenFileTable fd with
      | .garbage => none
      | .null => some (none, s)
      | .ptr file => some (some file, s)
    | none =>
      match s.sysOpenFileMap.find with
      | none => some (none, s)
      | some (fd, map) =>
        some (some s.next, { s with
          heap := update s.heap s.next (some ⟨openFile, name, fd, 1⟩)
          next := s.next + 1
          sysOpenFileTable := update s.sysOpenFileTable fd (.ptr s.next)
          sysOpenFileMap := map })

/-- `fsLock[fd]->Acquire()`, where it does not sleep. -/
def acquire (p fd : ℕ) (s : OpenFiles φ) : OpenFiles φ :=
  { s with fsLock := update s.fsLock fd (.acquired p) }

/-- `ProcessManager::closeFile`, from where `fsLock[fd]->Acquire()` returns. -/
def closeFile (p fd : ℕ) (s : OpenFiles φ) : Option (OpenFiles φ) :=
  match s.sysOpenFileTable fd with
  | .garbage => none
  -- The routine returns without `fsLock[fd]->Release()`.
  | .null => some s
  | .ptr file =>
    (s.heap file).map fun f =>
      let s := { s with fsLock := update s.fsLock fd ((s.fsLock fd).release p) }
      if f.numUsers - 1 = 0 then
        { s with
          heap := update s.heap file none
          sysOpenFileTable := update s.sysOpenFileTable fd .null
          sysOpenFileMap := s.sysOpenFileMap.clear fd }
      else { s with heap := update s.heap file (some { f with numUsers := f.numUsers - 1 }) }

/-- What `myOpen` does to the tables when the file system has returned `openFile`. -/
def myOpen (p : ℕ) (name : FileName) (openFile : Option φ) (s : OpenFiles φ) :
    Option (OpenFiles φ) := do
  let pcb ← s.procs p
  let (file, s) ← s.getOpenFile name openFile
  match file with
  | none => some s
  | some file =>
    let f ← s.heap file
    some { s with procs := update s.procs p (some (pcb.open_ name file f.fd)) }

def myClose (p : ℕ) (fd : ℤ) (s : OpenFiles φ) : Option (OpenFiles φ) := do
  let pcb ← s.procs p
  if 0 ≤ fd ∧ fd < MAX_OPEN_FILES then
    let pcb ← pcb.closeFile fd.toNat
    let s := { s with procs := update s.procs p (some pcb) }
    if (s.fsLock fd.toNat).admits p then (s.acquire p fd.toNat).closeFile p fd.toNat
    else some { s with waiting := update s.waiting p (some fd.toNat) }
  else none

/-- `myClose` goes on when `fsLock[fd]` has been released. -/
def resumeClose (p : ℕ) (s : OpenFiles φ) : Option (OpenFiles φ) := do
  let fd ← s.waiting p
  if (s.fsLock fd).admits p then
    ({ s with waiting := update s.waiting p none }.acquire p fd).closeFile p fd
  else none

/-- What `myExit` does to the tables: `~PCB` does not look at the open files. -/
def myExit (p : ℕ) (s : OpenFiles φ) : Option (OpenFiles φ) :=
  (s.procs p).map fun _ => { s with procs := update s.procs p none }

inductive Action (φ : Type)
  /-- A process is created. -/
  | start (p : ℕ)
  | open_ (p : ℕ) (name : FileName) (openFile : Option φ)
  | close (p : ℕ) (fd : ℤ)
  /-- A process that waits in `Close` goes on. -/
  | resume (p : ℕ)
  | exit (p : ℕ)

/-- The process that makes the system call. -/
def Action.process : Action φ → ℕ
  | .start p | .open_ p _ _ | .close p _ | .resume p | .exit p => p

def step (s : OpenFiles φ) (a : Action φ) : Option (OpenFiles φ) :=
  match a with
  | .resume p => s.resumeClose p
  | a =>
    if (s.waiting a.process).isSome then none
    else
      match a with
      | .start p =>
        if (s.procs p).isNone then some { s with procs := update s.procs p (some .new) } else none
      | .open_ p name openFile => s.myOpen p name openFile
      | .close p fd => s.myClose p fd
      | .resume _ => none
      | .exit p => s.myExit p

/-- The state that `ProcessManager::ProcessManager` leaves. -/
structure Initial (s : OpenFiles φ) : Prop where
  sysOpenFileTable : ∀ fd, s.sysOpenFileTable fd = .garbage
  numBits : s.sysOpenFileMap.numBits = SYS_MAX_OPEN_FILES
  sysOpenFileMap : ∀ fd < SYS_MAX_OPEN_FILES, s.sysOpenFileMap.test fd = decide (fd < 2)
  fsLock : ∀ fd, (s.fsLock fd).locked = false
  procs : ∀ p, s.procs p = none
  waiting : ∀ p, s.waiting p = none

/-- Any number of processes make `Open`, `Close` and `Exit` system calls. -/
def system : System (OpenFiles φ) (Action φ) := .ofStep Initial step

/-- The process is live and has the descriptor marked. -/
def marks (s : OpenFiles φ) (p fd : ℕ) : Bool := (s.procs p).any (·.openFileMap.test fd)

/-- The live processes that have the descriptor marked. -/
def users (s : OpenFiles φ) (fd : ℕ) : Set ℕ := { p | s.marks p fd = true }

/-- A process opens a file only if no other process has it open, closes what it has opened, and
closes all its files before it exits. -/
def Careful (s : OpenFiles φ) : Action φ → Prop
  | .start _ => True
  | .open_ p name _ => ∀ fd ∈ (s.getFD name).join, s.marks p fd = true
  | .close p fd => s.marks p fd.toNat = true
  | .resume _ => True
  | .exit p => ∀ fd < MAX_OPEN_FILES, s.marks p fd = false

instance (s : OpenFiles φ) : ∀ a, Decidable (s.Careful a)
  | .start _ => .isTrue trivial
  | .open_ p name _ => inferInstanceAs (Decidable (∀ fd ∈ (s.getFD name).join, s.marks p fd = true))
  | .close p fd => inferInstanceAs (Decidable (s.marks p fd.toNat = true))
  | .resume _ => .isTrue trivial
  | .exit p => inferInstanceAs (Decidable (∀ fd < MAX_OPEN_FILES, s.marks p fd = false))

variable {s s' : OpenFiles φ} {a : Action φ} {p q fd fd' file : ℕ} {name : FileName}
  {openFile : Option φ} {pcb : PCB}

/-! ## The tables agree -/

/-- A descriptor of a user leads to the object of the system table. -/
def Linked (s : OpenFiles φ) (p fd : ℕ) : Prop :=
  ∃ pcb u, s.procs p = some pcb ∧ pcb.openFileTable fd = .ptr u ∧
    s.sysOpenFileTable fd = .ptr u.sysOpenFile

def Single (s : OpenFiles φ) (fd : ℕ) : Prop :=
  ∃ file f p, s.sysOpenFileTable fd = .ptr file ∧ s.heap file = some f ∧ f.fd = fd ∧
    f.numUsers = 1 ∧ s.users fd = {p}

structure Inv (s : OpenFiles φ) : Prop where
  numBits : s.sysOpenFileMap.numBits = SYS_MAX_OPEN_FILES
  console : s.sysOpenFileMap.test 0 = true ∧ s.sysOpenFileMap.test 1 = true
  fsLock : ∀ fd, (s.fsLock fd).locked = false
  waiting : ∀ p, s.waiting p = none
  next : ∀ fd file, s.sysOpenFileTable fd = .ptr file → file < s.next
  user : ∀ p fd, fd < MAX_OPEN_FILES → s.marks p fd = true →
    2 ≤ fd ∧ s.sysOpenFileMap.test fd = true ∧ s.Linked p fd
  entry : ∀ fd, 2 ≤ fd → fd < SYS_MAX_OPEN_FILES → s.sysOpenFileMap.test fd = true → s.Single fd

theorem getFDIn_eq {is : List ℕ} (h : s.getFDIn name is = some (some fd)) :
    fd ∈ is ∧ s.sysOpenFileMap.test fd = true ∧ ∃ f, s.fileAt fd = some f := by
  induction is with
  | nil => cases h
  | cons i is ih =>
    simp only [getFDIn] at h
    split at h
    case isTrue ht =>
      obtain ⟨f, hf, h⟩ := Option.bind_eq_some_iff.mp h
      split at h
      · obtain rfl := Option.some.inj (Option.some.inj h)
        exact ⟨List.mem_cons_self .., ht, f, hf⟩
      · exact ⟨List.mem_cons_of_mem _ (ih h).1, (ih h).2⟩
    case isFalse => exact ⟨List.mem_cons_of_mem _ (ih h).1, (ih h).2⟩

theorem getFD_ptr (h : s.getFD name = some (some fd)) :
    ∃ file, s.sysOpenFileTable fd = .ptr file := by
  obtain ⟨-, -, f, hf⟩ := getFDIn_eq h
  unfold fileAt at hf
  split at hf
  case h_1 file htab => exact ⟨file, htab⟩
  case h_2 => cases hf

theorem getFD_eq (h : s.getFD name = some (some fd)) :
    2 ≤ fd ∧ fd < SYS_MAX_OPEN_FILES ∧ s.sysOpenFileMap.test fd = true := by
  obtain ⟨hm, ht, -⟩ := getFDIn_eq h
  obtain ⟨j, hj, rfl⟩ := List.mem_map.mp hm
  rw [List.mem_range] at hj
  exact ⟨by omega, by omega, ht⟩

theorem getOpenFile_eq_none_iff {r : Option ℕ}
    (h : s.getOpenFile name openFile = some (r, s')) :
    r = none ↔ s.getFD name = some none ∧ s.sysOpenFileMap.find = none := by
  obtain ⟨fd, hfd, h⟩ := Option.bind_eq_some_iff.mp h
  rw [hfd]
  cases fd with
  | none =>
    cases hm : s.sysOpenFileMap.find with
    | none =>
      simp only [hm, Option.some.injEq, Prod.mk.injEq] at h
      simp [← h.1]
    | some r =>
      simp only [hm, Option.some.injEq, Prod.mk.injEq] at h
      simp [← h.1]
  | some fd =>
    obtain ⟨file, htab⟩ := getFD_ptr hfd
    simp only [htab, Option.some.injEq, Prod.mk.injEq] at h
    simp [← h.1]

theorem marks_update : marks { s with procs := update s.procs p (some pcb) } q fd =
    if q = p then pcb.openFileMap.test fd else s.marks q fd := by
  by_cases h : q = p
  · simp [marks, h]
  · simp [marks, h]

def opened (p : ℕ) (name : FileName) (openFile : Option φ) (pcb : PCB) (fd : ℕ)
    (s : OpenFiles φ) : OpenFiles φ :=
  { s with
    heap := update s.heap s.next (some ⟨openFile, name, fd, 1⟩)
    next := s.next + 1
    sysOpenFileTable := update s.sysOpenFileTable fd (.ptr s.next)
    sysOpenFileMap := s.sysOpenFileMap.mark fd
    procs := update s.procs p (some
      { openFileMap := pcb.openFileMap.mark fd
        openFileTable := update pcb.openFileTable fd (.ptr ⟨name, s.next, 0, fd⟩) }) }

def closed (p : ℕ) (pcb : PCB) (fd file : ℕ) (s : OpenFiles φ) : OpenFiles φ :=
  { s with
    heap := update s.heap file none
    sysOpenFileTable := update s.sysOpenFileTable fd .null
    sysOpenFileMap := s.sysOpenFileMap.clear fd
    fsLock := update s.fsLock fd ⟨false, none⟩
    procs := update s.procs p (some
      { openFileMap := pcb.openFileMap.clear fd
        openFileTable := update pcb.openFileTable fd .null }) }

inductive Effect (s : OpenFiles φ) : Action φ → OpenFiles φ → Prop
  | start {p : ℕ} : (s.procs p).isNone = true →
      Effect s (.start p) { s with procs := update s.procs p (some .new) }
  | stay {p : ℕ} {name : FileName} {openFile : Option φ} : Effect s (.open_ p name openFile) s
  | open_ {p fd : ℕ} {name : FileName} {openFile : Option φ} {pcb : PCB} :
      s.procs p = some pcb → 2 ≤ fd → fd < SYS_MAX_OPEN_FILES →
      s.sysOpenFileMap.test fd = false →
      Effect s (.open_ p name openFile) (s.opened p name openFile pcb fd)
  | close {p fd file : ℕ} {pcb : PCB} {f : SysOpenFile φ} : s.procs p = some pcb →
      fd < MAX_OPEN_FILES → s.marks p fd = true → s.sysOpenFileTable fd = .ptr file →
      s.heap file = some f → f.fd = fd → s.users fd = {p} →
      Effect s (.close p fd) (s.closed p pcb fd file)
  | exit {p : ℕ} : (∀ fd < MAX_OPEN_FILES, s.marks p fd = false) →
      Effect s (.exit p) { s with procs := update s.procs p none }

theorem marks_eq_of_procs (h : s.procs p = some pcb) :
    s.marks p fd = pcb.openFileMap.test fd := by simp [marks, h]

theorem effect_open (h : Inv s) (hc : s.Careful (.open_ p name openFile))
    (hs : s.myOpen p name openFile = some s') : Effect s (.open_ p name openFile) s' := by
  simp only [myOpen, Option.bind_eq_bind, Option.bind_eq_some_iff, Prod.exists, getOpenFile] at hs
  obtain ⟨pcb, hp, file, s₁, ⟨r, hr, hg⟩, hs⟩ := hs
  cases r with
  | some fd =>
    -- The file is open, and its only user is the caller.
    obtain ⟨h₂, hlt, ht⟩ := getFD_eq hr
    obtain ⟨o, f, q, htab, hf, hfd, -⟩ := h.entry fd h₂ hlt ht
    have hm := hc fd (by simp [hr])
    simp only [htab, Option.some.injEq, Prod.mk.injEq] at hg
    obtain ⟨rfl, rfl⟩ := hg
    simp only [hf, Option.bind_some, Option.some.injEq, hfd] at hs
    have hopen : pcb.open_ name o fd = pcb := if_pos (by rwa [marks_eq_of_procs hp] at hm)
    have he : s' = s := by
      rw [← hs, hopen, ← hp, update_eq_self]
    rw [he]
    exact .stay
  | none =>
    cases hfind : s.sysOpenFileMap.find with
    | none =>
      simp only [hfind, Option.some.injEq, Prod.mk.injEq] at hg
      obtain ⟨rfl, rfl⟩ := hg
      obtain rfl := Option.some.inj hs
      exact .stay
    | some r =>
      obtain ⟨fd, map⟩ := r
      simp only [hfind, Option.some.injEq, Prod.mk.injEq] at hg
      obtain ⟨rfl, rfl⟩ := hg
      obtain ⟨hlt, ht, -, rfl⟩ := BitMap.find_eq_some_iff.mp hfind
      rw [h.numBits] at hlt
      have h₂ : 2 ≤ fd := by
        have h0 : fd ≠ 0 := by
          rintro rfl
          simp [h.console.1] at ht
        have h1 : fd ≠ 1 := by
          rintro rfl
          simp [h.console.2] at ht
        omega
      have hno : ¬ pcb.openFileMap.test fd = true := by
        intro hm
        rw [← marks_eq_of_procs hp] at hm
        simp [(h.user p fd hlt hm).2.1] at ht
      simp only [update_self, Option.bind_some, Option.some.injEq, PCB.open_, if_neg hno] at hs
      exact hs ▸ .open_ hp h₂ hlt ht

theorem effect_close {fd : ℤ} (h : Inv s) (hc : s.Careful (.close p fd))
    (hs : s.myClose p fd = some s') : Effect s (.close p fd) s' := by
  simp only [myClose, Option.bind_eq_bind, Option.bind_eq_some_iff,
    Option.ite_none_right_eq_some] at hs
  obtain ⟨pcb, hp, ⟨h0, hlt⟩, pcb', hpcb, hs⟩ := hs
  obtain ⟨n, rfl⟩ := Int.eq_ofNat_of_zero_le h0
  simp only [Careful, Int.toNat_natCast] at hc hs hpcb
  have hlt' : n < MAX_OPEN_FILES := by exact_mod_cast hlt
  obtain ⟨h₂, ht, pcb₁, u, hp₁, hu, htab⟩ := h.user p n hlt' hc
  obtain rfl : pcb = pcb₁ := Option.some.inj (hp.symm.trans hp₁)
  obtain ⟨file, f, q, htab', hf, hfd, hone, husers⟩ := h.entry n h₂ hlt' ht
  obtain rfl : p = q := by
    have : p ∈ s.users n := hc
    rwa [husers] at this
  simp only [PCB.closeFile, hu, Option.some.injEq] at hpcb
  subst hpcb
  have hfree : (s.fsLock n).admits p = true := by simp [Lock.admits, h.fsLock n]
  simp only [hfree, ↓reduceIte, closeFile, acquire, htab', hf, Option.map_some, Option.some.injEq,
    hone, sub_self, Lock.release, Lock.acquired, update_self, update_idem, BEq.rfl] at hs
  exact hs ▸ .close hp hlt' hc htab' hf hfd husers

theorem effect_step (h : Inv s) (hc : s.Careful a) (hs : s.step a = some s') :
    Effect s a s' := by
  cases a with
  | start p =>
    simp only [step, Option.ite_none_left_eq_some, Option.ite_none_right_eq_some,
      Option.some.injEq] at hs
    obtain ⟨-, hp, rfl⟩ := hs
    exact .start hp
  | open_ p name openFile => exact effect_open h hc (Option.ite_none_left_eq_some.mp hs).2
  | close p fd => exact effect_close h hc (Option.ite_none_left_eq_some.mp hs).2
  | resume p =>
    -- no process waits
    simp [step, resumeClose, h.waiting] at hs
  | exit p =>
    obtain ⟨pcb, -, rfl⟩ := Option.map_eq_some_iff.mp (Option.ite_none_left_eq_some.mp hs).2
    exact .exit hc

theorem marks_opened (hp : s.procs p = some pcb) :
    (s.opened p name openFile pcb fd).marks q fd' =
      (decide (q = p ∧ fd' = fd) || s.marks q fd') := by
  by_cases hq : q = p
  · subst hq
    simp [opened, marks, hp, BitMap.test_mark, eq_comm]
  · simp [opened, marks, hq]

theorem marks_closed (hp : s.procs p = some pcb) :
    (s.closed p pcb fd file).marks q fd' =
      (!decide (q = p ∧ fd' = fd) && s.marks q fd') := by
  by_cases hq : q = p
  · subst hq
    simp [closed, marks, hp, BitMap.test_clear, eq_comm]
  · simp [closed, marks, hq]

namespace Inv

theorem start (h : Inv s) (hp : (s.procs p).isNone = true) :
    Inv { s with procs := update s.procs p (some .new) } := by
  have hm : ∀ q fd, marks { s with procs := update s.procs p (some .new) } q fd =
      s.marks q fd := by
    intro q fd
    rw [marks_update]
    split
    case isTrue he => simp [he, marks, Option.isNone_iff_eq_none.mp hp]
    case isFalse => rfl
  refine ⟨h.numBits, h.console, h.fsLock, h.waiting, h.next, fun q fd hlt hq => ?_,
    fun fd h₂ hlt ht => ?_⟩
  · rw [hm] at hq
    obtain ⟨h₂, ht, pcb, u, hpcb, hu⟩ := h.user q fd hlt hq
    have hne : q ≠ p := by
      rintro rfl
      simp [hpcb] at hp
    exact ⟨h₂, ht, pcb, u, by simpa [update_of_ne hne] using hpcb, hu⟩
  · obtain ⟨file, f, r, hf⟩ := h.entry fd h₂ hlt ht
    exact ⟨file, f, r, by simpa only [users, hm] using hf⟩

theorem opened (h : Inv s) (hp : s.procs p = some pcb) (h₂ : 2 ≤ fd)
    (hlt : fd < SYS_MAX_OPEN_FILES) (ht : s.sysOpenFileMap.test fd = false) :
    Inv (s.opened p name openFile pcb fd) := by
  have hno : ∀ q, s.marks q fd = false := by
    intro q
    by_contra hq
    simp [(h.user q fd hlt (by simpa using hq)).2.1] at ht
  refine ⟨h.numBits, ?_, h.fsLock, h.waiting, fun fd' file hf => ?_, fun q fd' hlt' hq => ?_,
    fun fd' h₂' hlt' ht' => ?_⟩
  · simp [OpenFiles.opened, BitMap.test_mark, h.console]
  · by_cases he : fd' = fd
    · subst he
      simp only [OpenFiles.opened, update_self, Slot.ptr.injEq] at hf
      exact hf ▸ Nat.lt_succ_self _
    · simp only [OpenFiles.opened, update_of_ne he] at hf
      exact Nat.lt_succ_of_lt (h.next fd' file hf)
  · by_cases he : fd' = fd
    · subst he
      obtain rfl : q = p := by simpa [marks_opened hp, hno] using hq
      exact ⟨h₂, by simp [OpenFiles.opened], _, _, update_self _ _ _, update_self _ _ _,
        update_self _ _ _⟩
    · rw [marks_opened hp] at hq
      obtain ⟨h₂', ht', pcb', u, hp', hu, hl⟩ := h.user q fd' hlt' (by simpa [he] using hq)
      refine ⟨h₂', by simp [OpenFiles.opened, BitMap.test_mark, ht'], ?_⟩
      have hl' : (s.opened p name openFile pcb fd).sysOpenFileTable fd' = .ptr u.sysOpenFile := by
        simpa [OpenFiles.opened, update_of_ne he] using hl
      by_cases hqp : q = p
      · subst hqp
        obtain rfl : pcb = pcb' := Option.some.inj (hp.symm.trans hp')
        exact ⟨_, u, update_self _ _ _, by simpa [update_of_ne he] using hu, hl'⟩
      · exact ⟨pcb', u, by simpa [OpenFiles.opened, update_of_ne hqp] using hp', hu, hl'⟩
  · by_cases he : fd' = fd
    · subst he
      refine ⟨s.next, _, p, update_self _ _ _, update_self _ _ _, rfl, rfl, ?_⟩
      ext q
      simp [users, marks_opened hp, hno]
    · have hold : s.sysOpenFileMap.test fd' = true := by
        simpa [OpenFiles.opened, BitMap.test_mark, Ne.symm he] using ht'
      obtain ⟨file, f, r, htab, hf, hfd, hone, hu⟩ := h.entry fd' h₂' hlt' hold
      have hfile : file ≠ s.next := Nat.ne_of_lt (h.next fd' file htab)
      refine ⟨file, f, r, by simpa [OpenFiles.opened, update_of_ne he] using htab,
        by simpa [OpenFiles.opened, update_of_ne hfile] using hf, hfd, hone, ?_⟩
      simpa [users, marks_opened hp, he] using hu

theorem closed {f : SysOpenFile φ} (h : Inv s) (hp : s.procs p = some pcb)
    (hlt : fd < MAX_OPEN_FILES) (hm : s.marks p fd = true)
    (hf : s.heap file = some f) (hfd : f.fd = fd) (hu : s.users fd = {p}) :
    Inv (s.closed p pcb fd file) := by
  have h₂ := (h.user p fd hlt hm).1
  have hne : ∀ {q fd'}, (s.closed p pcb fd file).marks q fd' = true →
      fd' ≠ fd ∧ s.marks q fd' = true := by
    intro q fd' hq
    rw [marks_closed hp] at hq
    simp only [Bool.and_eq_true, Bool.not_eq_true', decide_eq_false_iff_not, not_and] at hq
    refine ⟨?_, hq.2⟩
    rintro rfl
    have hmem : q ∈ s.users fd' := hq.2
    rw [hu] at hmem
    exact hq.1 hmem rfl
  refine ⟨h.numBits, ?_, fun fd' => ?_, h.waiting, fun fd' file' hf' => ?_,
    fun q fd' hlt' hq => ?_, fun fd' h₂' hlt' ht' => ?_⟩
  · simp [OpenFiles.closed, BitMap.test_clear, h.console, show fd ≠ 0 by omega,
      show fd ≠ 1 by omega]
  · by_cases he : fd' = fd
    · simp [OpenFiles.closed, he]
    · simpa [OpenFiles.closed, update_of_ne he] using h.fsLock fd'
  · by_cases he : fd' = fd
    · subst he
      simp [OpenFiles.closed] at hf'
    · exact h.next fd' file' (by simpa [OpenFiles.closed, update_of_ne he] using hf')
  · obtain ⟨he, hq⟩ := hne hq
    obtain ⟨h₂', ht', pcb', u, hp', hu', hl⟩ := h.user q fd' hlt' hq
    refine ⟨h₂', by simp [OpenFiles.closed, BitMap.test_clear, ht', Ne.symm he], ?_⟩
    have hl' : (s.closed p pcb fd file).sysOpenFileTable fd' = .ptr u.sysOpenFile := by
      simpa [OpenFiles.closed, update_of_ne he] using hl
    by_cases hqp : q = p
    · subst hqp
      obtain rfl : pcb = pcb' := Option.some.inj (hp.symm.trans hp')
      exact ⟨_, u, update_self _ _ _, by simpa [update_of_ne he] using hu', hl'⟩
    · exact ⟨pcb', u, by simpa [OpenFiles.closed, update_of_ne hqp] using hp', hu', hl'⟩
  · have he : fd' ≠ fd := by
      rintro rfl
      simp [OpenFiles.closed] at ht'
    have hold : s.sysOpenFileMap.test fd' = true := by
      simpa [OpenFiles.closed, BitMap.test_clear, Ne.symm he] using ht'
    obtain ⟨file', f', r, htab, hf', hfd', hone, hu'⟩ := h.entry fd' h₂' hlt' hold
    have hfile : file' ≠ file := by
      rintro rfl
      obtain rfl : f = f' := Option.some.inj (hf.symm.trans hf')
      exact he (hfd'.symm.trans hfd)
    refine ⟨file', f', r, by simpa [OpenFiles.closed, update_of_ne he] using htab,
      by simpa [OpenFiles.closed, update_of_ne hfile] using hf', hfd', hone, ?_⟩
    simpa [users, marks_closed hp, he] using hu'

theorem exit (h : Inv s) (hno : ∀ fd < MAX_OPEN_FILES, s.marks p fd = false) :
    Inv { s with procs := update s.procs p none } := by
  have hm : ∀ q fd, fd < MAX_OPEN_FILES →
      marks { s with procs := update s.procs p none } q fd = s.marks q fd := by
    intro q fd hlt
    by_cases hq : q = p
    · subst hq
      rw [hno fd hlt]
      simp [marks]
    · simp [marks, hq]
  refine ⟨h.numBits, h.console, h.fsLock, h.waiting, h.next, fun q fd hlt hq => ?_,
    fun fd h₂ hlt ht => ?_⟩
  · rw [hm q fd hlt] at hq
    obtain ⟨h₂, ht, pcb, u, hpcb, hu⟩ := h.user q fd hlt hq
    have hne : q ≠ p := by
      rintro rfl
      simp [hno fd hlt] at hq
    exact ⟨h₂, ht, pcb, u, by simpa [update_of_ne hne] using hpcb, hu⟩
  · obtain ⟨file, f, r, hf⟩ := h.entry fd h₂ hlt ht
    exact ⟨file, f, r, by simpa only [users, hm _ fd hlt] using hf⟩

theorem effect (h : Inv s) (he : Effect s a s') : Inv s' := by
  cases he with
  | start hp => exact h.start hp
  | stay => exact h
  | open_ hp h₂ hlt ht => exact h.opened hp h₂ hlt ht
  | close hp hlt hm _ hf hfd hu => exact h.closed hp hlt hm hf hfd hu
  | exit hno => exact h.exit hno

theorem of_initial (h : s.Initial) : Inv s := by
  refine ⟨h.numBits, ?_, h.fsLock, h.waiting, fun fd file hf => ?_, fun p fd _ hm => ?_,
    fun fd h₂ hlt ht => ?_⟩
  · simp [h.sysOpenFileMap 0 (by decide), h.sysOpenFileMap 1 (by decide)]
  · simp [h.sysOpenFileTable] at hf
  · simp [marks, h.procs] at hm
  · rw [h.sysOpenFileMap fd hlt, decide_eq_true_eq] at ht
    omega

end Inv

theorem inv_of_reachable (h : Reachable (system.guard Careful) s) : Inv s :=
  h.invariant (S := system.guard Careful) (P := Inv) (fun _ => Inv.of_initial)
    fun _ _ _ hi hs => hi.effect (effect_step hi hs.1 hs.2)

theorem freed_iff (h : Inv s) (he : Effect s a s') (h₂ : 2 ≤ fd) (hlt : fd < SYS_MAX_OPEN_FILES)
    (ht : s.sysOpenFileMap.test fd = true) :
    s'.sysOpenFileMap.test fd = false ↔
      ∃ p, s.users fd = {p} ∧ (a = .close p fd ∨ a = .exit p) := by
  obtain ⟨-, -, r, -, -, -, -, hr⟩ := h.entry fd h₂ hlt ht
  have huser : ∀ p, s.users fd = {p} → s.marks p fd = true := by
    intro p hp
    have : p ∈ s.users fd := by simp [hp]
    exact this
  cases he with
  | start => simp [ht]
  | stay => simp [ht]
  | open_ => simp [opened, BitMap.test_mark, ht]
  | @close p fd' _ _ _ _ _ hm _ _ _ hu =>
    simp only [closed, BitMap.test_clear, ht, Bool.and_true, Bool.not_eq_false',
      decide_eq_true_eq, Action.close.injEq, reduceCtorEq, or_false]
    constructor
    · rintro rfl
      exact ⟨p, hu, rfl, rfl⟩
    · rintro ⟨q, -, -, he⟩
      exact_mod_cast he
  | @exit p hno =>
    simp only [ht, Bool.true_eq_false, reduceCtorEq, false_or, Action.exit.injEq, false_iff]
    rintro ⟨q, hq, rfl⟩
    exact absurd (huser p hq) (by simp [hno fd hlt])

/-- In every run of careful processes: each marked entry of the system table from 2 on counts the
live processes that have its descriptor marked; a descriptor that a live process has marked is
marked in the system table, with the object that the process points to; and a step frees an
entry exactly when in it the last user closes the file or exits. -/
theorem openFiles_agree_of_careful (h : Reachable (system.guard Careful) s) :
    (∀ fd, 2 ≤ fd → fd < SYS_MAX_OPEN_FILES → s.sysOpenFileMap.test fd = true →
      ∃ f, s.fileAt fd = some f ∧ ∃ n : ℕ, f.numUsers = n ∧ (s.users fd).encard = n) ∧
    (∀ p fd, fd < MAX_OPEN_FILES → s.marks p fd = true →
      s.sysOpenFileMap.test fd = true ∧ s.Linked p fd) ∧
    ∀ a s', s.Careful a → s.step a = some s' →
      ∀ fd, 2 ≤ fd → fd < SYS_MAX_OPEN_FILES → s.sysOpenFileMap.test fd = true →
        (s'.sysOpenFileMap.test fd = false ↔
          ∃ p, s.users fd = {p} ∧ (a = .close p fd ∨ a = .exit p)) := by
  have hi := inv_of_reachable h
  refine ⟨fun fd h₂ hlt ht => ?_, fun p fd hlt hm => (hi.user p fd hlt hm).2,
    fun a s' hc hs fd h₂ hlt ht => freed_iff hi (effect_step hi hc hs) h₂ hlt ht⟩
  obtain ⟨file, f, p, htab, hf, -, hone, hu⟩ := hi.entry fd h₂ hlt ht
  refine ⟨f, by simp [fileAt, htab, hf], 1, by simp [hone], ?_⟩
  rw [hu, Set.encard_singleton]
  rfl

def boot : OpenFiles φ where
  heap _ := none
  next := 0
  sysOpenFileTable _ := .garbage
  sysOpenFileMap := ((⟨SYS_MAX_OPEN_FILES, fun _ => 0⟩ : BitMap).mark 0).mark 1
  fsLock _ := ⟨false, none⟩
  procs _ := none
  waiting _ := none

theorem initial_boot : (boot : OpenFiles φ).Initial where
  sysOpenFileTable _ := rfl
  numBits := rfl
  sysOpenFileMap := by
    have h : ∀ fd < SYS_MAX_OPEN_FILES,
        BitMap.test (((⟨SYS_MAX_OPEN_FILES, fun _ => 0⟩ : BitMap).mark 0).mark 1) fd =
          decide (fd < 2) := by decide
    exact h
  fsLock _ := rfl
  procs _ := rfl
  waiting _ := rfl

/-- Process 0 opens a file; it is the only user. -/
theorem openFiles_agree_of_careful_open :
    ∃ s : OpenFiles Unit, Reachable (system.guard Careful) s ∧ s.marks 0 2 = true ∧
      ∃ f, s.fileAt 2 = some f ∧ ∃ n : ℕ, f.numUsers = n ∧ (s.users 2).encard = n := by
  have hs : (exec (guarded Careful step) (boot : OpenFiles Unit)
      [.start 0, .open_ 0 [102] (some ())]).any (fun s => s.marks 0 2 && s.sysOpenFileMap.test 2) =
        true := by
    decide +kernel
  obtain ⟨s, hr, ht⟩ := run_of_any_exec (I := Initial) hs
  rw [← guard_ofStep] at hr
  have hr' : Reachable (system.guard Careful) s := ⟨boot, _, initial_boot, hr⟩
  rw [Bool.and_eq_true] at ht
  exact ⟨s, hr', ht.1, (openFiles_agree_of_careful hr').1 2 (by decide) (by decide) ht.2⟩

/-- Two processes open a file; its entry has one user. -/
theorem not_openFiles_agree :
    ∃ s : OpenFiles Unit, Reachable system s ∧ s.sysOpenFileMap.test 2 = true ∧
      s.marks 0 2 = true ∧ s.marks 1 2 = true ∧
      ¬ ∃ f, s.fileAt 2 = some f ∧ ∃ n : ℕ, f.numUsers = n ∧ (s.users 2).encard = n := by
  have hs : (exec step (boot : OpenFiles Unit)
      [.start 0, .start 1, .open_ 0 [102] (some ()), .open_ 1 [102] (some ())]).any (fun s =>
        s.sysOpenFileMap.test 2 && s.marks 0 2 && s.marks 1 2 &&
          (s.fileAt 2).all fun f => f.numUsers == 1) = true := by
    decide +kernel
  obtain ⟨s, hr, ht⟩ := run_of_any_exec hs
  simp only [Bool.and_eq_true] at ht
  obtain ⟨⟨⟨h₂, h0⟩, h1⟩, hf⟩ := ht
  refine ⟨s, ⟨boot, _, initial_boot, hr⟩, h₂, h0, h1, ?_⟩
  rintro ⟨f, hfile, n, hn, hu⟩
  have hone : f.numUsers = 1 := by simpa [hfile] using hf
  have hle : ({0, 1} : Set ℕ).encard ≤ (s.users 2).encard := by
    refine Set.encard_le_encard ?_
    rintro p (rfl | rfl)
    · exact h0
    · exact h1
  rw [Set.encard_pair (by decide), hu] at hle
  have : (2 : ℕ) ≤ n := by exact_mod_cast hle
  omega

end OpenFiles

end Nachos.Userprog
