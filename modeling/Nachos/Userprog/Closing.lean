import Nachos.Userprog.Isolation

/-! # The `Close` system call

`ProcessManager::closeFile` counts a user less whoever calls it, and returns
without releasing the lock of a descriptor whose entry is `NULL`. Both show as
soon as the caller does not have the descriptor open, or another process has
closed it before.
-/

namespace Nachos.Userprog

open Function Command Transition Threads

namespace OpenFiles

variable {φ : Type} {s s' : OpenFiles φ} {p fd : ℕ} {pcb : PCB}

/-- The caller has the descriptor open, the system entry points to its object and the lock is free
or held by the caller. -/
def CloseFits (s : OpenFiles φ) (p fd : ℕ) : Prop :=
  (s.fsLock fd).admits p = true ∧
    (∃ pcb, s.procs p = some pcb ∧ pcb.openFileMap.test fd = true ∧
      pcb.openFileTable fd ≠ .garbage) ∧
    ∃ f, s.fileAt fd = some f

def SameEntry (s s' : OpenFiles φ) (fd : ℕ) : Prop :=
  s'.sysOpenFileTable fd = s.sysOpenFileTable fd ∧
    s'.sysOpenFileMap.test fd = s.sysOpenFileMap.test fd ∧ s'.fileAt fd = s.fileAt fd

theorem fileAt_eq_some {f : SysOpenFile φ} : s.fileAt fd = some f ↔
    ∃ file, s.sysOpenFileTable fd = .ptr file ∧ s.heap file = some f := by
  unfold fileAt
  cases hentry : s.sysOpenFileTable fd <;> simp

theorem closeFile_of_fileAt (h : ∃ f, s.fileAt fd = some f) :
    ∃ s', (s.acquire p fd).closeFile p fd = some s' ∧ (s'.fsLock fd).locked = false := by
  obtain ⟨f, hf⟩ := h
  obtain ⟨file, hentry, hheap⟩ := fileAt_eq_some.mp hf
  simp only [closeFile, acquire, hentry, hheap, Option.map_some]
  refine ⟨_, rfl, ?_⟩
  split <;> simp [Lock.release, Lock.acquired]

theorem exists_fileAt_of_closeFile (h : (s.acquire p fd).closeFile p fd = some s')
    (hlock : (s'.fsLock fd).locked = false) : ∃ f, s.fileAt fd = some f := by
  unfold closeFile at h
  split at h
  · cases h
  · obtain rfl := Option.some.inj h
    simp [acquire, Lock.acquired] at hlock
  · rename_i file hentry
    obtain ⟨f, hf, -⟩ := Option.map_eq_some_iff.mp h
    exact ⟨f, fileAt_eq_some.mpr ⟨file, hentry, hf⟩⟩

theorem not_sameEntry_closeFile {f : SysOpenFile φ} (hf : s.fileAt fd = some f)
    (h : (s.acquire p fd).closeFile p fd = some s') : s'.fileAt fd ≠ s.fileAt fd := by
  obtain ⟨file, hentry, hheap⟩ := fileAt_eq_some.mp hf
  simp only [closeFile, acquire, hentry, hheap, Option.map_some, Option.some.injEq] at h
  subst h
  rw [hf]
  split
  · simp [fileAt]
  · simp only [fileAt, hentry, update_self]
    intro heq
    have := congrArg SysOpenFile.numUsers (Option.some.inj heq)
    dsimp only at this
    omega

end OpenFiles

namespace Sys

variable {φ : Type} {s s' : Sys φ} {fd : ℕ} (content : φ → List UInt8) (input : ℕ → UInt8)

theorem run_atomically_quiet : (atomically (quietEnv content input)).run s = some ((), s) := by
  simp only [atomically, StateT.run_bind, run_setLevel_quiet, Option.bind_eq_bind, Option.bind_some]
  rfl

theorem run_acquire : (acquire (quietEnv content input) fd).run s =
    if (s.files.fsLock fd).admits s.current then
      some ((), { s with files := s.files.acquire s.current fd })
    else none := by
  by_cases h : (s.files.fsLock fd).admits s.current = true
  · simp only [acquire, StateT.run_bind, run_setLevel_quiet, Option.bind_eq_bind, Option.bind_some,
      StateT.run_get, Option.pure_def, h, ↓reduceIte, StateT.run_pure, StateT.run_modify]
  · have hothers : (external (quietEnv content input).others).run { s with level := .off } =
        some ((), { s with level := .off }) := rfl
    simp only [acquire, StateT.run_bind, run_setLevel_quiet, Option.bind_eq_bind, Option.bind_some,
      StateT.run_get, Option.pure_def, h, Bool.false_eq_true, ↓reduceIte, hothers]
    rfl

theorem run_closeFile : (closeFile (quietEnv content input) fd).run s =
    if (s.files.fsLock fd).admits s.current then
      ((s.files.acquire s.current fd).closeFile s.current fd).map
        fun files => ((), { s with files := files })
    else none := by
  unfold closeFile
  rw [StateT.run_bind, run_acquire]
  split
  case isFalse => rfl
  case isTrue =>
    simp only [StateT.run_bind, StateT.run_get, Option.pure_def, Option.bind_eq_bind,
      Option.bind_some, run_require, StateT.run_modify]
    cases hfiles : (s.files.acquire s.current fd).closeFile s.current fd with
    | none => rfl
    | some files =>
      simp only [Option.map_some, Option.bind_some]
      split
      · rfl
      · exact run_atomically_quiet content input

theorem run_closeUserFile {pcb : PCB} (hproc : s.files.procs s.current = some pcb)
    (hfd : fd < MAX_OPEN_FILES) :
    (closeUserFile fd).run s = (pcb.closeFile fd).map fun pcb => ((), { s with
      files := { s.files with procs := update s.files.procs s.current (some pcb) } }) := by
  have hrange : (0 : ℤ) ≤ fd ∧ (fd : ℤ) < MAX_OPEN_FILES := ⟨by omega, by exact_mod_cast hfd⟩
  simp only [closeUserFile, StateT.run_bind, StateT.run_get, Option.pure_def, Option.bind_eq_bind,
    Option.bind_some, hproc, run_require, Option.map_some, if_pos hrange, Int.toNat_natCast]
  cases pcb.closeFile fd <;> rfl

section Close

variable {pcb : PCB} (hproc : s.files.procs s.current = some pcb) (hfd : fd < MAX_OPEN_FILES)

include hproc hfd

/-- `Close` has no result if the entry of the caller was never set, or if it waits for the lock. -/
theorem run_myClose : (myClose (quietEnv content input) fd).run s =
    (pcb.closeFile fd).bind fun pcb =>
      if (s.files.fsLock fd).admits s.current then
        (OpenFiles.closeFile s.current fd (OpenFiles.acquire s.current fd
          { s.files with procs := update s.files.procs s.current (some pcb) })).map
            fun files => ((), { s with files := files })
      else none := by
  have hclose : myClose (quietEnv content input) fd = (do
      let oldLevel ← setLevel (quietEnv content input) .off
      (do closeUserFile fd; closeFile (quietEnv content input) fd)
      let _ ← setLevel (quietEnv content input) oldLevel) := by
    simp only [myClose, bind_assoc, Int.toNat_natCast]
  have huser := run_closeUserFile (s := { s with level := .off }) hproc hfd
  rw [hclose, run_between_setLevel, StateT.run_bind, huser]
  cases pcb.closeFile fd with
  | none => rfl
  | some pcb =>
    simp only [Option.map_some, Option.bind_eq_bind, Option.bind_some]
    rw [run_closeFile]
    split
    · rw [Option.map_map]
      rfl
    · rfl

end Close

/-- `Close` returns with the lock free, and changes neither another process nor the system entry if
the caller does not have the descriptor open. -/
def ClosesOwn (s : Sys φ) (fd : ℕ) : Prop :=
  ∀ content input, ∃ s', (myClose (quietEnv content input) fd).run s = some ((), s') ∧
    (s'.files.fsLock fd).locked = false ∧
    (s.files.marks s.current fd = false →
      (∀ q ≠ s.current, s'.files.procs q = s.files.procs q) ∧ s.files.SameEntry s'.files fd)

theorem closesOwn_of_closeFits (hfd : fd < MAX_OPEN_FILES)
    (h : s.files.CloseFits s.current fd) : s.ClosesOwn fd := by
  obtain ⟨hadmits, ⟨pcb, hproc, hmark, hset⟩, hfile⟩ := h
  intro content input
  obtain ⟨pcb', hpcb⟩ : ∃ pcb', pcb.closeFile fd = some pcb' := by
    unfold PCB.closeFile
    cases hslot : pcb.openFileTable fd with
    | garbage => exact absurd hslot hset
    | null | ptr => exact ⟨_, rfl⟩
  obtain ⟨files, hclose, hlock⟩ := OpenFiles.closeFile_of_fileAt (p := s.current)
    (s := { s.files with procs := update s.files.procs s.current (some pcb') }) hfile
  refine ⟨{ s with files := files }, ?_, hlock, fun hopen => ?_⟩
  · rw [run_myClose content input hproc hfd, hpcb, Option.bind_some, if_pos hadmits, hclose]
    rfl
  · simp [OpenFiles.marks, hproc, hmark] at hopen

theorem closeFits_of_closesOwn {pcb : PCB} (hproc : s.files.procs s.current = some pcb)
    (hfd : fd < MAX_OPEN_FILES) (h : s.ClosesOwn fd) : s.files.CloseFits s.current fd := by
  obtain ⟨s', hrun, hlock, hsame⟩ := h (fun _ => []) fun _ => 0
  rw [run_myClose _ _ hproc hfd] at hrun
  obtain ⟨pcb', hpcb, hrun⟩ := Option.bind_eq_some_iff.mp hrun
  split at hrun
  case isFalse => cases hrun
  case isTrue hadmits =>
    obtain ⟨files, hclose, he⟩ := Option.map_eq_some_iff.mp hrun
    obtain ⟨-, rfl⟩ := Prod.mk.inj he
    obtain ⟨f, hf⟩ := OpenFiles.exists_fileAt_of_closeFile hclose hlock
    have hne := OpenFiles.not_sameEntry_closeFile hf hclose
    refine ⟨hadmits, ⟨pcb, hproc, ?_, ?_⟩, f, hf⟩
    · by_contra hmark
      have hopen : s.files.marks s.current fd = false := by
        simpa [OpenFiles.marks, hproc] using hmark
      exact hne (hsame hopen).2.2.2
    · intro hslot
      simp [PCB.closeFile, hslot] at hpcb

/-- `Close` keeps to the caller's own descriptors exactly if the caller has the descriptor open, its
system entry is still there and no other thread has the lock. -/
theorem closesOwn_iff {s : Sys φ} {pcb : PCB} (hproc : s.files.procs s.current = some pcb) {fd : ℕ}
    (hfd : fd < SYS_MAX_OPEN_FILES) : s.ClosesOwn fd ↔ s.files.CloseFits s.current fd :=
  ⟨closeFits_of_closesOwn hproc hfd, closesOwn_of_closeFits hfd⟩

/-- The only user of a file closes it. -/
theorem closesOwn_iff_opened :
    ({ oneProcess with
      files := OpenFiles.opened 0 [102] (some ()) .new 2 .boot } : Sys Unit).ClosesOwn 2 :=
  (closesOwn_iff rfl (by decide)).mpr ⟨rfl, ⟨_, rfl, by decide, nofun⟩, _, rfl⟩

/-- Two processes open a file and the first one closes it: `Close` of the second one leaves the lock
held. A process closes its file and another one opens a file with the same descriptor: another
`Close` of the first process removes the entry of the second one. -/
theorem exists_not_closesOwn :
    (∃ (files : OpenFiles Unit) (s' : Sys Unit), Reachable OpenFiles.system files ∧
      files.marks 1 2 = true ∧
      (myClose (quietEnv (fun _ => []) fun _ => 0) 2).run
        { oneProcess with files := files, current := 1 } = some ((), s') ∧
      (s'.files.fsLock 2).locked = true) ∧
    ∃ (files : OpenFiles Unit) (s' : Sys Unit), Reachable OpenFiles.system files ∧
      files.marks 0 2 = false ∧ files.marks 1 2 = true ∧ (files.fileAt 2).isSome = true ∧
      (myClose (quietEnv (fun _ => []) fun _ => 0) 2).run { oneProcess with files := files } =
        some ((), s') ∧
      s'.files.fileAt 2 = none := by
  constructor
  · have hs : (exec OpenFiles.step (OpenFiles.boot : OpenFiles Unit)
        [.start 0, .start 1, .open_ 0 [102] (some ()), .open_ 1 [102] (some ()), .close 0 2]).any
          (fun files => files.marks 1 2 &&
            ((myClose (quietEnv (fun _ => []) fun _ => 0) 2).run
              { oneProcess with files := files, current := 1 }).any
                fun r => (r.2.files.fsLock 2).locked) = true := by
      decide +kernel
    obtain ⟨files, hr, h⟩ := run_of_any_exec (I := OpenFiles.Initial) hs
    obtain ⟨hmark, h⟩ := (Bool.and_eq_true _ _).mp h
    obtain ⟨⟨⟨⟩, s'⟩, hrun, hlock⟩ := (Option.any_eq_true _ _).mp h
    exact ⟨files, s', ⟨_, _, OpenFiles.initial_boot, hr⟩, hmark, hrun, hlock⟩
  · have hs : (exec OpenFiles.step (OpenFiles.boot : OpenFiles Unit)
        [.start 0, .start 1, .open_ 0 [102] (some ()), .close 0 2, .open_ 1 [103] (some ())]).any
          (fun files => (!files.marks 0 2 && files.marks 1 2 && (files.fileAt 2).isSome) &&
            ((myClose (quietEnv (fun _ => []) fun _ => 0) 2).run
              { oneProcess with files := files }).any (·.2.files.fileAt 2 |>.isNone)) =
        true := by
      decide +kernel
    obtain ⟨files, hr, h⟩ := run_of_any_exec (I := OpenFiles.Initial) hs
    obtain ⟨htables, h⟩ := (Bool.and_eq_true _ _).mp h
    obtain ⟨⟨⟨⟩, s'⟩, hrun, hnone⟩ := (Option.any_eq_true _ _).mp h
    simp only [Bool.and_eq_true, Bool.not_eq_true'] at htables
    exact ⟨files, s', ⟨_, _, OpenFiles.initial_boot, hr⟩, htables.1.1, htables.1.2, htables.2, hrun,
      Option.isNone_iff_eq_none.mp hnone⟩

end Sys

end Nachos.Userprog
