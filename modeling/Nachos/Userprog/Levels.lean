import Nachos.Userprog.Exception

/-! # The interrupt level across a system call

Each handler turns interrupts off and sets the old level again at its end.
`myExec` and `myOpen` also return in the middle, with interrupts off.
-/

namespace Nachos.Userprog.Sys

open Command VM

variable {φ α : Type} {E : Env φ} {s s' : Sys φ} {now old : IntStatus} {vAddr : ℤ}

theorem keeps_external {f : Sys φ → Option (α × Sys φ)} : Keeps level (external f) := by
  intro s a s' h
  obtain ⟨r, -, he⟩ := Option.map_eq_some_iff.mp h
  rw [← (Prod.mk.inj he).2]

theorem setLevel_spec (h : (setLevel E now).run s = some (old, s')) :
    old = s.level ∧ s'.level = now := by
  unfold setLevel at h
  rw [run_get_bind, run_modify_bind] at h
  obtain ⟨_, s₃, htick, h⟩ := run_bind_eq_some.mp h
  simp only [StateT.run_pure, Option.pure_def, Option.some.injEq, Prod.mk.injEq] at h
  obtain ⟨rfl, rfl⟩ := h
  exact ⟨rfl, Keeps.ite keeps_external Keeps.pure _ _ _ htick⟩

theorem settles_setLevel : Settles level now (setLevel E now) :=
  fun _ _ _ h => (setLevel_spec h).2

theorem run_setLevel_off : (setLevel E .off).run s = some (s.level, { s with level := .off }) := by
  simp [setLevel]

/-- A command that ends with the level that it was given keeps the level behind `SetLevel`. -/
theorem keeps_of_settles {c : IntStatus → Code φ α} (h : ∀ old, Settles level old (c old)) :
    Keeps level (setLevel E now >>= c) := by
  intro s a s' hs
  obtain ⟨old, s₁, hl, hs⟩ := run_bind_eq_some.mp hs
  rw [h old s₁ a s' hs, (setLevel_spec hl).1]

theorem keeps_yield : Keeps level (yield E) :=
  keeps_of_settles fun _ => .bind fun _ => settles_setLevel.bind_keeps fun _ => .pure

theorem keeps_translate : Keeps level (translate vAddr : Code φ ℤ) :=
  .bind .get fun _ => .bind .require fun _ => .require

theorem keeps_getString : Keeps level (getString vAddr : Code φ FileName) :=
  .bind keeps_translate fun _ => .bind .get fun _ => .bind .require fun _ => .pure

theorem keeps_myCreate : Keeps level (myCreate E vAddr) :=
  keeps_of_settles fun _ => .bind fun _ => .bind fun _ =>
    settles_setLevel.bind_keeps fun _ => .pure

theorem keeps_openOrCreate {fileName : FileName} : Keeps level (openOrCreate E vAddr fileName) := by
  refine .bind keeps_external fun file => ?_
  cases file with
  | some file => exact .pure
  | none => exact .bind keeps_myCreate fun _ => keeps_external

theorem keeps_myFork : Keeps level (myFork E) :=
  keeps_of_settles fun _ => .bind fun _ => .bind fun _ => .bind fun _ => .bind fun _ =>
    .bind fun _ => .bind fun _ => .bind fun _ => .bind fun _ =>
      settles_setLevel.bind_keeps fun _ => .pure

theorem keeps_myPageFaultHandler : Keeps level (myPageFaultHandler E vAddr) :=
  keeps_of_settles fun _ => .bind fun _ => settles_setLevel.bind_keeps fun _ => .pure

theorem keeps_myClose {fd : ℤ} : Keeps level (myClose E fd) :=
  keeps_of_settles fun _ => .bind fun _ => .bind fun _ =>
    settles_setLevel.bind_keeps fun _ => .pure

theorem keeps_myRead {size fd : ℤ} : Keeps level (myRead E vAddr size fd) :=
  keeps_of_settles fun _ => .bind fun _ => settles_setLevel.bind_keeps fun _ => .pure

theorem keeps_myWrite {size fd : ℤ} : Keeps level (myWrite E vAddr size fd) :=
  keeps_of_settles fun _ => .bind fun _ => settles_setLevel.bind_keeps fun _ => .pure

/-- The handler returns in the middle: `Exec` finds no file of the name, or `Open` finds the name
not open and the system table full. -/
def ReturnsEarly (E : Env φ) (s : Sys φ) : Call → Prop
  | .exec vAddr => ∃ file s₁ s₂, (getString vAddr).run { s with level := .off } = some (file, s₁) ∧
      E.fileOpen file s₁ = some (none, s₂)
  | .open_ vAddr => ∃ fileName s₁ file s₂,
      (getString vAddr).run { s with level := .off } = some (fileName, s₁) ∧
      (openOrCreate E vAddr fileName).run s₁ = some (file, s₂) ∧
      s₂.files.getFD fileName = some none ∧ s₂.files.sysOpenFileMap.find = none
  | _ => False

theorem level_myExec (h : (myExec E vAddr).run s = some ((), s')) :
    ReturnsEarly E s (.exec vAddr) ∧ s'.level = .off ∨
      ¬ ReturnsEarly E s (.exec vAddr) ∧ s'.level = s.level := by
  obtain ⟨old, s₀, hl, h⟩ := run_bind_eq_some.mp h
  rw [run_setLevel_off] at hl
  obtain ⟨rfl, rfl⟩ := Prod.mk.inj (Option.some.inj hl)
  obtain ⟨file, s₁, hstr, h⟩ := run_bind_eq_some.mp h
  obtain ⟨executable, s₂, hopen, h⟩ := run_bind_eq_some.mp h
  obtain ⟨⟨o, s₃⟩, hf, he⟩ := Option.map_eq_some_iff.mp hopen
  obtain ⟨rfl, -⟩ := Prod.mk.inj he
  have hoff : s₂.level = .off :=
    (keeps_external _ _ _ hopen).trans (keeps_getString _ _ _ hstr)
  cases o with
  | none =>
    simp only [StateT.run_pure, Option.pure_def, Option.some.injEq, Prod.mk.injEq] at h
    exact .inl ⟨⟨file, s₁, s₃, hstr, hf⟩, h.2 ▸ hoff⟩
  | some executable =>
    refine .inr ⟨?_, ?_⟩
    · rintro ⟨file', s₁', s₂', hstr', hf'⟩
      obtain ⟨rfl, rfl⟩ := Prod.mk.inj (Option.some.inj (hstr.symm.trans hstr'))
      cases (Prod.mk.inj (Option.some.inj (hf.symm.trans hf'))).1
    · exact Settles.of_run h (.bind fun _ => .bind fun _ => .bind fun _ => .bind fun _ =>
        .bind fun _ => .bind fun _ => .bind fun _ => .bind fun _ =>
          settles_setLevel.bind_keeps fun _ => keeps_yield)

theorem level_myOpen (h : (myOpen E vAddr).run s = some ((), s')) :
    ReturnsEarly E s (.open_ vAddr) ∧ s'.level = .off ∨
      ¬ ReturnsEarly E s (.open_ vAddr) ∧ s'.level = s.level := by
  obtain ⟨old, s₀, hl, h⟩ := run_bind_eq_some.mp h
  rw [run_setLevel_off] at hl
  obtain ⟨rfl, rfl⟩ := Prod.mk.inj (Option.some.inj hl)
  obtain ⟨fileName, s₁, hstr, h⟩ := run_bind_eq_some.mp h
  obtain ⟨file, s₂, hopen, h⟩ := run_bind_eq_some.mp h
  have hoff : s₂.level = .off :=
    (keeps_openOrCreate _ _ _ hopen).trans (keeps_getString _ _ _ hstr)
  rw [run_get_bind, run_require_bind] at h
  obtain ⟨⟨sysOpenFile, files⟩, hfile, h⟩ := Option.bind_eq_some_iff.mp h
  rw [run_modify_bind] at h
  have hearly : ReturnsEarly E s (.open_ vAddr) ↔
      s₂.files.getFD fileName = some none ∧ s₂.files.sysOpenFileMap.find = none := by
    constructor
    · rintro ⟨fileName', s₁', file', s₂', hstr', hopen', hfull⟩
      obtain ⟨rfl, rfl⟩ := Prod.mk.inj (Option.some.inj (hstr.symm.trans hstr'))
      obtain ⟨rfl, rfl⟩ := Prod.mk.inj (Option.some.inj (hopen.symm.trans hopen'))
      exact hfull
    · intro hfull
      exact ⟨fileName, s₁, file, s₂, hstr, hopen, hfull⟩
  rw [hearly, ← OpenFiles.getOpenFile_eq_none_iff hfile]
  cases sysOpenFile with
  | none =>
    simp only [StateT.run_pure, Option.pure_def, Option.some.injEq, Prod.mk.injEq] at h
    exact .inl ⟨rfl, h.2 ▸ hoff⟩
  | some file =>
    refine .inr ⟨by simp, ?_⟩
    exact Settles.of_run h (.bind fun _ => .bind fun _ => .bind fun _ => .bind fun _ =>
      settles_setLevel.bind_keeps fun _ => .pure)

/-- A handler that returns leaves the interrupt level as it was exactly when interrupts were off
or it does not return early. -/
theorem handler_level_iff {c : Call} (h : (handler E c).run s = some ((), s')) :
    s'.level = s.level ↔ ¬ (s.level = .on ∧ ReturnsEarly E s c) := by
  have hend : ReturnsEarly E s c ∧ s'.level = .off ∨
      ¬ ReturnsEarly E s c ∧ s'.level = s.level := by
    cases c with
    | exec => exact level_myExec h
    | open_ => exact level_myOpen h
    | fork => exact .inr ⟨id, keeps_myFork _ _ _ h⟩
    | create => exact .inr ⟨id, keeps_myCreate _ _ _ h⟩
    | close => exact .inr ⟨id, keeps_myClose _ _ _ h⟩
    | read => exact .inr ⟨id, keeps_myRead _ _ _ h⟩
    | write => exact .inr ⟨id, keeps_myWrite _ _ _ h⟩
    | pageFault => exact .inr ⟨id, keeps_myPageFaultHandler _ _ _ h⟩
  rcases hend with ⟨he, hoff⟩ | ⟨he, hl⟩
  · simp only [he, and_true, hoff]
    cases s.level <;> simp
  · simp [he, hl]

/-- A machine without files, on which no other thread runs. -/
def emptyEnv : Env Unit where
  fileOpen _ s := some (none, s)
  fileCreate _ s := some ((), s)
  readAt _ _ _ s := some ([], s)
  writeAt _ _ _ s := some ((), s)
  noff _ := blank 0
  getchar _ _ _ := 0
  swap _ s := some ((), s)
  others s := some ((), s)

/-- A process with one page of zeros, with interrupts on. -/
def oneProcess : Sys Unit where
  level := .on
  memory :=
    { mainMemory := fun _ => 0
      bitmap := (⟨NumPhysPages, fun _ => 0⟩ : BitMap).mark 0
      spaces := fun id => if id = 0 then some ⟨[Memory.newEntry 0 0]⟩ else none }
  files := { OpenFiles.boot with procs := fun p => if p = 0 then some .new else none }
  diskBuffer _ := 0
  current := 0
  next := 1
  bitmap := (⟨MAX_PROCS, fun _ => 0⟩ : BitMap).mark 0
  pid _ := 0
  result := 0
  output := []

/-- `Create` leaves interrupts on. -/
theorem handler_level_iff_create :
    ∃ s', (handler emptyEnv (.create 0)).run oneProcess = some ((), s') ∧
      s'.level = oneProcess.level := by
  have hs : ((handler emptyEnv (.create 0)).run oneProcess).isSome = true := by decide +kernel
  obtain ⟨⟨⟨⟩, s'⟩, hr⟩ := Option.isSome_iff_exists.mp hs
  exact ⟨s', hr, (handler_level_iff hr).mpr fun h => h.2⟩

/-- `Exec` of a file that does not exist leaves interrupts off. -/
theorem not_handler_keeps_level :
    ∃ s', (handler emptyEnv (.exec 0)).run oneProcess = some ((), s') ∧
      oneProcess.level = .on ∧ s'.level = .off := by
  have hs : ((handler emptyEnv (.exec 0)).run oneProcess).any (fun r => r.2.level = .off) =
      true := by
    decide +kernel
  obtain ⟨⟨⟨⟩, s'⟩, hr, hl⟩ := (Option.any_eq_true _ _).mp hs
  exact ⟨s', hr, rfl, of_decide_eq_true hl⟩

end Nachos.Userprog.Sys
