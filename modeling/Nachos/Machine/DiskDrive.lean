import Mathlib.Order.Bounds.Basic
import Nachos.Machine.Device

/-! # The time of the disk

The disk turns below its head, and the head moves from track to track. A sector
that is read or written has to pass under the head; the track buffer keeps the
sectors that have passed since the head came to the track. `Disk` computes from
this the time of the interrupt that ends a request. What is transferred is left
to `SynchDisk`.
-/

namespace Nachos.Machine

open Threads Transition

structure DiskDrive where
  interrupt : Interrupt
  active : Bool
  lastSector : ℤ
  bufferInit : ℤ
  /-- When the head has come to its track; no variable of the code. -/
  arrival : ℤ

namespace DiskDrive

def SectorsPerTrack : ℤ := 32

def NumTracks : ℤ := 32

def NumSectors : ℤ := SectorsPerTrack * NumTracks

def RotationTime : ℤ := 500

def SeekTime : ℤ := 500

def diskDone : ℕ := 0

def timeToSeek (newSector : ℤ) (s : DiskDrive) : ℤ × ℤ :=
  let newTrack := newSector.tdiv SectorsPerTrack
  let oldTrack := s.lastSector.tdiv SectorsPerTrack
  let seek := (newTrack - oldTrack).natAbs * SeekTime
  let past := (s.interrupt.totalTicks + seek).tmod RotationTime
  (seek, if 0 < past then RotationTime - past else 0)

def moduloDiff (to_ from_ : ℤ) : ℤ :=
  let toOffset := to_.tmod SectorsPerTrack
  let fromOffset := from_.tmod SectorsPerTrack
  (toOffset - fromOffset + SectorsPerTrack).tmod SectorsPerTrack

def computeLatency (newSector : ℤ) (writing : Bool) (s : DiskDrive) : ℤ :=
  let (seek, rotation) := s.timeToSeek newSector
  let timeAfter := s.interrupt.totalTicks + seek + rotation
  if writing = false ∧ seek = 0 ∧
      moduloDiff newSector (s.bufferInit.tdiv RotationTime) <
        (timeAfter - s.bufferInit).tdiv RotationTime then
    RotationTime
  else
    let rotation := rotation + moduloDiff newSector (timeAfter.tdiv RotationTime) * RotationTime
    seek + rotation + RotationTime

def updateLast (newSector : ℤ) (s : DiskDrive) : DiskDrive :=
  let (seek, rotate) := s.timeToSeek newSector
  if seek ≠ 0 then
    { s with
      bufferInit := s.interrupt.totalTicks + seek + rotate
      arrival := s.interrupt.totalTicks + seek
      lastSector := newSector }
  else { s with lastSector := newSector }

/-- `ReadRequest` and `WriteRequest`, without the transfer. -/
def request (sectorNumber : ℤ) (writing : Bool) (s : DiskDrive) : Option DiskDrive :=
  let ticks := s.computeLatency sectorNumber writing
  if s.active then none
  else if 0 ≤ sectorNumber ∧ sectorNumber < NumSectors then
    (s.interrupt.step (.schedule diskDone 0 ticks .disk)).map fun i =>
      { updateLast sectorNumber { s with active := true } with interrupt := i }
  else none

/-- `HandleInterrupt`, up to the call of the kernel's handler. -/
def handleInterrupt (s : DiskDrive) : DiskDrive := { s with active := false }

inductive Action
  | request (sectorNumber : ℤ) (writing : Bool)
  /-- The machine goes on, and other devices use it. -/
  | machine (a : Interrupt.Action)

def step (s : DiskDrive) : Action → Option DiskDrive
  | .request sectorNumber writing => s.request sectorNumber writing
  | .machine a =>
    if a.schedules .disk then none
    else (s.interrupt.step a).map fun i =>
      if (s.interrupt.called i).any (·.type = .disk) then
        handleInterrupt { s with interrupt := i }
      else { s with interrupt := i }

/-- `Disk::Disk`, at the first track. -/
def Init (s : DiskDrive) : Prop :=
  s.interrupt.Init ∧ 0 ≤ s.interrupt.totalTicks ∧ s.active = false ∧ s.lastSector = 0 ∧
    s.bufferInit = 0 ∧ s.arrival = 0

def system : System DiskDrive Action := .ofStep Init step

/-! ## The turning disk -/

def Passes (sector t : ℤ) : Prop :=
  RotationTime ∣ t ∧ SectorsPerTrack ∣ t / RotationTime - sector

/-- The sector begins to pass for the first time since the head has come. -/
def FirstPass (sector since t : ℤ) : Prop := IsLeast { t | since ≤ t ∧ Passes sector t } t

def seekTime (sector : ℤ) (s : DiskDrive) : ℤ :=
  (sector / SectorsPerTrack - s.lastSector / SectorsPerTrack).natAbs * SeekTime

variable {s t : DiskDrive} {sector since start : ℤ} {writing : Bool}

/-- From the next boundary between sectors the distances along the track are those of the
numbers. -/
theorem firstPass_of_aligned {aligned : ℤ} (hdvd : RotationTime ∣ aligned) (hle : since ≤ aligned)
    (hlt : aligned < since + RotationTime) :
    FirstPass sector since
      (aligned + (sector - aligned / RotationTime) % SectorsPerTrack * RotationTime) := by
  unfold RotationTime SectorsPerTrack at *
  constructor
  · refine ⟨by omega, ?_, ?_⟩
    · unfold RotationTime
      omega
    · unfold RotationTime SectorsPerTrack
      omega
  · rintro t' ⟨hsince, hpass, hsector⟩
    unfold RotationTime at hpass hsector
    unfold SectorsPerTrack at hsector
    omega

theorem FirstPass.of_le {since' : ℤ} (h : FirstPass sector since start) (hle : since ≤ since')
    (hstart : since' ≤ start) : FirstPass sector since' start :=
  ⟨⟨hstart, h.1.2⟩, fun _ ht => h.2 ⟨hle.trans ht.1, ht.2⟩⟩

theorem FirstPass.unique {start' : ℤ} (h : FirstPass sector since start)
    (h' : FirstPass sector since start') : start = start' :=
  IsLeast.unique h h'

/-! ## What the routines compute -/

theorem moduloDiff_eq {to_ from_ : ℤ} (ht : 0 ≤ to_) (hf : 0 ≤ from_) :
    moduloDiff to_ from_ = (to_ - from_) % SectorsPerTrack := by
  unfold moduloDiff SectorsPerTrack
  rw [Int.tmod_eq_emod_of_nonneg ht, Int.tmod_eq_emod_of_nonneg hf,
    Int.tmod_eq_emod_of_nonneg (by omega)]
  omega

theorem seekTime_nonneg (sector : ℤ) : 0 ≤ s.seekTime sector := by
  unfold seekTime SeekTime
  omega

theorem exists_timeToSeek (ht : 0 ≤ s.interrupt.totalTicks) (hl : 0 ≤ s.lastSector)
    (hs : 0 ≤ sector) :
    ∃ rotation, s.timeToSeek sector = (s.seekTime sector, rotation) ∧ 0 ≤ rotation ∧
      rotation < RotationTime ∧
      RotationTime ∣ s.interrupt.totalTicks + s.seekTime sector + rotation := by
  unfold timeToSeek seekTime
  rw [Int.tdiv_eq_ediv_of_nonneg hs, Int.tdiv_eq_ediv_of_nonneg hl]
  refine ⟨_, rfl, ?_⟩
  unfold SeekTime RotationTime
  rw [Int.tmod_eq_emod_of_nonneg (by omega)]
  split <;> omega

structure OnTrack (s : DiskDrive) : Prop where
  ticks : 0 ≤ s.interrupt.totalTicks
  lastSector : 0 ≤ s.lastSector
  arrival : 0 ≤ s.arrival
  aligned : RotationTime ∣ s.bufferInit
  le : s.arrival ≤ s.bufferInit
  lt : s.bufferInit < s.arrival + RotationTime

/-- From when on a sector that passes can be used by a request: a write, and a read of another
track, wait for the head; a read has what is in the buffer. -/
def usableSince (sector : ℤ) (writing : Bool) (s : DiskDrive) : ℤ :=
  if writing = false ∧ s.seekTime sector = 0 then s.arrival
  else s.interrupt.totalTicks + s.seekTime sector

def passFrom (sector aligned : ℤ) : ℤ :=
  aligned + (sector - aligned / RotationTime) % SectorsPerTrack * RotationTime

/-- A read has the sector at once if it has begun to pass before the next boundary, and any other
request waits for it from there on. -/
theorem OnTrack.computeLatency_eq (h : s.OnTrack) (writing : Bool) (hs : 0 ≤ sector)
    (hbuffer : s.bufferInit ≤ s.interrupt.totalTicks) :
    ∃ aligned, RotationTime ∣ aligned ∧
      s.interrupt.totalTicks + s.seekTime sector ≤ aligned ∧
      aligned < s.interrupt.totalTicks + s.seekTime sector + RotationTime ∧
      s.interrupt.totalTicks + s.computeLatency sector writing =
        (if writing = false ∧ s.seekTime sector = 0 ∧ passFrom sector s.bufferInit < aligned then
          s.interrupt.totalTicks
        else passFrom sector aligned) + RotationTime := by
  obtain ⟨rotation, heq, hrot, hlt, hmul⟩ := exists_timeToSeek h.ticks h.lastSector hs
  have hseek := seekTime_nonneg (s := s) sector
  have hticks := h.ticks
  have hpos := h.arrival.trans h.le
  have hdvd := h.aligned
  refine ⟨s.interrupt.totalTicks + s.seekTime sector + rotation, hmul, by omega, by omega, ?_⟩
  unfold computeLatency
  rw [heq]
  dsimp only
  rw [moduloDiff_eq hs (Int.tdiv_nonneg hpos (by decide)),
    moduloDiff_eq hs (Int.tdiv_nonneg (by omega) (by decide)), Int.tdiv_eq_ediv_of_nonneg hpos,
    Int.tdiv_eq_ediv_of_nonneg (by omega), Int.tdiv_eq_ediv_of_nonneg (by omega)]
  -- both are multiples of the time of a sector
  have hhit : (sector - s.bufferInit / RotationTime) % SectorsPerTrack <
      (s.interrupt.totalTicks + s.seekTime sector + rotation - s.bufferInit) / RotationTime ↔
      passFrom sector s.bufferInit < s.interrupt.totalTicks + s.seekTime sector + rotation := by
    unfold passFrom
    generalize (sector - s.bufferInit / RotationTime) % SectorsPerTrack = m
    unfold RotationTime at *
    omega
  simp only [hhit]
  split
  · rfl
  · unfold passFrom
    omega

/-- The transfer begins with the first pass, or at once if this one is in the buffer or under the
head. -/
theorem OnTrack.exists_firstPass (h : s.OnTrack) (writing : Bool) (hs : 0 ≤ sector)
    (hbuffer : s.bufferInit ≤ s.interrupt.totalTicks) :
    ∃ start, FirstPass sector (s.usableSince sector writing) start ∧
      s.interrupt.totalTicks + s.computeLatency sector writing =
        max start s.interrupt.totalTicks + RotationTime := by
  obtain ⟨aligned, hdvd, hle, hlt, hlatency⟩ := h.computeLatency_eq writing hs hbuffer
  have hseek := seekTime_nonneg (s := s) sector
  have hbuf : FirstPass sector s.arrival (passFrom sector s.bufferInit) :=
    firstPass_of_aligned h.aligned h.le h.lt
  have hnext : FirstPass sector _ (passFrom sector aligned) := firstPass_of_aligned hdvd hle hlt
  have hwait : s.interrupt.totalTicks ≤ passFrom sector aligned := by
    have := hnext.1.1
    omega
  unfold usableSince
  by_cases hread : writing = false ∧ s.seekTime sector = 0
  · rw [if_pos hread]
    refine ⟨_, hbuf, ?_⟩
    obtain ⟨hmul, -⟩ := hbuf.1.2
    by_cases hhit : passFrom sector s.bufferInit < aligned
    · rw [hlatency, if_pos ⟨hread.1, hread.2, hhit⟩, max_eq_right]
      unfold RotationTime at *
      omega
    · -- the pass is to come, and it is the next one
      have hcome : passFrom sector s.bufferInit = passFrom sector aligned :=
        (hbuf.of_le (h.le.trans (hbuffer.trans (by omega))) (by omega)).unique hnext
      rw [hlatency, if_neg (fun hc => hhit hc.2.2), hcome, max_eq_left hwait]
  · rw [if_neg hread]
    refine ⟨_, hnext, ?_⟩
    rw [hlatency, if_neg (fun hc => hread ⟨hc.1, hc.2.1⟩), max_eq_left hwait]

/-! ## Runs -/

/-- The disk is active exactly as long as its interrupt is pending, and the buffer is being filled
when a request has ended. -/
structure Inv (s : DiskDrive) : Prop extends OnTrack s where
  active : s.active = true →
    ∃ e, s.interrupt.pendingOf .disk = [e] ∧ s.bufferInit ≤ e.key
  idle : s.active = false →
    s.interrupt.pendingOf .disk = [] ∧ s.bufferInit ≤ s.interrupt.totalTicks

theorem inv_of_init (h : Init s) : s.Inv := by
  obtain ⟨⟨hpending, -⟩, hticks, hactive, hlast, hbuffer, harrival⟩ := h
  refine ⟨⟨hticks, hlast.ge, harrival.ge, ?_, ?_, ?_⟩, ?_, ?_⟩
  · rw [hbuffer]
    exact Int.dvd_zero _
  · rw [hbuffer, harrival]
  · rw [hbuffer, harrival]
    decide
  · rw [hactive]
    intro h
    cases h
  · intro _
    rw [hbuffer, Interrupt.pendingOf, hpending]
    exact ⟨rfl, hticks⟩

structure Rests (s t : DiskDrive) : Prop where
  lastSector : t.lastSector = s.lastSector
  bufferInit : t.bufferInit = s.bufferInit
  arrival : t.arrival = s.arrival
  ticks : s.interrupt.totalTicks ≤ t.interrupt.totalTicks

theorem Rests.onTrack (hr : Rests s t) (h : s.OnTrack) : t.OnTrack where
  ticks := h.ticks.trans hr.ticks
  lastSector := hr.lastSector ▸ h.lastSector
  arrival := hr.arrival ▸ h.arrival
  aligned := hr.bufferInit ▸ h.aligned
  le := by
    rw [hr.arrival, hr.bufferInit]
    exact h.le
  lt := by
    rw [hr.arrival, hr.bufferInit]
    exact h.lt

/-- The interrupt of the disk stays as it is, or it is called when it is due and the disk is not
active any more. -/
theorem Inv.machine_cases {a : Interrupt.Action} (h : s.Inv)
    (hstep : s.step (.machine a) = some t) : Rests s t ∧
      (t.active = s.active ∧ t.interrupt.pendingOf .disk = s.interrupt.pendingOf .disk ∨
      ∃ e, s.interrupt.pendingOf .disk = [e] ∧ e.key ≤ t.interrupt.totalTicks ∧
        s.active = true ∧ t.active = false ∧ t.interrupt.pendingOf .disk = []) := by
  obtain ⟨ha, hstep⟩ := Option.ite_none_left_eq_some.mp hstep
  obtain ⟨i, hi, rfl⟩ := Option.map_eq_some_iff.mp hstep
  have hle := (Interrupt.effect_step hi).totalTicks_le
  rcases Interrupt.keeps_or_calls hi (by simpa using ha) with ⟨hcall, hperm⟩ |
      ⟨e, hcall, hpending, hdue⟩
  · rw [hcall]
    refine ⟨⟨rfl, rfl, rfl, hle⟩, .inl ⟨rfl, ?_⟩⟩
    cases hactive : s.active with
    | false =>
      obtain ⟨hnil, -⟩ := h.idle hactive
      rw [hnil] at hperm ⊢
      exact List.perm_nil.mp hperm
    | true =>
      obtain ⟨e, he, -⟩ := h.active hactive
      rw [he] at hperm ⊢
      exact List.perm_singleton.mp hperm
  · have hfilter : s.interrupt.pendingOf .disk = if _ then _ else i.pendingOf .disk :=
      Interrupt.pendingOf_of_cons hpending
    by_cases htype : e.item.type = .disk
    · -- the interrupt of the request
      rw [if_pos htype] at hfilter
      rw [hcall, if_pos (by simpa using htype)]
      refine ⟨⟨rfl, rfl, rfl, hle⟩, .inr ⟨e, ?_⟩⟩
      cases hactive : s.active with
      | false =>
        rw [(h.idle hactive).1] at hfilter
        cases hfilter
      | true =>
        obtain ⟨e', he', -⟩ := h.active hactive
        rw [he'] at hfilter
        obtain ⟨rfl, hnil⟩ := List.cons.inj hfilter
        exact ⟨he', hdue, rfl, rfl, hnil.symm⟩
    · -- that of another device
      rw [if_neg htype] at hfilter
      rw [hcall, if_neg (by simpa using htype)]
      exact ⟨⟨rfl, rfl, rfl, hle⟩, .inl ⟨rfl, hfilter.symm⟩⟩

theorem Inv.machine {a : Interrupt.Action} (h : s.Inv) (hstep : s.step (.machine a) = some t) :
    t.Inv := by
  obtain ⟨hr, ⟨hactive, hpending⟩ | ⟨e, he, hdue, hs, ht, hnil⟩⟩ := h.machine_cases hstep
  · refine ⟨hr.onTrack h.toOnTrack, ?_, ?_⟩
    · rw [hactive, hpending, hr.bufferInit]
      exact h.active
    · rw [hactive, hpending, hr.bufferInit]
      intro hidle
      exact ⟨(h.idle hidle).1, (h.idle hidle).2.trans hr.ticks⟩
  · refine ⟨hr.onTrack h.toOnTrack, ?_, fun _ => ⟨hnil, ?_⟩⟩
    · rw [ht]
      intro h
      cases h
    · obtain ⟨e', he', hkey⟩ := h.active hs
      obtain rfl := List.singleton_inj.mp (he.symm.trans he')
      rw [hr.bufferInit]
      exact hkey.trans hdue

/-- The head moves to the track of the sector, and the buffer starts there if the track is
another one. -/
theorem OnTrack.updateLast (h : s.OnTrack) (hs : 0 ≤ sector) :
    (s.updateLast sector).OnTrack ∧ (s.updateLast sector).active = s.active ∧
      (s.seekTime sector = 0 ∧ (s.updateLast sector).bufferInit = s.bufferInit ∧
          (s.updateLast sector).arrival = s.arrival ∨
        s.seekTime sector ≠ 0 ∧
          (s.updateLast sector).arrival = s.interrupt.totalTicks + s.seekTime sector) := by
  obtain ⟨rotation, heq, hrot, hlt, hmul⟩ := exists_timeToSeek h.ticks h.lastSector hs
  have hseek := seekTime_nonneg (s := s) sector
  have hticks := h.ticks
  unfold DiskDrive.updateLast
  rw [heq]
  dsimp only
  by_cases hzero : s.seekTime sector = 0
  · rw [if_neg (not_not.mpr hzero)]
    exact ⟨⟨h.ticks, hs, h.arrival, h.aligned, h.le, h.lt⟩, rfl, .inl ⟨hzero, rfl, rfl⟩⟩
  · rw [if_pos hzero]
    refine ⟨⟨h.ticks, hs, Int.add_nonneg hticks hseek, hmul, ?_, ?_⟩, rfl, .inr ⟨hzero, rfl⟩⟩
    · dsimp only
      omega
    · dsimp only
      omega

/-- A request that the assertions let pass is made, and its interrupt is that of the first pass. -/
theorem Inv.exists_request (h : s.Inv) (writing : Bool) (hidle : s.active = false) (h₀ : 0 ≤ sector)
    (h₁ : sector < NumSectors) (hplace : s.interrupt.InKernel) :
    ∃ t e start, s.step (.request sector writing) = some t ∧ t.Inv ∧ t.active = true ∧
      t.interrupt.pendingOf .disk = [e] ∧ FirstPass sector (s.usableSince sector writing) start ∧
      e.key = max start s.interrupt.totalTicks + RotationTime := by
  obtain ⟨hnil, hbuffer⟩ := h.idle hidle
  obtain ⟨start, hstart, hlatency⟩ := h.toOnTrack.exists_firstPass writing h₀ hbuffer
  have hon : OnTrack { s with active := true } :=
    ⟨h.ticks, h.lastSector, h.arrival, h.aligned, h.le, h.lt⟩
  obtain ⟨htrack, hactive, hhead⟩ := hon.updateLast h₀
  have hpos : 0 < s.computeLatency sector writing := by
    unfold RotationTime at hlatency
    omega
  obtain ⟨i, e, hi, hticks, hkey, hperm⟩ := Interrupt.exists_schedule .disk hplace hpos
  rw [hnil] at hperm
  have he := List.perm_singleton.mp hperm
  rw [hlatency] at hkey
  have hstep : s.step (.request sector writing) =
      some { updateLast sector { s with active := true } with interrupt := i } := by
    simp only [step, request, hidle]
    rw [hi]
    simp [h₀, h₁]
  -- the buffer is being filled before the transfer ends
  have hfilled : (updateLast sector { s with active := true }).bufferInit ≤ e.key := by
    have hlt := htrack.lt
    have hsince := hstart.1.1
    unfold usableSince at hsince
    unfold RotationTime at *
    rcases hhead with ⟨-, hbuf, -⟩ | ⟨hseek, harrival⟩
    · rw [hbuf]
      dsimp only
      omega
    · rw [if_neg fun hc => hseek hc.2] at hsince
      rw [harrival] at hlt
      change _ < s.interrupt.totalTicks + s.seekTime sector + 500 at hlt
      omega
  refine ⟨_, e, start, hstep, ⟨?_, fun _ => ⟨e, he, hfilled⟩, ?_⟩, hactive, he, hstart, hkey⟩
  · exact ⟨hticks ▸ h.ticks, htrack.lastSector, htrack.arrival, htrack.aligned, htrack.le,
      htrack.lt⟩
  · dsimp only
    rw [hactive]
    intro h
    cases h

theorem step_request_cases (h : s.step (.request sector writing) = some t) :
    s.active = false ∧ 0 ≤ sector ∧ sector < NumSectors ∧ s.interrupt.InKernel := by
  obtain ⟨hidle, h⟩ := Option.ite_none_left_eq_some.mp h
  obtain ⟨hsector, h⟩ := Option.ite_none_right_eq_some.mp h
  obtain ⟨i, hi, -⟩ := Option.map_eq_some_iff.mp h
  refine ⟨by simpa using hidle, hsector.1, hsector.2, ?_⟩
  simp only [Interrupt.step] at hi
  split at hi
  next hplace => exact .inl hplace
  next caller old hplace => exact .inr ⟨caller, old, hplace⟩
  next => cases hi

theorem Inv.step {a : Action} (h : s.Inv) (hstep : s.step a = some t) : t.Inv := by
  cases a with
  | request sector writing =>
    obtain ⟨hidle, h₀, h₁, hplace⟩ := step_request_cases hstep
    obtain ⟨t', e, start, hstep', hinv, -⟩ := h.exists_request writing hidle h₀ h₁ hplace
    cases hstep.symm.trans hstep'
    exact hinv
  | machine a => exact h.machine hstep

theorem inv_of_reachable (h : Reachable system s) : s.Inv :=
  h.invariant (P := Inv) (fun _ => inv_of_init) fun _ _ _ => Inv.step

/-- The request is not done, or it is and its time has come. -/
def Awaits (e : Entry PendingInterrupt) (s : DiskDrive) : Prop :=
  s.active = true ∧ s.interrupt.pendingOf .disk = [e] ∨
    s.active = false ∧ e.key ≤ s.interrupt.totalTicks

theorem Awaits.machine {e : Entry PendingInterrupt} {a : Interrupt.Action} (hw : s.Awaits e)
    (h : s.Inv) (hstep : s.step (.machine a) = some t) : t.Awaits e := by
  obtain ⟨hr, ⟨hactive, hpending⟩ | ⟨e', he', hdue, hs, ht, -⟩⟩ := h.machine_cases hstep
  · unfold Awaits at hw ⊢
    rw [hactive, hpending]
    exact hw.imp_right fun hw => ⟨hw.1, hw.2.trans hr.ticks⟩
  · rcases hw with ⟨-, he⟩ | ⟨hidle, -⟩
    · obtain rfl := List.singleton_inj.mp (he.symm.trans he')
      exact .inr ⟨ht, hdue⟩
    · rw [hs] at hidle
      cases hidle

/-- In every run a request that the assertions let pass is made. Its one interrupt is scheduled for
the end of the transfer, which begins as soon as the sector has begun to pass under the head since
the head came to the track, for a write since it comes there now. Until then the disk is active.
The ticks are natural numbers here, so that this is for runs in which they do not overflow. -/
theorem transfer_of_reachable (h : Reachable system s) (writing : Bool)
    (hidle : s.active = false) (h₀ : 0 ≤ sector) (h₁ : sector < NumSectors)
    (hplace : s.interrupt.InKernel) : ∃ t e start, s.step (.request sector writing) = some t ∧
      FirstPass sector (s.usableSince sector writing) start ∧
      e.key = max start s.interrupt.totalTicks + RotationTime ∧
      ∀ as u, Run (system.guard fun _ a => ∃ m, a = .machine m) t as u → u.Awaits e := by
  obtain ⟨t, e, start, hstep, hinv, hactive, he, hstart, hkey⟩ :=
    (inv_of_reachable h).exists_request writing hidle h₀ h₁ hplace
  refine ⟨t, e, start, hstep, hstart, hkey, fun as u hrun => ?_⟩
  have hrest : u.Inv ∧ u.Awaits e := by
    refine hrun.preserves (P := fun u => u.Inv ∧ u.Awaits e) ?_ ⟨hinv, .inl ⟨hactive, he⟩⟩
    rintro u a v ⟨hu, hw⟩ ⟨⟨m, rfl⟩, hv⟩
    exact ⟨hu.step hv, hw.machine hu hv⟩
  exact hrest.2

/-- A write to the first sector of the second track, as the first request: the head comes there
when the sector has just passed. -/
theorem transfer_of_reachable_second : ∃ s t : DiskDrive, Reachable system s ∧
    s.interrupt.totalTicks = 0 ∧ s.step (.request 32 true) = some t ∧
    ∃ e : Entry PendingInterrupt, e.key = 16500 ∧
      ∀ as u, Run (system.guard fun _ a => ∃ m, a = .machine m) t as u → u.Awaits e := by
  let s : DiskDrive := ⟨.new, false, 0, 0, 0⟩
  have hreach : Reachable system s :=
    .init ⟨⟨rfl, rfl, rfl, rfl, rfl⟩, le_rfl, rfl, rfl, rfl, rfl⟩
  obtain ⟨t, e, start, hstep, hstart, hkey, hrun⟩ :=
    transfer_of_reachable hreach true rfl (by decide : (0 : ℤ) ≤ 32) (by decide) (.inl rfl)
  have hpass : FirstPass 32 500 16000 :=
    firstPass_of_aligned (by decide : RotationTime ∣ 500) le_rfl (by decide)
  have hsince : s.usableSince 32 true = 500 := by decide
  rw [hsince] at hstart
  refine ⟨s, t, hreach, rfl, hstep, e, ?_, hrun⟩
  rw [hkey, hstart.unique hpass]
  decide

end DiskDrive

end Nachos.Machine
