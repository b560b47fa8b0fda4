import Nachos.Filesys.Requests
import Nachos.Filesys.WriteFaults

/-! # The name space

The calls answer as a finite map from keys to sectors of headers does, which the
last `Create` or `Remove` of a key that succeeded has changed. The directory
takes 19 names; its file cannot grow for one more.
-/

namespace Nachos.Filesys

open Function Words Outcome Transition FileHeader

/-! ## Calls that succeed -/

inductive Event where
  | created (key : List UInt8) (sector : ℤ)
  | removed (key : List UInt8)

namespace Event

def key : Event → List UInt8
  | created key _ => key
  | removed key => key

/-- The sector of the header that `Create` has allocated. -/
def sector : Event → Option ℤ
  | created _ sector => some sector
  | removed _ => none

end Event

/-- The header of a key is the one of the last call for it. -/
def names (log : List Event) (key : List UInt8) : Option ℤ :=
  (log.reverse.find? fun e => e.key == key).bind Event.sector

/-- The calls that return `TRUE`. The sector of a header is the first one that is clear. -/
def report (fs : FileSystem) : Request → List Event
  | .create name size =>
    match fs.create name size, fs.fetchFreeMap with
    | .ok (true, _), .ok freeMap => [.created name.key freeMap.findBit.1]
    | _, _ => []
  | .remove name =>
    match fs.remove name with
    | .ok (true, _) => [.removed name.key]
    | _ => []
  | .open_ _ => []

section Names

variable {log : List Event} {e : Event} {key : List UInt8}

@[simp] theorem names_nil : names [] key = none := rfl

theorem names_append_self : names (log ++ [e]) e.key = e.sector := by
  simp [names]

theorem names_append_of_ne (h : e.key ≠ key) : names (log ++ [e]) key = names log key := by
  simp [names, h]

end Names

def FileSystem.HasRoom (fs : FileSystem) (size : ℤ) : Prop :=
  0 ≤ size ∧ size ≤ MaxFileSize ∧ ∃ m, fs.fetchFreeMap = .ok m ∧ dataSectorsOf size < m.numClear

def Request.Answers (fs : FileSystem) (names : List UInt8 → Option ℤ) : Request → Prop
  | .create name size => ∃ success fs', fs.create name size = .ok (success, fs') ∧
      (success = true ↔ names name.key = none ∧ fs.HasRoom size)
  | .remove name => ∃ success fs', fs.remove name = .ok (success, fs') ∧
      (success = true ↔ names name.key ≠ none)
  | .open_ name => ∃ file, fs.open_ name = .ok file ∧ file.map OpenFile.hdrSector = names name.key

/-! ## The directory and the calls -/

namespace Consistent

variable {fs fs' : FileSystem} {w w' : Layout} {log : List Event} {name : CString} {size : ℤ}
  {r : Request}

def Names (w : Layout) (log : List Event) : Prop := ∀ key, w.dir.live.lookup key = names log key

theorem refused_iff (hc : Consistent fs w) : Refused w.map w.dir name size ↔
    ¬ (w.dir.live.lookup name.key = none ∧ fs.HasRoom size) := by
  have hroom : fs.HasRoom size ↔ 0 ≤ size ∧ size ≤ MaxFileSize ∧
      dataSectorsOf size < w.map.numClear := by
    rw [FileSystem.HasRoom, hc.fetchFreeMap]
    simp
  rw [hroom, Refused, ne_eq, hc.find_eq_neg_one_iff]
  by_cases hno : w.dir.live.lookup name.key = none
  · simp only [hno, not_true_eq_false, false_or, true_and]
    omega
  · simp [hno]

theorem answers (hc : Consistent fs w) (hn : Names w log) (hs : r.Safe fs) :
    r.Answers fs (names log) := by
  cases r with
  | create name size =>
    rw [Request.Answers, ← hn]
    rcases hc.create_cases (hc.safe_create_iff.mp hs) with ⟨hr, hcreate⟩ | ⟨hr, fs', w', hcreate, -⟩
    · exact ⟨false, fs, hcreate, by simpa using hc.refused_iff.mp hr⟩
    · exact ⟨true, fs', hcreate, by simpa using not_not.mp (mt hc.refused_iff.mpr hr)⟩
  | remove name =>
    rw [Request.Answers, ← hn]
    cases hl : w.dir.live.lookup name.key with
    | none => exact ⟨false, fs, hc.remove_absent hl, by simp⟩
    | some s =>
      obtain ⟨fs', w', hremove, -⟩ := hc.exists_remove hl (hc.safe_remove hs hl)
      exact ⟨true, fs', hremove, by simp⟩
  | open_ name =>
    rw [Request.Answers, ← hn]
    cases hl : w.dir.live.lookup name.key with
    | none => exact ⟨none, hc.open_absent hl, rfl⟩
    | some s => exact ⟨_, hc.open_present hl, rfl⟩

theorem names_created {s : ℤ} (hn : Names w log) (hc' : Consistent fs' w')
    (hperm : w'.dir.live.Perm ((name.key, s) :: w.dir.live)) :
    Names w' (log ++ [.created name.key s]) := by
  intro key
  rw [Assoc.lookup_perm hperm hc'.keys]
  by_cases hk : key = name.key
  · subst hk
    rw [Assoc.lookup_cons_self]
    exact (names_append_self (e := .created name.key s)).symm
  · rw [Assoc.lookup_cons_of_ne hk, hn, names_append_of_ne (Ne.symm hk)]

theorem names_removed {s : ℤ} (hn : Names w log) (hc : Consistent fs w)
    (hperm : w.dir.live.Perm ((name.key, s) :: w'.dir.live)) :
    Names w' (log ++ [.removed name.key]) := by
  intro key
  by_cases hk : key = name.key
  · subst hk
    have hnodup := (hperm.map Prod.fst).nodup_iff.mp hc.keys
    rw [Assoc.lookup_eq_none_iff.mpr (List.nodup_cons.mp hnodup).1]
    exact (names_append_self (e := .removed name.key)).symm
  · rw [names_append_of_ne (Ne.symm hk), ← hn, Assoc.lookup_perm hperm hc.keys,
      Assoc.lookup_cons_of_ne hk]

theorem step_names (hc : Consistent fs w) (hn : Names w log) (hs : r.Safe fs)
    (h : fs.step r = some fs') :
    ∃ w', Consistent fs' w' ∧ Names w' (log ++ report fs r) := by
  cases r with
  | create name size =>
    rcases hc.create_cases (hc.safe_create_iff.mp hs) with ⟨-, hcreate⟩ |
        ⟨-, fs₁, w₁, hcreate, hc₁, hperm⟩
    · rw [FileSystem.step, hcreate] at h
      cases h
      rw [report, hcreate, List.append_nil]
      exact ⟨w, hc, hn⟩
    · rw [FileSystem.step, hcreate] at h
      cases h
      rw [report, hcreate, hc.fetchFreeMap]
      exact ⟨w₁, hc₁, names_created hn hc₁ hperm⟩
  | remove name =>
    cases hl : w.dir.live.lookup name.key with
    | none =>
      rw [FileSystem.step, hc.remove_absent hl] at h
      cases h
      rw [report, hc.remove_absent hl, List.append_nil]
      exact ⟨w, hc, hn⟩
    | some s =>
      obtain ⟨fs₁, w₁, hremove, hc₁, hperm, -⟩ := hc.exists_remove hl (hc.safe_remove hs hl)
      rw [FileSystem.step, hremove] at h
      cases h
      rw [report, hremove]
      exact ⟨w₁, hc₁, names_removed hn hc hperm⟩
  | open_ name =>
    obtain ⟨-, -, rfl⟩ := Option.map_eq_some_iff.mp h
    rw [report, List.append_nil]
    exact ⟨w, hc, hn⟩

end Consistent

/-- The disk has the name space of the calls. -/
theorem names_of_reachable {s : FileSystem × List Event}
    (h : Reachable (safeSystem.record report) s) :
    ∃ w, Consistent s.1 w ∧ Consistent.Names w s.2 := by
  refine Reachable.invariant (P := fun s => ∃ w, Consistent s.1 w ∧ Consistent.Names w s.2) ?_ ?_ h
  · rintro ⟨fs, log⟩ ⟨hi, hlog⟩
    obtain rfl : log = [] := hlog
    obtain ⟨w, hc, hlive, -⟩ := FileSystem.IsFormatted.consistent hi
    refine ⟨w, hc, fun key => ?_⟩
    rw [hlive, names_nil]
    rfl
  · rintro ⟨fs, log⟩ r ⟨fs', log'⟩ ⟨w, hc, hn⟩ ⟨⟨hs, hstep⟩, hlog⟩
    obtain rfl : log' = log ++ report fs r := hlog
    exact hc.step_names hn hs hstep

/-- In every run of safe requests the next safe request is answered. -/
theorem answers_of_reachable {s : FileSystem × List Event}
    (h : Reachable (safeSystem.record report) s) {r : Request} (hr : r.Safe s.1) :
    r.Answers s.1 (names s.2) := by
  obtain ⟨w, hc, hn⟩ := names_of_reachable h
  exact hc.answers hn hr

/-- A file that is opened. -/
theorem answers_of_reachable_first : ∃ (s : FileSystem × List Event) (name : CString),
    Reachable (safeSystem.record report) s ∧ (Request.open_ name).Answers s.1 (names s.2) ∧
      ∃ file, s.1.open_ name = .ok (some file) := by
  obtain ⟨name⟩ : Nonempty CString := ⟨⟨[97], by decide⟩⟩
  obtain ⟨fs, w, m, s, hr, hc, hlive, -⟩ :=
    exists_first name 256 (by decide) (by decide) (by decide)
  obtain ⟨log, hlog⟩ := hr.exists_record report
  refine ⟨(fs, log), name, hlog, answers_of_reachable hlog trivial, _, hc.open_present (s := s) ?_⟩
  rw [hlive, Assoc.lookup_cons_self]

/-! ## Twenty files -/

def fileName (i : Fin 20) : CString := ⟨[UInt8.ofNat (i + 1)], by revert i; decide⟩

theorem fileName_inj : ∀ i j : Fin 20, (fileName i).key = (fileName j).key → i = j := by
  decide

theorem lookup_fileName {live : List (List UInt8 × ℤ)} {n : ℕ} (hn : n < 20)
    (h : ∀ p ∈ live, ∃ i : Fin 20, (i : ℕ) < n ∧ p.1 = (fileName i).key) :
    live.lookup (fileName ⟨n, hn⟩).key = none := by
  refine Assoc.lookup_eq_none_iff.mpr fun hmem => ?_
  obtain ⟨p, hp, hkey⟩ := List.mem_map.mp hmem
  obtain ⟨i, hi, hpi⟩ := h p hp
  rw [hkey] at hpi
  obtain rfl := fileName_inj _ _ hpi
  exact Nat.lt_irrefl _ hi

/-- The entries of the directory and the sectors of its file, with `n` names. -/
def tableAfter (n : ℕ) : ℕ × ℕ :=
  if n ≤ 4 then (4, 1) else if n ≤ 6 then (6, 1) else if n ≤ 9 then (9, 2)
  else if n ≤ 13 then (13, 3) else (19, 3)

theorem tableAfter_succ : ∀ n < 19,
    (tableAfter (n + 1)).1 =
      (if n = (tableAfter n).1 then (tableAfter n).1 * 3 / 2 else (tableAfter n).1) ∧
    (tableAfter (n + 1)).2 = (tableAfter n).2 +
      (if Directory.fileSize (tableAfter (n + 1)).1 ≤ (tableAfter n).2 * SectorSize then 0 else 1) ∧
    Directory.fileSize (tableAfter (n + 1)).1 ≤ (tableAfter (n + 1)).2 * SectorSize ∧
    (tableAfter (n + 1)).2 ≤ NumDirect := by
  decide

theorem exists_files {n : ℕ} (hn : n ≤ 19) : ∃ fs w, Reachable safeSystem fs ∧ Consistent fs w ∧
    w.dir.live.length = n ∧ (∀ p ∈ w.dir.live, ∃ i : Fin 20, (i : ℕ) < n ∧ p.1 = (fileName i).key) ∧
    w.dir.tableSize = (tableAfter n).1 ∧ w.dirLen = (tableAfter n).2 ∧
    w.map.numClear + n + w.dirLen = 1021 := by
  induction n with
  | zero =>
    obtain ⟨fs, w, hformat, hc, hdir, hlen, hmap⟩ :=
      FileSystem.exists_format (fun _ => 0) (fun _ => 0)
      (fun _ => 0) fun _ _ => 0
    have hlive : w.dir.live = [] := by rw [hdir, FileSystem.live_formatDirectory]
    refine ⟨fs, w, .init ⟨_, _, _, _, hformat⟩, hc,
      by rw [hlive]; rfl, by simp [hlive], ?_, hlen, ?_⟩
    · rw [hdir, FileSystem.tableSize_formatDirectory]
      rfl
    · rw [hmap, hlen, BitMap.numClear_after, FileSystem.numClear_formatMap]
  | succ n ih =>
    obtain ⟨fs, w, hr, hc, hcount, hkeys, hsize, hlen, hclear⟩ := ih (by omega)
    obtain ⟨hsize', hlen', hroom, hdirect⟩ := tableAfter_succ n (by omega)
    have hnext : w.dir.nextSize = (tableAfter (n + 1)).1 := by
      simp only [Directory.nextSize, Directory.isFull_iff, hcount, hsize, hsize']
    have hgrowth : w.dirLen + w.dir.growth w.dirLen = (tableAfter (n + 1)).2 := by
      rw [Directory.growth, hnext, hlen, hlen']
    obtain ⟨name, hname⟩ : ∃ name, name = fileName ⟨n, by omega⟩ := ⟨_, rfl⟩
    have hno : w.dir.live.lookup name.key = none := hname ▸ lookup_fileName (by omega) hkeys
    have hfit : CreateFits w.map w.dir w.dirLen 0 := by
      have htotal : totalSectorsOf 0 = 0 := by decide
      unfold NumDirect at hdirect
      refine ⟨by omega, ?_, ?_⟩
      · rw [hgrowth, hnext]
        exact hroom
      · rw [hgrowth]
        exact hdirect
    obtain ⟨fs', w', hcreate, hc', hperm, hsizew, -, hmap, hlenw, -⟩ :=
      hc.exists_create hno (Int.le_refl 0)
      (by decide) hfit
    have hstep : fs.step (.create name 0) = some fs' := by
      rw [FileSystem.step, hcreate]
      rfl
    have hsafe : (Request.create name 0).Safe fs := hc.safe_create_iff.mpr (.inr hfit)
    refine ⟨fs', w', hr.step ⟨hsafe, hstep⟩, hc', ?_, ?_,
      by rw [hsizew, hnext], by rw [hlenw, hgrowth], ?_⟩
    · rw [hperm.length_eq, List.length_cons, hcount]
    · intro p hp
      rcases List.mem_cons.mp (hperm.mem_iff.mp hp) with rfl | hp
      · exact ⟨⟨n, by omega⟩, Nat.lt_succ_self n, by rw [hname]⟩
      · obtain ⟨i, hi, hpi⟩ := hkeys p hp
        exact ⟨i, by omega, hpi⟩
    · have htotal : totalSectorsOf 0 = 0 := by decide
      have := hfit.sectors
      rw [hmap, BitMap.numClear_after, hlenw]
      omega

/-- `Create` of the next name stops in the middle, though most sectors are free. -/
theorem exists_not_answers : ∃ (s : FileSystem × List Event) (name : CString),
    Reachable (FileSystem.system.record report) s ∧
      (∃ m, s.1.fetchFreeMap = .ok m ∧ 900 ≤ m.numClear) ∧
      ¬ (Request.create name 0).Answers s.1 (names s.2) := by
  obtain ⟨fs, w, hr, hc, hcount, hkeys, hsize, hlen, hclear⟩ := exists_files (Nat.le_refl 19)
  obtain ⟨log, hlog⟩ := hr.of_guard.exists_record report
  replace hlen : w.dirLen = 3 := hlen
  have hnext : w.dir.nextSize = 28 := by
    rw [Directory.nextSize, if_pos (Directory.isFull_iff.mpr (by rw [hcount, hsize]; rfl)), hsize]
    rfl
  refine ⟨(fs, log), fileName 19, hlog, ⟨w.map, hc.fetchFreeMap, by omega⟩, ?_⟩
  rintro ⟨success, fs', hcreate, -⟩
  obtain ⟨name, hname⟩ : ∃ name, name = fileName 19 := ⟨_, rfl⟩
  rw [← hname] at hcreate
  have hno : w.dir.live.lookup name.key = none := hname ▸ lookup_fileName (by decide) hkeys
  obtain ⟨dir', hadd, -, hsize', -⟩ := hc.exists_add hno
  have hdata : dataSectorsOf 0 = 0 := by decide
  dsimp only at hcreate
  rw [hc.create_eq_flush hno (Int.le_refl 0) (by decide) (by omega) hadd, bind_eq_ok] at hcreate
  obtain ⟨fs₁, hflush, -⟩ := hcreate
  obtain ⟨d, hc₁, -, -, hwrite, -⟩ := hc.flush_eq_ok (Int.le_refl 0) (by decide) (by omega) hflush
  obtain ⟨h₀, hsec₀, hsec⟩ := hc₁.map_notMem
  have hfar : NumDirect * SectorSize < Directory.fileSize dir'.tableSize := by
    rw [hsize', hnext]
    decide
  rw [hc₁.directoryFile_eq] at hwrite
  exact hc₁.dir.toDirHeader.writeBack_far hc₁.map h₀ hsec₀ hsec (by rw [hlen]; decide) hfar hwrite

end Nachos.Filesys
