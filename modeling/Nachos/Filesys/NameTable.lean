import Nachos.Library.Object
import Nachos.Filesys.Names

/-! # The directory in memory as a map

From its constructor on, a directory of two entries or more answers every
sequence of `Add`, `Remove` and `Find` as a map from names, cut to the
characters that count, to sectors.
-/

namespace Nachos.Filesys.Directory

open Function Object Outcome

variable {dir dir' : Directory} {name : CString} {s : ℤ} {M : List UInt8 → Option ℤ}

/-- `Directory::Directory`; the other fields of the entries are not initialised. -/
def new (size : ℕ) (memory : ℕ → DirectoryEntry) : Directory :=
  ⟨(List.range size).map fun i => { memory i with inUse := false }⟩

inductive Op
  | add (name : CString) (newSector : ℤ)
  | remove (name : CString)
  | find (name : CString)

inductive Answer
  | bool (b : Bool)
  | int (i : ℤ)
  deriving DecidableEq

def op : Op → Directory → Except Fault (Answer × Directory)
  | .add name newSector, dir => (dir.add name newSector).map fun r => (.bool r.1, r.2)
  | .remove name, dir => .ok (.bool (dir.remove name).1, (dir.remove name).2)
  | .find name, dir => .ok (.int (dir.find name), dir)

/-- What the operations mean for a map from cut names to sectors. -/
def mapOp : Op → (List UInt8 → Option ℤ) → Answer × (List UInt8 → Option ℤ)
  | .add name newSector, M =>
    if (M name.key).isSome then (.bool false, M)
    else (.bool true, update M name.key (some newSector))
  | .remove name, M =>
    if (M name.key).isSome then (.bool true, update M name.key none) else (.bool false, M)
  | .find name, M => (.int ((M name.key).getD (-1)), M)

/-- The entries in use have different names, and are those of the map. -/
structure Represents (dir : Directory) (M : List UInt8 → Option ℤ) : Prop where
  size : 2 ≤ dir.tableSize
  distinct : (dir.live.map Prod.fst).Nodup
  lookup : ∀ key, dir.live.lookup key = M key

theorem represents_new {size : ℕ} (hsize : 2 ≤ size) (memory : ℕ → DirectoryEntry) :
    Represents (new size memory) fun _ => none := by
  have hlive : (new size memory).live = [] := by simp [new, live, liveEntries]
  refine ⟨by simpa [new, tableSize] using hsize, ?_, fun key => ?_⟩
  · simp [hlive]
  · simp [hlive]

namespace Represents

theorem insert (h : Represents dir M) (hno : M name.key = none) (hsize : 2 ≤ dir'.tableSize)
    (hlive : dir'.live.Perm ((name.key, s) :: dir.live)) :
    Represents dir' (update M name.key (some s)) := by
  have hnew : name.key ∉ dir.live.map Prod.fst :=
    Assoc.lookup_eq_none_iff.mp ((h.lookup _).trans hno)
  have hdistinct : (dir'.live.map Prod.fst).Nodup :=
    (hlive.map _).nodup_iff.mpr (List.nodup_cons.mpr ⟨hnew, h.distinct⟩)
  refine ⟨hsize, hdistinct, fun key => ?_⟩
  rw [Assoc.lookup_perm hlive hdistinct]
  by_cases hkey : key = name.key
  · rw [hkey, Assoc.lookup_cons_self, update_self]
  · rw [Assoc.lookup_cons_of_ne hkey, update_of_ne hkey, h.lookup]

theorem erase (h : Represents dir M) (hsize : 2 ≤ dir'.tableSize)
    (hlive : dir.live.Perm ((name.key, s) :: dir'.live)) :
    Represents dir' (update M name.key none) := by
  obtain ⟨hgone, hdistinct⟩ := List.nodup_cons.mp ((hlive.map _).nodup_iff.mp h.distinct)
  refine ⟨hsize, hdistinct, fun key => ?_⟩
  by_cases hkey : key = name.key
  · rw [hkey, update_self]
    exact Assoc.lookup_eq_none_iff.mpr hgone
  · rw [update_of_ne hkey, ← h.lookup, Assoc.lookup_perm hlive h.distinct,
      Assoc.lookup_cons_of_ne hkey]

theorem nextSize (h : Represents dir M) : 2 ≤ dir.nextSize := by
  have := h.size
  unfold Directory.nextSize
  split <;> omega

end Represents

/-- Each operation does to the map what it says. -/
theorem refines_mapOp : Refines op mapOp (fun _ => True) Represents := by
  intro dir M a h _
  cases a with
  | add name s =>
    by_cases hin : (M name.key).isSome
    · have hadd : dir.add name s = .ok (false, dir) := add_of_isSome (by rw [h.lookup]; exact hin)
      rw [mapOp, if_pos hin, op, hadd]
      exact ⟨dir, rfl, h⟩
    · have hno : M name.key = none := Option.not_isSome_iff_eq_none.mp hin
      obtain ⟨dir', hadd, hlive, hsize, -⟩ :=
        exists_add_sectors (s := s) h.size ((h.lookup name.key).trans hno)
      rw [mapOp, if_neg hin, op, hadd]
      exact ⟨dir', rfl, h.insert hno (hsize ▸ h.nextSize) hlive⟩
  | remove name =>
    by_cases hin : (M name.key).isSome
    · obtain ⟨s, hs⟩ := Option.isSome_iff_exists.mp hin
      obtain ⟨dir', hremove, hlive, hsize, -⟩ :=
        exists_remove_sectors ((h.lookup name.key).trans hs) h.distinct
      rw [mapOp, if_pos hin, op, hremove]
      exact ⟨dir', rfl, h.erase (hsize ▸ h.size) hlive⟩
    · have hfind : dir.findIndex name = none := by
        rw [← Option.not_isSome_iff_eq_none, isSome_findIndex, h.lookup]
        exact hin
      rw [mapOp, if_neg hin, op, remove, hfind]
      exact ⟨dir, rfl, h⟩
  | find name => exact ⟨dir, by rw [op, mapOp, find_eq, h.lookup], h⟩

/-- From a new directory of two entries or more, every sequence of operations has the answers of a
map that starts empty, and the table represents that map after it. -/
theorem run_op_eq_mapOp (size : ℕ) (hsize : 2 ≤ size) (memory : ℕ → DirectoryEntry)
    (ops : List Op) :
    ∃ dir, run op ops (new size memory) = .ok ((runSpec mapOp ops fun _ => none).1, dir) ∧
      Represents dir (runSpec mapOp ops fun _ => none).2 :=
  refines_mapOp.run (fun _ _ => trivial) (represents_new hsize memory)

/-- Three names in a table of two entries, and a fourth with the first nine characters of the
third. -/
theorem run_op_eq_mapOp_three :
    let memory : ℕ → DirectoryEntry := fun _ => ⟨true, 7, fun _ => 97⟩
    let a : CString := ⟨[97], by decide⟩
    let b : CString := ⟨[98], by decide⟩
    let c : CString := ⟨List.replicate 9 99, by decide⟩
    let c' : CString := ⟨List.replicate 9 99 ++ [100], by decide⟩
    ∃ dir, run op [.add a 2, .add b 3, .add c 4, .add c' 5, .remove b, .find b, .add b 6, .find c',
        .remove b, .remove b] (new 2 memory) =
      .ok ([.bool true, .bool true, .bool true, .bool false, .bool true, .int (-1), .bool true,
        .int 4, .bool true, .bool false], dir) := by
  intro memory a b c c'
  obtain ⟨dir, hrun, -⟩ := run_op_eq_mapOp 2 (by decide) memory [.add a 2, .add b 3, .add c 4,
    .add c' 5, .remove b, .find b, .add b 6, .find c', .remove b, .remove b]
  exact ⟨dir, hrun⟩

end Nachos.Filesys.Directory
