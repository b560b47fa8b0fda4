import Nachos.Library.Assoc
import Nachos.Filesys.Directory

/-! # The names in a directory

Two names are the same to a directory if their first nine characters are. The
entries in use are a list of such keys with the sectors of their headers; `Add`
and `Remove` put one pair into it and take one out.
-/

namespace Nachos.Filesys

open Function Words

/-! ## Characters -/

def cut : ℕ → List UInt8 → List UInt8
  | 0, _ => []
  | n + 1, l => if l.headD 0 = 0 then [] else l.headD 0 :: cut n l.tail

variable {a b l : List UInt8} {n m : ℕ}

theorem strncmpEq_iff : strncmpEq n a b = true ↔ cut n a = cut n b := by
  induction n generalizing a b with
  | zero => simp [strncmpEq, cut]
  | succ n ih =>
    rw [strncmpEq, cut, cut]
    generalize a.headD 0 = x
    generalize b.headD 0 = y
    by_cases hxy : x = y
    · by_cases hy : y = 0 <;> simp [hxy, hy, ih]
    · by_cases hx : x = 0
      · subst hx
        simp [hxy, Ne.symm hxy]
      · by_cases hy : y = 0 <;> simp [hxy, hx, hy]

theorem cut_congr (h : ∀ i < n, a.getD i 0 = b.getD i 0) : cut n a = cut n b := by
  induction n generalizing a b with
  | zero => rfl
  | succ n ih =>
    have hhead : ∀ l : List UInt8, l.headD 0 = l.getD 0 0 := fun l => by cases l <;> rfl
    have htail : ∀ (l : List UInt8) i, l.tail.getD i 0 = l.getD (i + 1) 0 :=
      fun l i => by cases l <;> simp
    rw [cut, cut, hhead, hhead, h 0 (Nat.succ_pos n), ih fun i hi => ?_]
    rw [htail, htail, h (i + 1) (Nat.succ_lt_succ hi)]

theorem cut_takeWhile : cut n (l.takeWhile (· ≠ 0)) = cut n l := by
  induction n generalizing l with
  | zero => rfl
  | succ n ih =>
    cases l with
    | nil => rfl
    | cons c l =>
      by_cases hc : c = 0
      · simp [cut, hc]
      · simp [cut, hc, ← ih (l := l)]

theorem cut_of_not_mem (h : 0 ∉ l) : cut n l = l.take n := by
  induction n generalizing l with
  | zero => rfl
  | succ n ih =>
    cases l with
    | nil => rfl
    | cons c l =>
      obtain ⟨hc, hl⟩ := not_or.mp (mt List.mem_cons.mpr h)
      simp [cut, Ne.symm hc, ih hl]

theorem cut_strncpy {dest : Fin m → UInt8} {k : ℕ} (hn : n ≤ k) (hk : k ≤ m) :
    cut n (List.ofFn (strncpy dest l k)) = cut n l := by
  rw [← cut_takeWhile (l := l)]
  refine cut_congr fun i hi => ?_
  have him : i < m := by omega
  simp [strncpy, List.getD_eq_getElem?_getD, him, show i < k by omega]

/-! ## Keys -/

def CString.key (name : CString) : List UInt8 := name.val.take FileNameMaxLen

namespace DirectoryEntry

variable {e : DirectoryEntry} {name : CString} {s : ℤ}

def key (e : DirectoryEntry) : List UInt8 := cut FileNameMaxLen e.chars

@[simp] theorem key_set : (e.set name s).key = name.key := by
  rw [key, chars, set, cut_strncpy (Nat.le_refl _) (by decide), cut_of_not_mem name.prop]
  rfl

@[simp] theorem key_copy : e.copy.key = e.key := by
  rw [key, chars, copy, cut_strncpy (by decide) (Nat.le_refl _), key]

@[simp] theorem inUse_set : (e.set name s).inUse = true := rfl

@[simp] theorem sector_set : (e.set name s).sector = s := rfl

@[simp] theorem inUse_copy : e.copy.inUse = e.inUse := rfl

@[simp] theorem sector_copy : e.copy.sector = e.sector := rfl

end DirectoryEntry

namespace Directory

variable {dir dir' : Directory} {name : CString} {s : ℤ} {key : List UInt8}

theorem isEntry_iff {e : DirectoryEntry} :
    isEntry name e = true ↔ e.inUse = true ∧ e.key = name.key := by
  rw [isEntry, Bool.and_eq_true, strncmpEq_iff, cut_of_not_mem name.prop]
  rfl

def liveEntries (table : List DirectoryEntry) : List (List UInt8 × ℤ) :=
  (table.filter DirectoryEntry.inUse).map fun e => (e.key, e.sector)

def live (dir : Directory) : List (List UInt8 × ℤ) := liveEntries dir.table

variable {e e' : DirectoryEntry} {t t₁ t₂ : List DirectoryEntry}

@[simp] theorem liveEntries_append : liveEntries (t₁ ++ t₂) = liveEntries t₁ ++ liveEntries t₂ := by
  simp [liveEntries]

theorem liveEntries_cons_of_inUse (h : e.inUse = true) :
    liveEntries (e :: t) = (e.key, e.sector) :: liveEntries t := by
  simp [liveEntries, h]

theorem liveEntries_cons_of_not (h : e.inUse = false) : liveEntries (e :: t) = liveEntries t := by
  simp [liveEntries, h]

theorem liveEntries_map_copy : liveEntries (t.map .copy) = liveEntries t := by
  induction t with
  | nil => rfl
  | cons e t ih =>
    cases h : e.inUse with
    | true =>
      rw [List.map_cons, liveEntries_cons_of_inUse (e := e.copy) h, liveEntries_cons_of_inUse h,
        ih, DirectoryEntry.key_copy, DirectoryEntry.sector_copy]
    | false =>
      rw [List.map_cons, liveEntries_cons_of_not (e := e.copy) h, liveEntries_cons_of_not h, ih]

theorem liveEntries_replicate : liveEntries (List.replicate n .zero) = [] := by
  simp [liveEntries, DirectoryEntry.zero]

/-! ## Searching, adding and removing -/

theorem lookup_liveEntries :
    (liveEntries t).lookup name.key = (t.find? (isEntry name)).map DirectoryEntry.sector := by
  induction t with
  | nil => rfl
  | cons e t ih =>
    cases hu : e.inUse with
    | false =>
      have hno : isEntry name e = false := by simp [isEntry, hu]
      rw [liveEntries_cons_of_not hu, List.find?_cons, hno, ih]
    | true =>
      rw [liveEntries_cons_of_inUse hu, List.find?_cons]
      by_cases hk : e.key = name.key
      · rw [isEntry_iff.mpr ⟨hu, hk⟩, hk, Assoc.lookup_cons_self]
        rfl
      · have hno : isEntry name e = false :=
          Bool.eq_false_iff.mpr fun h => hk (isEntry_iff.mp h).2
        rw [hno, Assoc.lookup_cons_of_ne (Ne.symm hk), ih]

theorem find_eq : dir.find name = (dir.live.lookup name.key).getD (-1) := by
  rw [live, lookup_liveEntries, find]

theorem isSome_findIndex : (dir.findIndex name).isSome = (dir.live.lookup name.key).isSome := by
  rw [live, lookup_liveEntries, findIndex, List.findIdx?_isSome, Option.isSome_map, Bool.eq_iff_iff,
    List.any_eq_true, List.find?_isSome]

def IsFull (dir : Directory) : Prop := dir.table.findIdx? (fun e => !e.inUse) = none

instance : Decidable dir.IsFull := inferInstanceAs (Decidable (_ = _))

theorem isFull_iff : dir.IsFull ↔ dir.live.length = dir.tableSize := by
  rw [IsFull, List.findIdx?_eq_none_iff, live, liveEntries, List.length_map, tableSize,
    List.length_filter_eq_length_iff]
  simp

def nextSize (dir : Directory) : ℕ :=
  if dir.IsFull then dir.tableSize * 3 / 2 else dir.tableSize

theorem tableSize_grow (hT : 2 ≤ dir.tableSize) :
    dir.grow.tableSize = dir.tableSize * 3 / 2 ∧ dir.tableSize < dir.tableSize * 3 / 2 := by
  simp only [grow, tableSize, List.length_append, List.length_map, List.length_replicate] at *
  omega

theorem liveEntries_set (h : e.inUse = false) :
    (liveEntries (t₁ ++ e.set name s :: t₂)).Perm
    ((name.key, s) :: liveEntries (t₁ ++ e :: t₂)) := by
  rw [liveEntries_append, liveEntries_cons_of_inUse (e := e.set name s) rfl, liveEntries_append,
    liveEntries_cons_of_not h, DirectoryEntry.key_set, DirectoryEntry.sector_set]
  exact List.perm_middle

/-- `Add` of a new name, into a free entry or into the first entry of a larger table. -/
theorem exists_add_sectors (hT : 2 ≤ dir.tableSize) (hno : dir.live.lookup name.key = none) :
    ∃ dir', dir.add name s = .ok (true, dir') ∧ dir'.live.Perm ((name.key, s) :: dir.live) ∧
      dir'.tableSize = dir.nextSize ∧
      ∀ e ∈ dir'.table, e.sector = s ∨ e.sector = 0 ∨ ∃ e' ∈ dir.table, e'.sector = e.sector := by
  have hfind : (dir.findIndex name).isSome = false := by rw [isSome_findIndex, hno]; rfl
  rw [add, hfind, if_neg (by decide)]
  by_cases hfull : dir.IsFull
  · -- the table is copied, and the entry behind the old ones is free
    obtain ⟨hsize, hlt⟩ := tableSize_grow hT
    have hsplit : dir.grow.table = dir.table.map .copy ++ DirectoryEntry.zero ::
        List.replicate (dir.tableSize * 3 / 2 - dir.tableSize - 1) .zero := by
      rw [grow, ← List.replicate_succ, Nat.sub_add_cancel (by omega)]
    have hmodify : dir.grow.table.modify dir.tableSize (.set name s) = dir.table.map .copy ++
        DirectoryEntry.zero.set name s ::
          List.replicate (dir.tableSize * 3 / 2 - dir.tableSize - 1) .zero := by
      rw [hsplit, tableSize, ← List.length_map DirectoryEntry.copy, Assoc.modify_split]
    rw [show dir.table.findIdx? (fun e => !e.inUse) = none from hfull, nextSize, if_pos hfull]
    dsimp only
    rw [if_pos (by omega), hmodify]
    refine ⟨_, rfl, ?_, ?_, ?_⟩
    · refine (liveEntries_set rfl).trans (.cons _ ?_)
      rw [liveEntries_append, liveEntries_map_copy, ← List.replicate_succ, liveEntries_replicate,
        List.append_nil, live]
    · rw [← hmodify, tableSize, List.length_modify]
      exact hsize
    · intro e he
      rcases List.mem_append.mp he with he | he
      · obtain ⟨e', he', rfl⟩ := List.mem_map.mp he
        exact .inr (.inr ⟨e', he', rfl⟩)
      · rcases List.mem_cons.mp he with rfl | he
        · exact .inl rfl
        · exact .inr (.inl (by rw [List.eq_of_mem_replicate he]; rfl))
  · obtain ⟨i, hi⟩ := Option.ne_none_iff_exists'.mp hfull
    obtain ⟨t₁, e, t₂, ht, rfl, he⟩ := Assoc.split_of_findIdx? hi
    rw [hi, nextSize, if_neg hfull]
    refine ⟨_, rfl, ?_, by simp [tableSize], fun e' he' => ?_⟩
    · rw [live, live, ht, Assoc.modify_split]
      exact liveEntries_set (by simpa using he)
    · simp only [ht, Assoc.modify_split, List.mem_append, List.mem_cons] at he'
      rcases he' with he' | rfl | he'
      · exact .inr (.inr ⟨e', by simp [ht, he'], rfl⟩)
      · exact .inl rfl
      · exact .inr (.inr ⟨e', by simp [ht, he'], rfl⟩)

theorem exists_add (hT : 2 ≤ dir.tableSize) (hno : dir.live.lookup name.key = none)
    (hints : ∀ e ∈ dir.table, IsInt e.sector) (hs : IsInt s) :
    ∃ dir', dir.add name s = .ok (true, dir') ∧ dir'.live.Perm ((name.key, s) :: dir.live) ∧
      dir'.tableSize = dir.nextSize ∧ ∀ e ∈ dir'.table, IsInt e.sector := by
  obtain ⟨dir', hadd, hlive, hsize, hsectors⟩ := exists_add_sectors (s := s) hT hno
  refine ⟨dir', hadd, hlive, hsize, fun e he => ?_⟩
  rcases hsectors e he with h | h | ⟨e', he', h⟩
  · exact h ▸ hs
  · rw [h]
    decide
  · exact h ▸ hints e' he'

theorem add_of_isSome (h : (dir.live.lookup name.key).isSome) :
    dir.add name s = .ok (false, dir) := by
  rw [add, if_pos (by rw [isSome_findIndex]; exact h)]

theorem exists_remove_sectors (h : dir.live.lookup name.key = some s)
    (hnodup : (dir.live.map Prod.fst).Nodup) :
    ∃ dir', dir.remove name = (true, dir') ∧ dir.live.Perm ((name.key, s) :: dir'.live) ∧
      dir'.tableSize = dir.tableSize ∧
      ∀ e ∈ dir'.table, ∃ e' ∈ dir.table, e'.sector = e.sector := by
  have hsome : (dir.findIndex name).isSome := by rw [isSome_findIndex, h]; rfl
  obtain ⟨i, hi⟩ := Option.isSome_iff_exists.mp hsome
  obtain ⟨t₁, e, t₂, ht, rfl, he⟩ := Assoc.split_of_findIdx? hi
  obtain ⟨hu, hk⟩ := isEntry_iff.mp he
  have hperm : dir.live.Perm ((e.key, e.sector) :: liveEntries (t₁ ++ t₂)) := by
    rw [live, ht, liveEntries_append, liveEntries_cons_of_inUse hu, liveEntries_append]
    exact List.perm_middle
  have hsec : e.sector = s := by
    rw [Assoc.lookup_perm hperm hnodup, hk, Assoc.lookup_cons_self] at h
    exact Option.some.inj h
  rw [remove, hi]
  refine ⟨_, rfl, ?_, by simp [tableSize], fun e' he' => ?_⟩
  · have hlive : liveEntries (t₁ ++ { e with inUse := false } :: t₂) = liveEntries (t₁ ++ t₂) := by
      rw [liveEntries_append, liveEntries_cons_of_not (e := { e with inUse := false }) rfl,
        ← liveEntries_append]
    rw [← hsec, ← hk, ht, Assoc.modify_split]
    change dir.live.Perm (_ :: liveEntries _)
    rw [hlive]
    exact hperm
  · simp only [ht, Assoc.modify_split, List.mem_append, List.mem_cons] at he'
    rcases he' with he' | rfl | he'
    · exact ⟨e', by simp [ht, he'], rfl⟩
    · exact ⟨e, by simp [ht], rfl⟩
    · exact ⟨e', by simp [ht, he'], rfl⟩

theorem exists_remove (h : dir.live.lookup name.key = some s)
    (hints : ∀ e ∈ dir.table, IsInt e.sector) (hnodup : (dir.live.map Prod.fst).Nodup) :
    ∃ dir', dir.remove name = (true, dir') ∧ dir.live.Perm ((name.key, s) :: dir'.live) ∧
      dir'.tableSize = dir.tableSize ∧ ∀ e ∈ dir'.table, IsInt e.sector := by
  obtain ⟨dir', hremove, hlive, hsize, hsectors⟩ := exists_remove_sectors h hnodup
  refine ⟨dir', hremove, hlive, hsize, fun e he => ?_⟩
  obtain ⟨e', he', hsec⟩ := hsectors e he
  exact hsec ▸ hints e' he'

end Directory

end Nachos.Filesys
