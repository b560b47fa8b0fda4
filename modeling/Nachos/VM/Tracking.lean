import Mathlib.Data.List.Perm.Basic
import Nachos.Library.CArray
import Nachos.VM.Replacement

/-! # The frames in the arrays of the policies

The loops of the policies are given access by access. Whatever gaps `LRU` has
left, a call exchanges one entry of the array and permutes the others, so the
array holds the frames that have been used and not been cleared.
-/

namespace Nachos.VM.Queue

open CArray Transition

variable {f : Frame} {l : List Frame} {last page pPage x : ℤ} {q q' q₁ q₂ : List ℤ} {turns i : ℕ}

/-! ## The loops -/

def search (x : ℤ) (queue : List ℤ) : ℕ → ℕ → Option ℕ
  | 0, i => some i
  | turns + 1, i => do
    let page ← load queue i
    if page = x then some i else search x queue turns (i + 1)

/-- The second loop of `clearPage` and `LRU::markPage`, with the index behind it. -/
def moveLoop : ℕ → ℕ → List ℤ → Option (ℕ × List ℤ)
  | 0, i, queue => some (i, queue)
  | turns + 1, i, queue => do
    let page ← load queue i
    if page = -1 then some (i, queue)
    else
      let next ← load queue (i + 1)
      let queue ← store i next queue
      moveLoop turns (i + 1) queue

/-- The loop of `getReplacement`. -/
def rotateLoop : ℕ → ℕ → List ℤ → Option (List ℤ)
  | 0, _, queue => some queue
  | turns + 1, i, queue => do
    let page ← load queue i
    let queue ← store (i - 1) page queue
    rotateLoop turns (i + 1) queue

/-- `pageUsed` of the three policies. -/
def pageUsedLoop (pPage : ℤ) (queue : List ℤ) : Option (List ℤ) := do
  let i ← search (-1) queue NumPhysPages 0
  if i < NumPhysPages then store i pPage queue else some queue

/-- `getReplacement` of `FIFO` and `LRU`. -/
def getReplacementLoop (queue : List ℤ) : Option (ℤ × List ℤ) := do
  let page ← load queue 0
  let queue ← rotateLoop (NumPhysPages - 1) 1 queue
  let queue ← store (NumPhysPages - 1) page queue
  some (page, queue)

/-- `clearPage` of `FIFO` and `LRU`, and `LRU::markPage`, which differ in what they store behind the
loop; for a page that is not there `LRU::markPage` would store a variable that is not set. -/
def takeOutLoop (last pPage : ℤ) (queue : List ℤ) : Option (List ℤ) := do
  let i ← search pPage queue NumPhysPages 0
  let (i, queue) ← moveLoop (NumPhysPages - 1 - i) i queue
  store i last queue

/-- `RandomReplacement::clearPage`. -/
def clearPageRandom (pPage : ℤ) (queue : List ℤ) : Option (List ℤ) := do
  let i ← search pPage queue NumPhysPages 0
  store i (-1) queue

theorem search_append (q₁ q₂ : List ℤ) : search x (q₁ ++ q₂) q₂.length q₁.length =
    some (q₁.length + q₂.idxOf x) := by
  induction q₂ generalizing q₁ with
  | nil => rfl
  | cons page q₂ ih =>
    rw [List.length_cons, search, load_append_cons rfl]
    simp only [Option.bind_eq_bind, Option.bind_some]
    by_cases hpage : page = x
    · rw [if_pos hpage, hpage, List.idxOf_cons_self, Nat.add_zero]
    · have hih := ih (q₁ ++ [page])
      rw [List.append_assoc, List.singleton_append, List.length_append,
        List.length_singleton] at hih
      rw [if_neg hpage, hih, List.idxOf_cons_ne _ hpage]
      congr 1
      omega

theorem search_eq (hq : q.length = NumPhysPages) :
    search x q NumPhysPages 0 = some (q.idxOf x) := by
  rw [← hq]
  have h := search_append (x := x) [] q
  rwa [List.nil_append, List.length_nil, Nat.zero_add] at h

theorem moveLoop_append (q₁ q₂ : List ℤ) (page : ℤ) :
    ((moveLoop q₂.length q₁.length (q₁ ++ page :: q₂)).bind fun r => store r.1 last r.2) =
      some (q₁ ++ shift last (page :: q₂)) := by
  induction q₂ generalizing q₁ page with
  | nil => exact store_append_cons rfl
  | cons next q₂ ih =>
    rw [List.length_cons, moveLoop, load_append_cons rfl, shift]
    simp only [Option.bind_eq_bind, Option.bind_some]
    by_cases hpage : page = -1
    · rw [if_pos hpage, if_pos hpage, Option.bind_some]
      exact store_append_cons rfl
    · have hload : load (q₁ ++ page :: next :: q₂) (q₁.length + 1) = some next := by
        rw [← List.singleton_append, ← List.append_assoc]
        exact load_append_cons (by simp)
      have hih := ih (q₁ ++ [next]) next
      rw [List.append_assoc, List.singleton_append, List.length_append, List.length_singleton,
        List.append_assoc, List.singleton_append] at hih
      rw [if_neg hpage, if_neg hpage, hload, Option.bind_some, store_append_cons rfl,
        Option.bind_some, hih]

theorem rotateLoop_append (q₁ q₂ : List ℤ) (page : ℤ) :
    rotateLoop q₂.length (q₁.length + 1) (q₁ ++ page :: q₂) =
      some (q₁ ++ q₂ ++ [(page :: q₂).getLast (List.cons_ne_nil _ _)]) := by
  induction q₂ generalizing q₁ page with
  | nil => simp [rotateLoop]
  | cons next q₂ ih =>
    have hload : load (q₁ ++ page :: next :: q₂) ((q₁.length + 1 : ℕ) : ℤ) = some next := by
      rw [← List.singleton_append, ← List.append_assoc]
      exact load_append_cons (by simp)
    have hih := ih (q₁ ++ [next]) next
    rw [List.append_assoc, List.singleton_append, List.length_append,
      List.length_singleton] at hih
    rw [List.length_cons, rotateLoop, hload]
    simp only [Option.bind_eq_bind, Option.bind_some]
    rw [store_append_cons (by omega), Option.bind_some, hih]
    simp

/-! ## What the calls do to an array of the right length -/

theorem idxOf_append_cons (h : x ∉ q₁) : (q₁ ++ x :: q₂).idxOf x = q₁.length := by
  rw [List.idxOf_append_of_notMem h, List.idxOf_cons_self, Nat.add_zero]

section Equations

variable (hq : q.length = NumPhysPages)

include hq

theorem pageUsedLoop_eq : pageUsedLoop pPage q = some (pageUsed pPage q) := by
  rw [pageUsedLoop, search_eq hq]
  simp only [Option.bind_eq_bind, Option.bind_some]
  by_cases hmem : -1 ∈ q
  · obtain ⟨q₁, q₂, hnot, rfl, -⟩ := List.exists_erase_eq hmem
    rw [idxOf_append_cons hnot, if_pos (by rw [← hq, List.length_append, List.length_cons]; omega),
      store_append_cons rfl, pageUsed_of_not_mem hnot]
  · have hsame : ∀ q : List ℤ, -1 ∉ q → pageUsed pPage q = q := by
      intro q hnot
      induction q with
      | nil => rfl
      | cons page q ih =>
        obtain ⟨hpage, hnot⟩ := not_or.mp (mt List.mem_cons.mpr hnot)
        rw [pageUsed, if_neg (Ne.symm hpage), ih hnot]
    rw [List.idxOf_eq_length hmem, hq, if_neg (lt_irrefl _), hsame q hmem]

theorem takeOutLoop_eq : takeOutLoop last pPage q = takeOut last pPage q := by
  rw [takeOutLoop, search_eq hq]
  simp only [Option.bind_eq_bind, Option.bind_some]
  by_cases hmem : pPage ∈ q
  · obtain ⟨q₁, q₂, hnot, rfl, -⟩ := List.exists_erase_eq hmem
    have hturns : NumPhysPages - 1 - q₁.length = q₂.length := by
      rw [← hq, List.length_append, List.length_cons]
      omega
    rw [idxOf_append_cons hnot, hturns, takeOut_of_not_mem hnot]
    exact moveLoop_append q₁ q₂ pPage
  · have hnone : ∀ q : List ℤ, pPage ∉ q → takeOut last pPage q = none := by
      intro q hnot
      induction q with
      | nil => rfl
      | cons page q ih =>
        obtain ⟨hpage, hnot⟩ := not_or.mp (mt List.mem_cons.mpr hnot)
        rw [takeOut, if_neg (Ne.symm hpage), ih hnot]
        rfl
    rw [List.idxOf_eq_length hmem, hq, show NumPhysPages - 1 - NumPhysPages = 0 by omega, moveLoop,
      Option.bind_some, store_eq_none (by rw [hq]), hnone q hmem]

theorem getReplacementLoop_eq : getReplacementLoop q = some (getReplacement q) := by
  cases q with
  | nil => cases hq
  | cons page q =>
    have hlen : NumPhysPages - 1 = q.length := by
      rw [← hq, List.length_cons]
      omega
    have hrotate := rotateLoop_append [] q page
    rw [List.nil_append, List.nil_append, List.length_nil, Nat.zero_add] at hrotate
    have hload : load (page :: q) 0 = some page := rfl
    have hlast : (NumPhysPages : ℤ) - 1 = q.length := by
      rw [← hq, List.length_cons]
      omega
    rw [getReplacementLoop, hload, hlen, hlast]
    simp only [Option.bind_eq_bind, Option.bind_some]
    rw [hrotate, Option.bind_some, store_append_cons rfl]
    rfl

theorem clearPageRandom_eq (hmem : pPage ∈ q) :
    ∃ q', clearPageRandom pPage q = some q' ∧ (pPage :: q').Perm (-1 :: q) := by
  obtain ⟨q₁, q₂, hnot, rfl, -⟩ := List.exists_erase_eq hmem
  refine ⟨q₁ ++ -1 :: q₂, ?_, ?_⟩
  · rw [clearPageRandom, search_eq hq]
    simp only [Option.bind_eq_bind, Option.bind_some]
    rw [idxOf_append_cons hnot, store_append_cons rfl]
  · calc (pPage :: (q₁ ++ -1 :: q₂)).Perm (pPage :: -1 :: (q₁ ++ q₂)) :=
          List.perm_middle.cons _
      _ |>.Perm (-1 :: pPage :: (q₁ ++ q₂)) := .swap ..
      _ |>.Perm (-1 :: (q₁ ++ pPage :: q₂)) := List.perm_middle.symm.cons _

end Equations

/-! ## Permutations -/

theorem perm_pageUsed (h : -1 ∈ q) : (-1 :: pageUsed pPage q).Perm (pPage :: q) := by
  induction q with
  | nil => cases h
  | cons page q ih =>
    rw [pageUsed]
    split
    case isTrue hpage =>
      rw [hpage]
      exact .swap ..
    case isFalse hpage =>
      have hmem : -1 ∈ q := (List.mem_cons.mp h).resolve_left (Ne.symm hpage)
      calc (-1 :: page :: pageUsed pPage q).Perm (page :: -1 :: pageUsed pPage q) := .swap ..
        _ |>.Perm (page :: pPage :: q) := (ih hmem).cons page
        _ |>.Perm (pPage :: page :: q) := .swap ..

theorem perm_shift : (shift last (page :: q)).Perm (last :: q) := by
  induction q generalizing page with
  | nil => rfl
  | cons next q ih =>
    rw [shift]
    split
    · rfl
    · exact (ih.cons next).trans (.swap ..)

theorem exists_takeOut (last : ℤ) (h : pPage ∈ q) :
    ∃ q', takeOut last pPage q = some q' ∧ (pPage :: q').Perm (last :: q) := by
  obtain ⟨q₁, q₂, hnot, rfl, -⟩ := List.exists_erase_eq h
  refine ⟨_, takeOut_of_not_mem hnot, ?_⟩
  calc (pPage :: (q₁ ++ shift last (pPage :: q₂))).Perm (pPage :: (q₁ ++ last :: q₂)) :=
        (perm_shift.append_left q₁).cons _
    _ |>.Perm (pPage :: last :: (q₁ ++ q₂)) := List.perm_middle.cons _
    _ |>.Perm (last :: pPage :: (q₁ ++ q₂)) := .swap ..
    _ |>.Perm (last :: (q₁ ++ pPage :: q₂)) := List.perm_middle.symm.cons _

theorem perm_getReplacement : (getReplacement q).2.Perm q := by
  cases q with
  | nil => rfl
  | cons page q => exact List.perm_append_singleton page q

/-! ## The policies -/

/-- What the calls of a policy do to its array. -/
structure Policy where
  pageUsed : ℤ → List ℤ → Option (List ℤ)
  clearPage : ℤ → List ℤ → Option (List ℤ)
  markPage : ℤ → List ℤ → Option (List ℤ)
  getReplacement : List ℤ → Option (List ℤ)

def Policy.fifo : Policy where
  pageUsed := pageUsedLoop
  clearPage := takeOutLoop (-1)
  markPage _ := some
  getReplacement queue := (getReplacementLoop queue).map (·.2)

def Policy.lru : Policy where
  pageUsed := pageUsedLoop
  clearPage := takeOutLoop (-1)
  markPage pPage := takeOutLoop pPage pPage
  getReplacement queue := (getReplacementLoop queue).map (·.2)

/-- `RandomReplacement`; the victim does not come from the array. -/
def Policy.random : Policy where
  pageUsed := pageUsedLoop
  clearPage := clearPageRandom
  markPage _ := some
  getReplacement := some

structure Policy.Permutes (P : Policy) : Prop where
  pageUsed : ∀ q pPage, q.length = NumPhysPages → -1 ∈ q →
    ∃ q', P.pageUsed pPage q = some q' ∧ (-1 :: q').Perm (pPage :: q)
  clearPage : ∀ q pPage, q.length = NumPhysPages → pPage ∈ q →
    ∃ q', P.clearPage pPage q = some q' ∧ (pPage :: q').Perm (-1 :: q)
  markPage : ∀ q pPage, q.length = NumPhysPages → pPage ∈ q →
    ∃ q', P.markPage pPage q = some q' ∧ q'.Perm q
  getReplacement : ∀ q, q.length = NumPhysPages → ∃ q', P.getReplacement q = some q' ∧ q'.Perm q

theorem permutes_pageUsedLoop (q : List ℤ) (pPage : ℤ) (hq : q.length = NumPhysPages)
    (h : -1 ∈ q) : ∃ q', pageUsedLoop pPage q = some q' ∧ (-1 :: q').Perm (pPage :: q) :=
  ⟨_, pageUsedLoop_eq hq, perm_pageUsed h⟩

theorem permutes_takeOutLoop (last : ℤ) (q : List ℤ) (pPage : ℤ) (hq : q.length = NumPhysPages)
    (h : pPage ∈ q) :
    ∃ q', takeOutLoop last pPage q = some q' ∧ (pPage :: q').Perm (last :: q) := by
  rw [takeOutLoop_eq hq]
  exact exists_takeOut last h

theorem permutes_getReplacementLoop (q : List ℤ) (hq : q.length = NumPhysPages) :
    ∃ q', (getReplacementLoop q).map (·.2) = some q' ∧ q'.Perm q := by
  rw [getReplacementLoop_eq hq]
  exact ⟨_, rfl, perm_getReplacement⟩

theorem Policy.permutes_fifo : Policy.fifo.Permutes where
  pageUsed := permutes_pageUsedLoop
  clearPage := permutes_takeOutLoop (-1)
  markPage q _ _ _ := ⟨q, rfl, .refl q⟩
  getReplacement := permutes_getReplacementLoop

theorem Policy.permutes_lru : Policy.lru.Permutes where
  pageUsed := permutes_pageUsedLoop
  clearPage := permutes_takeOutLoop (-1)
  markPage q pPage hq h := by
    obtain ⟨q', hq', hperm⟩ := permutes_takeOutLoop pPage q pPage hq h
    exact ⟨q', hq', hperm.cons_inv⟩
  getReplacement := permutes_getReplacementLoop

theorem Policy.permutes_random : Policy.random.Permutes where
  pageUsed := permutes_pageUsedLoop
  clearPage _ _ := clearPageRandom_eq
  markPage q _ _ _ := ⟨q, rfl, .refl q⟩
  getReplacement q _ := ⟨q, rfl, .refl q⟩

/-! ## Runs -/

/-- The array of a policy, and the frames that have been used and not been cleared. -/
structure Tracker where
  queue : List ℤ
  tracked : Finset Frame

namespace Tracker

variable {P : Policy} {s t : Tracker}

def Enabled (s : Tracker) : Event → Prop
  | .pageUsed f => f ∉ s.tracked
  | .clearPage f | .markPage f => f ∈ s.tracked
  | .getReplacement => s.tracked = Finset.univ

instance (s : Tracker) : (e : Event) → Decidable (s.Enabled e)
  | .pageUsed f => inferInstanceAs (Decidable (f ∉ s.tracked))
  | .clearPage f | .markPage f => inferInstanceAs (Decidable (f ∈ s.tracked))
  | .getReplacement => inferInstanceAs (Decidable (s.tracked = Finset.univ))

/-- The effect of a call, without a result if it goes outside of the array. -/
def call (P : Policy) (s : Tracker) : Event → Option Tracker
  | .pageUsed f => (P.pageUsed (number f) s.queue).map (⟨·, insert f s.tracked⟩)
  | .clearPage f => (P.clearPage (number f) s.queue).map (⟨·, s.tracked.erase f⟩)
  | .markPage f => (P.markPage (number f) s.queue).map (⟨·, s.tracked⟩)
  | .getReplacement => (P.getReplacement s.queue).map (⟨·, s.tracked⟩)

def system (P : Policy) : System Tracker Event :=
  (System.ofStep (· = ⟨new, ∅⟩) (call P)).guard Enabled

/-- The array is a permutation of the tracked frames, with `-1` for the others. -/
def Exact (s : Tracker) : Prop :=
  ∃ l : List Frame, l.Nodup ∧ l.toFinset = s.tracked ∧ s.queue.Perm (entries l)

/-- The entries other than `-1` are the tracked frames, each once. -/
def HoldsTracked (s : Tracker) : Prop :=
  (s.queue.filter (· ≠ -1)).Nodup ∧
    ∀ x, x ∈ s.queue.filter (· ≠ -1) ↔ ∃ f ∈ s.tracked, x = number f

theorem length_entries (h : l.length ≤ NumPhysPages) : (entries l).length = NumPhysPages := by
  rw [entries, List.length_append, List.length_map, List.length_replicate]
  omega

theorem perm_entries_cons (h : l.length < NumPhysPages) :
    (-1 :: entries (f :: l)).Perm (number f :: entries l) := by
  have hrest : NumPhysPages - l.length = NumPhysPages - (f :: l).length + 1 := by
    rw [List.length_cons]
    omega
  rw [entries, entries, hrest, List.replicate_succ, List.map_cons, List.cons_append]
  exact (List.Perm.swap ..).trans (List.perm_middle.symm.cons _)

theorem perm_entries {l' : List Frame} (h : l.Perm l') : (entries l).Perm (entries l') := by
  rw [entries, entries, h.length_eq]
  exact (h.map number).append_right _

theorem mem_entries (h : l.length < NumPhysPages) : -1 ∈ entries l := by
  refine List.mem_append_right _ (List.mem_replicate.mpr ⟨?_, rfl⟩)
  omega

theorem filter_entries : (entries l).filter (· ≠ -1) = l.map number := by
  rw [entries, List.filter_append, List.filter_replicate_of_neg (by decide), List.append_nil,
    List.filter_eq_self]
  intro x hx
  obtain ⟨f, -, rfl⟩ := List.mem_map.mp hx
  exact decide_eq_true number_ne

theorem exact_new : Exact ⟨new, ∅⟩ := ⟨[], .nil, rfl, .refl _⟩

theorem Exact.length (h : s.Exact) : s.queue.length = NumPhysPages := by
  obtain ⟨l, hl, -, hq⟩ := h
  rw [hq.length_eq, length_entries (State.length_le hl)]

theorem Exact.holdsTracked (h : s.Exact) : s.HoldsTracked := by
  obtain ⟨l, hl, hmem, hq⟩ := h
  have hperm : (s.queue.filter (· ≠ -1)).Perm (l.map number) := by
    rw [← filter_entries]
    exact hq.filter _
  refine ⟨hperm.nodup_iff.mpr (hl.map number_injective), fun x => ?_⟩
  rw [hperm.mem_iff, List.mem_map, ← hmem]
  simp only [List.mem_toFinset, eq_comm]

theorem Exact.free (h : s.Exact) (hf : f ∉ s.tracked) : -1 ∈ s.queue := by
  obtain ⟨l, hl, hmem, hq⟩ := h
  rw [← hmem, List.mem_toFinset] at hf
  have hlen := State.length_le (List.nodup_cons.mpr ⟨hf, hl⟩)
  exact hq.mem_iff.mpr (mem_entries hlen)

theorem Exact.mem (h : s.Exact) (hf : f ∈ s.tracked) : number f ∈ s.queue :=
  List.mem_of_mem_filter ((h.holdsTracked.2 _).mpr ⟨f, hf, rfl⟩)

/-- An allowed call stays in the array and leaves the frames that are tracked then. -/
theorem Exact.exists_call (hP : P.Permutes) (h : s.Exact) {e : Event} (he : s.Enabled e) :
    ∃ t, s.call P e = some t ∧ t.Exact := by
  have hlen := h.length
  cases e with
  | pageUsed f =>
    obtain ⟨q', hq', hperm⟩ := hP.pageUsed _ (number f) hlen (h.free he)
    obtain ⟨l, hl, hmem, hq⟩ := h
    have hf : f ∉ l := by rwa [Enabled, ← hmem, List.mem_toFinset] at he
    have hnd := List.nodup_cons.mpr ⟨hf, hl⟩
    refine ⟨⟨q', _⟩, congrArg (Option.map _) hq', f :: l, hnd, ?_, ?_⟩
    · rw [List.toFinset_cons, hmem]
    · have hlt : l.length < NumPhysPages := State.length_le hnd
      exact ((hperm.trans (hq.cons _)).trans (perm_entries_cons hlt).symm).cons_inv
  | clearPage f =>
    obtain ⟨q', hq', hperm⟩ := hP.clearPage _ (number f) hlen (h.mem he)
    obtain ⟨l, hl, hmem, hq⟩ := h
    have hf : f ∈ l := by rwa [Enabled, ← hmem, List.mem_toFinset] at he
    refine ⟨⟨q', _⟩, congrArg (Option.map _) hq', l.erase f, hl.erase f, ?_, ?_⟩
    · rw [← hmem, Finset.ext_iff]
      intro g
      rw [List.mem_toFinset, hl.mem_erase_iff, Finset.mem_erase, List.mem_toFinset]
    · have hlt : (l.erase f).length < NumPhysPages := by
        have hpos := List.length_pos_of_mem hf
        have hle := State.length_le hl
        rw [List.length_erase_of_mem hf]
        omega
      have hcons : s.queue.Perm (entries (f :: l.erase f)) :=
        hq.trans (perm_entries (List.perm_cons_erase hf))
      exact ((hperm.trans (hcons.cons _)).trans (perm_entries_cons hlt)).cons_inv
  | markPage f =>
    obtain ⟨q', hq', hperm⟩ := hP.markPage _ (number f) hlen (h.mem he)
    obtain ⟨l, hl, hmem, hq⟩ := h
    exact ⟨⟨q', _⟩, congrArg (Option.map _) hq', l, hl, hmem, hperm.trans hq⟩
  | getReplacement =>
    obtain ⟨q', hq', hperm⟩ := hP.getReplacement _ hlen
    obtain ⟨l, hl, hmem, hq⟩ := h
    exact ⟨⟨q', _⟩, congrArg (Option.map _) hq', l, hl, hmem, hperm.trans hq⟩

theorem exact_of_reachable (hP : P.Permutes) (h : Reachable (system P) s) : s.Exact := by
  refine h.invariant (P := Exact) ?_ ?_
  · rintro s rfl
    exact exact_new
  · rintro s e t hs ⟨he, hstep⟩
    obtain ⟨t', ht', hexact⟩ := hs.exists_call hP he
    obtain rfl : t' = t := Option.some.inj (ht'.symm.trans hstep)
    exact hexact

theorem tracks_of_permutes (hP : P.Permutes) (h : Reachable (system P) s) :
    s.HoldsTracked ∧ (∀ f, f ∉ s.tracked → -1 ∈ s.queue) ∧
      ∀ e, s.Enabled e → (s.call P e).isSome := by
  have hexact := exact_of_reachable hP h
  refine ⟨hexact.holdsTracked, fun f hf => hexact.free hf, fun e he => ?_⟩
  obtain ⟨t, ht, -⟩ := hexact.exists_call hP he
  rw [ht]
  rfl

end Tracker

/-- In every run of the three policies the entries other than `-1` are the tracked frames, each
once, `pageUsed` finds a free entry, and no call goes outside of the array. -/
theorem tracks_of_reachable (P : Policy) (hP : P = .fifo ∨ P = .lru ∨ P = .random) (s : Tracker)
    (h : Reachable (Tracker.system P) s) :
    s.HoldsTracked ∧ (∀ f, f ∉ s.tracked → -1 ∈ s.queue) ∧
      ∀ e, s.Enabled e → (s.call P e).isSome := by
  obtain rfl | rfl | rfl := hP
  · exact Tracker.tracks_of_permutes Policy.permutes_fifo h
  · exact Tracker.tracks_of_permutes Policy.permutes_lru h
  · exact Tracker.tracks_of_permutes Policy.permutes_random h

/-- `LRU` leaves a gap where it marks a frame. -/
theorem tracks_of_reachable_gap : ∃ s, Reachable (Tracker.system .lru) s ∧
    s.queue.take 3 = [1, -1, 0] ∧ s.HoldsTracked ∧ (∀ f, f ∉ s.tracked → -1 ∈ s.queue) ∧
      ∀ e, s.Enabled e → (s.call .lru e).isSome := by
  have hexec : (exec (guarded Tracker.Enabled (Tracker.call .lru)) ⟨new, ∅⟩
      [.pageUsed 0, .pageUsed 1, .markPage 0]).any (fun s => s.queue.take 3 == [1, -1, 0]) =
        true := by
    decide +kernel
  obtain ⟨s, hrun, hs⟩ := run_of_any_exec (I := (· = ⟨new, ∅⟩)) hexec
  rw [← guard_ofStep] at hrun
  have hreach : Reachable (Tracker.system .lru) s := ⟨_, _, rfl, hrun⟩
  exact ⟨s, hreach, by simpa using hs, tracks_of_reachable .lru (.inr (.inl rfl)) s hreach⟩

end Nachos.VM.Queue
