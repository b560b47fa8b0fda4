import Mathlib.Data.List.TakeWhile
import Nachos.Library.Chain
import Nachos.Library.Transition

/-! # Lists

`List` links its elements and keeps pointers to the first and the last one.
Elements are allocated at addresses that are free, which may have been used
before, and freed when they are removed. A routine that follows a pointer to no
element has no result.
-/

namespace Nachos.Threads

open Function Transition

/-- What a `ListElement` holds, apart from the pointer to the next one. -/
structure Entry (α : Type) where
  key : ℤ
  item : α

/-- `List`, with the heap of the elements. -/
structure LinkedList (A α : Type) where
  heap : A → Option (Cell A (Entry α))
  first : Option A
  last : Option A

namespace LinkedList

variable {A α : Type} [DecidableEq A]

/-- `new ListElement` at an address that is free. -/
def newElement (a : A) (e : Entry α) (heap : A → Option (Cell A (Entry α))) :
    Option (A → Option (Cell A (Entry α))) :=
  if (heap a).isNone then some (update heap a (some ⟨e, none⟩)) else none

def setNext (ptr : A) (next : Option A) (heap : A → Option (Cell A (Entry α))) :
    Option (A → Option (Cell A (Entry α))) :=
  (heap ptr).map fun c => update heap ptr (some { c with next := next })

def putOnly (a : A) (heap : A → Option (Cell A (Entry α))) : LinkedList A α := ⟨heap, a, a⟩

def putFirst (a : A) (heap : A → Option (Cell A (Entry α))) (s : LinkedList A α) :
    Option (LinkedList A α) := do
  let heap ← setNext a s.first heap
  some ⟨heap, a, s.last⟩

def putLast (a : A) (heap : A → Option (Cell A (Entry α))) (s : LinkedList A α) :
    Option (LinkedList A α) := do
  let last ← s.last
  let heap ← setNext last a heap
  some ⟨heap, s.first, a⟩

def putBehind (ptr a : A) (heap : A → Option (Cell A (Entry α))) (s : LinkedList A α) :
    Option (LinkedList A α) := do
  let c ← heap ptr
  let heap ← setNext a c.next heap
  let heap ← setNext ptr a heap
  some ⟨heap, s.first, s.last⟩

def new (heap : A → Option (Cell A (Entry α))) : LinkedList A α := ⟨heap, none, none⟩

def append (a : A) (item : α) (s : LinkedList A α) : Option (LinkedList A α) := do
  let heap ← newElement a ⟨0, item⟩ s.heap
  if s.first.isNone then some (putOnly a heap) else s.putLast a heap

def prepend (a : A) (item : α) (s : LinkedList A α) : Option (LinkedList A α) := do
  let heap ← newElement a ⟨0, item⟩ s.heap
  if s.first.isNone then some (putOnly a heap) else s.putFirst a heap

/-- The loop of `SortedInsert`, from an element on: the element in front of the first larger one, or
`none` if there is no larger one. A walk without a cycle has no more turns than there are
addresses. -/
def search (heap : A → Option (Cell A (Entry α))) (sortKey : ℤ) : ℕ → A → Option (Option A)
  | 0, _ => none
  | turns + 1, ptr => do
    let c ← heap ptr
    match c.next with
    | none => some none
    | some next =>
      let c ← heap next
      if sortKey < c.value.key then some (some ptr) else search heap sortKey turns next

/-- The end of `SortedInsert`: behind the element at which the loop returns, or at the end. -/
def putAt (a : A) (heap : A → Option (Cell A (Entry α))) (s : LinkedList A α) :
    Option A → Option (LinkedList A α)
  | none => s.putLast a heap
  | some ptr => s.putBehind ptr a heap

def sortedInsert [Fintype A] (a : A) (item : α) (sortKey : ℤ) (s : LinkedList A α) :
    Option (LinkedList A α) := do
  let heap ← newElement a ⟨sortKey, item⟩ s.heap
  match s.first with
  | none => some (putOnly a heap)
  | some first =>
    let c ← heap first
    if sortKey < c.value.key then s.putFirst a heap
    else (search heap sortKey (Fintype.card A) first).bind (s.putAt a heap)

/-- `SortedRemove`: the item with its key, or `none` for `NULL`. -/
def sortedRemove (s : LinkedList A α) : Option (Option (Entry α) × LinkedList A α) :=
  match s.first with
  | none => some (none, s)
  | some first => do
    let c ← s.heap first
    let heap := update s.heap first none
    if s.first = s.last then some (some c.value, ⟨heap, none, none⟩)
    else some (some c.value, ⟨heap, c.next, s.last⟩)

def remove (s : LinkedList A α) : Option (Option α × LinkedList A α) :=
  s.sortedRemove.map fun (e, s) => (e.map (·.item), s)

/-! ## Sequences -/

/-- The routines, with the addresses that `new` returns. -/
inductive Op (A α : Type)
  | append (a : A) (item : α)
  | prepend (a : A) (item : α)
  | remove
  | sortedInsert (a : A) (item : α) (sortKey : ℤ)
  | sortedRemove

inductive Answer (α : Type)
  | void
  | item (item : Option α)
  | entry (e : Option (Entry α))

def call [Fintype A] : Op A α → LinkedList A α → Option (Answer α × LinkedList A α)
  | .append a item, s => (s.append a item).map (.void, ·)
  | .prepend a item, s => (s.prepend a item).map (.void, ·)
  | .remove, s => s.remove.map fun (item, s) => (.item item, s)
  | .sortedInsert a item sortKey, s => (s.sortedInsert a item sortKey).map (.void, ·)
  | .sortedRemove, s => s.sortedRemove.map fun (e, s) => (.entry e, s)

/-- An entry goes in front of the first larger one. -/
def insertSorted (e : Entry α) (l : List (Entry α)) : List (Entry α) :=
  l.takeWhile (·.key ≤ e.key) ++ e :: l.dropWhile (·.key ≤ e.key)

def spec : Op A α → List (Entry α) → Answer α × List (Entry α)
  | .append _ item, l => (.void, l ++ [⟨0, item⟩])
  | .prepend _ item, l => (.void, ⟨0, item⟩ :: l)
  | .remove, l => (.item (l.head?.map (·.item)), l.tail)
  | .sortedInsert _ item sortKey, l => (.void, insertSorted ⟨sortKey, item⟩ l)
  | .sortedRemove, l => (.entry l.head?, l.tail)

/-- The elements from the first one on hold the sequence, and `last` points to the last of them. -/
def Represents (s : LinkedList A α) (l : List (Entry α)) : Prop :=
  ∃ as, as.Nodup ∧ Chain s.heap s.first as l none ∧ s.last = as.getLast?

/-- `new` returns an address that is free. -/
def Enabled (s : LinkedList A α) : Op A α → Prop
  | .append a _ | .prepend a _ | .sortedInsert a _ _ => s.heap a = none
  | .remove | .sortedRemove => True

instance (s : LinkedList A α) : (op : Op A α) → Decidable (s.Enabled op)
  | .append a _ | .prepend a _ | .sortedInsert a _ _ =>
    inferInstanceAs (Decidable (s.heap a = none))
  | .remove | .sortedRemove => inferInstanceAs (Decidable True)

/-! ## The routines act as on a sequence -/

variable {s : LinkedList A α} {heap : A → Option (Cell A (Entry α))} {a b ptr : A}
  {as : List A} {e v w : Entry α} {l l₁ l₂ : List (Entry α)} {q : Option A}
  {sortKey : ℤ}

theorem newElement_of_none (ha : heap a = none) :
    newElement a e heap = some (update heap a (some ⟨e, none⟩)) := by
  simp [newElement, ha]

omit [DecidableEq A] in
theorem ne_of_free {c : Cell A (Entry α)} (ha : heap a = none) (hb : heap b = some c) : b ≠ a := by
  rintro rfl
  rw [ha] at hb
  cases hb

theorem represents_putOnly :
    (putOnly a (update heap a (some ⟨e, none⟩))).Represents [e] :=
  ⟨[a], List.nodup_singleton a, .cons (update_self ..) (.nil none), rfl⟩

omit [DecidableEq A] in
theorem Represents.first_eq_none_iff (h : s.Represents l) : s.first = none ↔ l = [] := by
  obtain ⟨as, -, hchain, -⟩ := h
  rw [hchain.head, List.head?_eq_none_iff, hchain.eq_nil_iff]

theorem Represents.putFirst (h : s.Represents l) (hl : l ≠ []) (ha : s.heap a = none) :
    ∃ s', s.putFirst a (update s.heap a (some ⟨e, none⟩)) = some s' ∧ s'.Represents (e :: l) := by
  obtain ⟨as, hnd, hchain, hlast⟩ := h
  have hnot := hchain.notMem ha
  have hput : s.putFirst a (update s.heap a (some ⟨e, none⟩)) =
      some ⟨update s.heap a (some ⟨e, s.first⟩), a, s.last⟩ := by
    simp [LinkedList.putFirst, setNext]
  refine ⟨_, hput, a :: as, List.nodup_cons.mpr ⟨hnot, hnd⟩,
    .cons (update_self ..) (hchain.update hnot), ?_⟩
  have has : as ≠ [] := mt hchain.eq_nil_iff.mp hl
  rw [hlast, List.getLast?_cons, List.getLast?_eq_some_getLast has]
  rfl

theorem represents_insert {as₁ as₂ : List A} {r : Option A} (hnd : (as₁ ++ b :: as₂).Nodup)
    (h₁ : Chain s.heap s.first as₁ l₁ (some b)) (hb : s.heap b = some ⟨w, r⟩)
    (h₂ : Chain s.heap r as₂ l₂ none) (ha : s.heap a = none) :
    Represents ⟨update (update s.heap a (some ⟨e, r⟩)) b (some ⟨w, some a⟩), s.first,
      (as₁ ++ b :: a :: as₂).getLast?⟩ (l₁ ++ w :: e :: l₂) := by
  have hnot : a ∉ as₁ ++ b :: as₂ := (h₁.append (.cons hb h₂)).notMem ha
  refine ⟨as₁ ++ b :: a :: as₂, ?_, h₁.insert h₂ hnd hnot, rfl⟩
  have hperm : (as₁ ++ b :: a :: as₂).Perm (a :: (as₁ ++ b :: as₂)) :=
    ((List.Perm.swap a b as₂).append_left as₁).trans List.perm_middle
  exact hperm.nodup_iff.mpr (List.nodup_cons.mpr ⟨hnot, hnd⟩)

theorem Represents.putLast (h : s.Represents (l ++ [w])) (ha : s.heap a = none) :
    ∃ s', s.putLast a (update s.heap a (some ⟨e, none⟩)) = some s' ∧
      s'.Represents (l ++ [w, e]) := by
  obtain ⟨as, hnd, hchain, hlast⟩ := h
  obtain ⟨as, b, rfl, hfront, hb⟩ := hchain.last
  refine ⟨_, ?_, represents_insert hnd hfront hb (.nil none) ha⟩
  simp [LinkedList.putLast, setNext, hlast, update_of_ne (ne_of_free ha hb), hb]

omit [DecidableEq A] in
theorem search_eq {turns : ℕ} (h : Chain heap (some ptr) (as ++ [b]) (v :: l) q)
    (hle : ∀ e ∈ l, e.key ≤ sortKey)
    (hq : ∀ c ∈ q, ∃ e n, heap c = some ⟨e, n⟩ ∧ sortKey < e.key) (hturns : as.length < turns) :
    search heap sortKey turns ptr = some (q.map fun _ => b) := by
  induction as generalizing ptr v l turns with
  | nil =>
    obtain ⟨turns, rfl⟩ := Nat.exists_eq_add_of_lt hturns
    cases h with
    | cons hptr hnil =>
      cases hnil
      cases q with
      | none => simp [search, hptr]
      | some c =>
        obtain ⟨e, n, hc, hlt⟩ := hq c rfl
        simp [search, hptr, hc, hlt]
  | cons a as ih =>
    obtain ⟨turns, rfl⟩ : ∃ k, turns = k + 1 := ⟨turns - 1, by omega⟩
    cases h with
    | cons hptr hrest =>
      obtain ⟨v', l', rfl⟩ := List.exists_cons_of_ne_nil (mt hrest.eq_nil_iff.mpr (by simp))
      obtain ⟨next, n', -, rfl, -, hnext, -⟩ := hrest.uncons
      have hv' : ¬ sortKey < v'.key := not_lt.mpr (hle v' (List.mem_cons_self ..))
      rw [List.length_cons] at hturns
      rw [search, hptr]
      simp only [Option.bind_eq_bind, Option.bind_some, hnext, if_neg hv']
      exact ih hrest (fun e he => hle e (List.mem_cons_of_mem _ he)) (by omega)

theorem Represents.append (h : s.Represents l) (ha : s.heap a = none) (item : α) :
    ∃ s', s.append a item = some s' ∧ s'.Represents (l ++ [⟨0, item⟩]) := by
  simp only [LinkedList.append, newElement_of_none ha, Option.bind_eq_bind, Option.bind_some]
  cases hl : l.getLast? with
  | none =>
    obtain rfl := List.getLast?_eq_none_iff.mp hl
    rw [h.first_eq_none_iff.mpr rfl]
    exact ⟨_, rfl, represents_putOnly⟩
  | some w =>
    obtain ⟨l, rfl⟩ := List.getLast?_eq_some_iff.mp hl
    have hfirst : ¬ s.first.isNone := by
      rw [Option.isNone_iff_eq_none, h.first_eq_none_iff]
      simp
    rw [if_neg hfirst, List.append_assoc]
    exact h.putLast ha

theorem Represents.prepend (h : s.Represents l) (ha : s.heap a = none) (item : α) :
    ∃ s', s.prepend a item = some s' ∧ s'.Represents (⟨0, item⟩ :: l) := by
  simp only [LinkedList.prepend, newElement_of_none ha, Option.bind_eq_bind, Option.bind_some]
  cases l with
  | nil =>
    rw [h.first_eq_none_iff.mpr rfl]
    exact ⟨_, rfl, represents_putOnly⟩
  | cons v l =>
    have hfirst : ¬ s.first.isNone := by
      rw [Option.isNone_iff_eq_none, h.first_eq_none_iff]
      simp
    rw [if_neg hfirst]
    exact h.putFirst (List.cons_ne_nil v l) ha

theorem Represents.sortedRemove (h : s.Represents l) :
    ∃ s', s.sortedRemove = some (l.head?, s') ∧ s'.Represents l.tail := by
  cases l with
  | nil =>
    simp only [LinkedList.sortedRemove, h.first_eq_none_iff.mpr rfl]
    exact ⟨s, rfl, h⟩
  | cons v l =>
    obtain ⟨as, hnd, hchain, hlast⟩ := h
    obtain ⟨a, n, as, hfirst, rfl, ha, hrest⟩ := hchain.uncons
    obtain ⟨hnot, hnd⟩ := List.nodup_cons.mp hnd
    simp only [LinkedList.sortedRemove, hfirst, ha, Option.bind_eq_bind, Option.bind_some]
    by_cases has : as = []
    · obtain rfl := hrest.eq_nil_iff.mp has
      rw [hlast, has, List.getLast?_singleton, if_pos rfl]
      exact ⟨_, rfl, [], .nil, .nil none, rfl⟩
    · have hback : s.last = as.getLast? := by
        rw [hlast, List.getLast?_cons, List.getLast?_eq_some_getLast has]
        rfl
      have hne : some a ≠ s.last := by
        rw [hback]
        exact fun h => hnot (List.mem_of_getLast? h.symm)
      rw [if_neg hne]
      exact ⟨_, rfl, as, hnd, hrest.update hnot, hback⟩

theorem putBehind_eq {r : Option A} (ha : s.heap a = none) (hb : s.heap b = some ⟨w, r⟩) :
    s.putBehind b a (update s.heap a (some ⟨e, none⟩)) =
      some ⟨update (update s.heap a (some ⟨e, r⟩)) b (some ⟨w, some a⟩), s.first, s.last⟩ := by
  simp [putBehind, setNext, update_of_ne (ne_of_free ha hb), hb]

theorem Represents.putAt [Fintype A] {first : A} (h : s.Represents (l₁ ++ w :: l₂))
    (hfirst : s.first = some first) (ha : s.heap a = none)
    (hle : ∀ v ∈ l₁ ++ [w], v.key ≤ sortKey) (hlt : ∀ v ∈ l₂.head?, sortKey < v.key) :
    ∃ s', (search (update s.heap a (some ⟨e, none⟩)) sortKey (Fintype.card A) first).bind
        (s.putAt a (update s.heap a (some ⟨e, none⟩))) = some s' ∧
      s'.Represents (l₁ ++ w :: e :: l₂) := by
  obtain ⟨as, hnd, hchain, hlast⟩ := id h
  rw [show l₁ ++ w :: l₂ = (l₁ ++ [w]) ++ l₂ by simp] at hchain
  obtain ⟨as, as₂, r, rfl, h₁, h₂⟩ := hchain.split
  obtain ⟨as₁, b, rfl, hfront, hb⟩ := h₁.last
  have hsearch : search (update s.heap a (some ⟨e, none⟩)) sortKey (Fintype.card A) first =
      some (r.map fun _ => b) := by
    obtain ⟨v, m, hvm⟩ := List.exists_cons_of_ne_nil (show l₁ ++ [w] ≠ [] by simp)
    have hwalk := h₁.update (c := some ⟨e, none⟩) (h₁.notMem ha)
    rw [hvm, hfirst] at hwalk
    refine search_eq hwalk (fun v hv => hle v ?_) ?_ ?_
    · rw [hvm]
      exact List.mem_cons_of_mem _ hv
    · rintro c rfl
      cases h₂ with
      | cons hc _ =>
        exact ⟨_, _, by rw [update_of_ne (ne_of_free ha hc), hc], hlt _ rfl⟩
    · have hlen := hnd.length_le_card
      rw [List.length_append, List.length_append, List.length_singleton] at hlen
      omega
  rw [hsearch, Option.bind_some]
  cases r with
  | none =>
    obtain rfl : l₂ = [] := by
      cases h₂
      rfl
    exact h.putLast ha
  | some c =>
    have hins := represents_insert (e := e) (by simpa using hnd) hfront hb h₂ ha
    have hend : (as₁ ++ b :: a :: as₂).getLast? = s.last := by
      have has₂ : as₂ ≠ [] := by
        rintro rfl
        cases h₂
      rw [hlast, List.append_assoc, List.getLast?_append, List.getLast?_append]
      simp [List.getLast?_cons, List.getLast?_eq_some_getLast has₂]
    rw [hend] at hins
    exact ⟨_, putBehind_eq ha hb, hins⟩

theorem Represents.sortedInsert [Fintype A] (h : s.Represents l) (ha : s.heap a = none)
    (item : α) (sortKey : ℤ) : ∃ s', s.sortedInsert a item sortKey = some s' ∧
      s'.Represents (insertSorted ⟨sortKey, item⟩ l) := by
  cases l with
  | nil =>
    simp only [LinkedList.sortedInsert, newElement_of_none ha, Option.bind_eq_bind,
      Option.bind_some, h.first_eq_none_iff.mpr rfl]
    exact ⟨_, rfl, represents_putOnly⟩
  | cons v l =>
    obtain ⟨as, -, hchain, -⟩ := id h
    obtain ⟨first, n, -, hfirst, -, hv, -⟩ := hchain.uncons
    simp only [LinkedList.sortedInsert, newElement_of_none ha, Option.bind_eq_bind,
      Option.bind_some, hfirst, update_of_ne (ne_of_free ha hv), hv]
    split
    case isTrue hlt =>
      rw [insertSorted, List.takeWhile_cons_of_neg (by simpa using hlt),
        List.dropWhile_cons_of_neg (by simpa using hlt)]
      exact h.putFirst (List.cons_ne_nil v l) ha
    case isFalse hge =>
      -- the elements that are not larger, of which there is at least one
      obtain ⟨m, w, hm⟩ : ∃ m w, (v :: l).takeWhile (·.key ≤ sortKey) = m ++ [w] := by
        rw [List.takeWhile_cons_of_pos (by simpa using hge)]
        exact ⟨_, _, (List.dropLast_concat_getLast (List.cons_ne_nil _ _)).symm⟩
      have hall : ∀ e ∈ m ++ [w], e.key ≤ sortKey := by
        intro e he
        rw [← hm] at he
        simpa using List.mem_takeWhile_imp he
      have hlarger : ∀ e ∈ ((v :: l).dropWhile (·.key ≤ sortKey)).head?, sortKey < e.key := by
        intro e he
        have hhead := List.head?_dropWhile_not (·.key ≤ sortKey) (v :: l)
        rw [he] at hhead
        simpa using hhead
      rw [← List.takeWhile_append_dropWhile (p := (·.key ≤ sortKey)) (l := v :: l), hm,
        List.append_assoc, List.singleton_append] at h
      rw [insertSorted, hm, List.append_assoc, List.singleton_append]
      exact h.putAt hfirst ha hall hlarger

/-- Each routine succeeds, and does to the elements what it does to the sequence. -/
theorem Represents.call [Fintype A] (h : s.Represents l) {op : Op A α} (hop : s.Enabled op) :
    ∃ s', s.call op = some ((spec op l).1, s') ∧ s'.Represents (spec op l).2 := by
  cases op with
  | append a item =>
    obtain ⟨s', hs', h'⟩ := h.append hop item
    exact ⟨s', congrArg (Option.map _) hs', h'⟩
  | prepend a item =>
    obtain ⟨s', hs', h'⟩ := h.prepend hop item
    exact ⟨s', congrArg (Option.map _) hs', h'⟩
  | remove =>
    obtain ⟨s', hs', h'⟩ := h.sortedRemove
    exact ⟨s', congrArg (Option.map _) (congrArg (Option.map _) hs'), h'⟩
  | sortedInsert a item sortKey =>
    obtain ⟨s', hs', h'⟩ := h.sortedInsert hop item sortKey
    exact ⟨s', congrArg (Option.map _) hs', h'⟩
  | sortedRemove =>
    obtain ⟨s', hs', h'⟩ := h.sortedRemove
    exact ⟨s', congrArg (Option.map _) hs', h'⟩

/-- In a sequence without descents, an entry goes behind all that are not larger and in front of all
that are larger. -/
theorem exists_insertSorted (h : l.Pairwise (·.key ≤ ·.key)) (e : Entry α) :
    ∃ l₁ l₂, l = l₁ ++ l₂ ∧ (∀ v ∈ l₁, v.key ≤ e.key) ∧ (∀ v ∈ l₂, e.key < v.key) ∧
      insertSorted e l = l₁ ++ e :: l₂ := by
  refine ⟨_, _, List.takeWhile_append_dropWhile.symm, fun v hv => ?_, fun v hv => ?_, rfl⟩
  · simpa using List.mem_takeWhile_imp hv
  · -- the first of the rest is larger, and the others are not smaller than it
    have hrest := h.sublist (List.dropWhile_sublist (l := l) (·.key ≤ e.key))
    have hhead := List.head?_dropWhile_not (·.key ≤ e.key) l
    cases hdrop : l.dropWhile (·.key ≤ e.key) with
    | nil =>
      rw [hdrop] at hv
      cases hv
    | cons w m =>
      rw [hdrop] at hv hrest hhead
      have hw : e.key < w.key := by simpa using hhead
      rcases List.mem_cons.mp hv with rfl | hv
      · exact hw
      · exact hw.trans_le ((List.pairwise_cons.mp hrest).1 v hv)

theorem perm_insertSorted : (insertSorted e l).Perm (e :: l) := by
  have hperm : (insertSorted e l).Perm
      (e :: (l.takeWhile (·.key ≤ e.key) ++ l.dropWhile (·.key ≤ e.key))) := List.perm_middle
  rwa [List.takeWhile_append_dropWhile] at hperm

theorem filter_insertSorted {p : Entry α → Bool} (h : p e = false) :
    (insertSorted e l).filter p = l.filter p := by
  rw [insertSorted, List.filter_append, List.filter_cons_of_neg (ne_true_of_eq_false h),
    ← List.filter_append, List.takeWhile_append_dropWhile]

theorem pairwise_insertSorted (h : l.Pairwise (·.key ≤ ·.key)) :
    (insertSorted e l).Pairwise (·.key ≤ ·.key) := by
  obtain ⟨l₁, l₂, rfl, hle, hlt, heq⟩ := exists_insertSorted h e
  rw [List.pairwise_append] at h
  rw [heq, List.pairwise_append, List.pairwise_cons]
  refine ⟨h.1, ⟨fun v hv => (hlt v hv).le, h.2.1⟩, fun v hv w hw => ?_⟩
  rcases List.mem_cons.mp hw with rfl | hw
  · exact hle v hv
  · exact h.2.2 v hv w hw

/-! ## Runs -/

def step [Fintype A] (s : LinkedList A α) (op : Op A α) : Option (LinkedList A α) :=
  (s.call op).map (·.2)

/-- Any sequence of routines, from an empty list on. -/
def system [Fintype A] : System (LinkedList A α) (Op A α) :=
  (System.ofStep (fun s => ∃ heap, s = new heap) step).guard Enabled

def sequence (ops : List (Op A α)) : List (Entry α) := ops.foldl (fun l op => (spec op l).2) []

omit [DecidableEq A] in
theorem represents_new : (new heap).Represents [] := ⟨[], .nil, .nil none, rfl⟩

theorem Represents.step [Fintype A] (h : s.Represents l) {op : Op A α} (hop : s.Enabled op) :
    ∃ t, s.step op = some t ∧ t.Represents (spec op l).2 := by
  obtain ⟨t, ht, hrep⟩ := h.call hop
  refine ⟨t, ?_, hrep⟩
  rw [LinkedList.step, ht]
  rfl

theorem represents_of_run [Fintype A] {ops : List (Op A α)} {t : LinkedList A α}
    (h : Run system s ops t) (hs : s.Represents l) :
    t.Represents (ops.foldl (fun l op => (spec op l).2) l) := by
  induction h generalizing l with
  | nil => exact hs
  | cons hstep _ ih =>
    obtain ⟨hop, hstep⟩ := hstep
    obtain ⟨t, ht, hrep⟩ := hs.step hop
    obtain rfl := Option.some.inj (ht.symm.trans hstep)
    exact ih hrep

/-- After every sequence of routines the elements represent the sequence that the routines make;
each further routine succeeds and acts as on this sequence; and `SortedInsert` keeps a sequence
without descents in order. -/
theorem list_of_run [Fintype A] {heap : A → Option (Cell A (Entry α))} {ops : List (Op A α)}
    {s : LinkedList A α} (h : Run system (new heap) ops s) :
    s.Represents (sequence ops) ∧
    (∀ op, s.Enabled op → ∃ s', s.call op = some ((spec op (sequence ops)).1, s') ∧
      s'.Represents (spec op (sequence ops)).2) ∧
    ((sequence ops).Pairwise (·.key ≤ ·.key) → ∀ e : Entry α, ∃ l₁ l₂,
      sequence ops = l₁ ++ l₂ ∧ (∀ v ∈ l₁, v.key ≤ e.key) ∧ (∀ v ∈ l₂, e.key < v.key) ∧
        insertSorted e (sequence ops) = l₁ ++ e :: l₂) := by
  have hs : s.Represents (sequence ops) := represents_of_run h represents_new
  exact ⟨hs, fun op hop => hs.call hop, fun hsorted e => exists_insertSorted hsorted e⟩

def reuse : List (Op (Fin 2) ℕ) :=
  [.append 0 10, .sortedInsert 1 11 (-1), .sortedRemove, .sortedInsert 1 12 0]

theorem list_of_run_reuse : ∃ s : LinkedList (Fin 2) ℕ, s.last = some 1 ∧
    s.Represents (sequence reuse) := by
  have hexec : (exec (guarded Enabled step) (new fun _ : Fin 2 => none) reuse).any
      (fun s => s.last == some 1) = true := by
    decide +kernel
  obtain ⟨s, hrun, hs⟩ := run_of_any_exec (I := fun s => ∃ heap, s = new heap) hexec
  rw [← guard_ofStep] at hrun
  exact ⟨s, by simpa using hs, (list_of_run hrun).1⟩

end LinkedList

end Nachos.Threads
