import Mathlib.Data.Fintype.Card
import Nachos.Library.Recency
import Nachos.Library.Transition
import Nachos.VM.Manager

/-! # Replacement policies

`FIFO` and `LRU` keep the frames in use in an array, the next victim first and
`-1` behind the last one. The ghost state of a run is the time at which each
frame in use was loaded or, for `LRU`, used for the last time.
-/

namespace Nachos.VM.Queue

open Function Recency Transition

abbrev Frame : Type := Fin NumPhysPages

instance : @NeZero ℕ Zero.ofOfNat0 NumPhysPages := ⟨by decide⟩

def number (f : Frame) : ℤ := (f : ℕ)

/-! ## The arrays -/

/-- `FIFO::FIFO` and `LRU::LRU`. -/
def new : List ℤ := List.replicate NumPhysPages (-1)

/-- `FIFO::pageUsed` and `LRU::pageUsed`: the first `-1` is overwritten. -/
def pageUsed (pPage : ℤ) : List ℤ → List ℤ
  | [] => []
  | page :: queue => if page = -1 then pPage :: queue else page :: pageUsed pPage queue

/-- `FIFO::getReplacement` and `LRU::getReplacement`. -/
def getReplacement : List ℤ → ℤ × List ℤ
  | [] => (-1, [])
  | page :: queue => (page, queue ++ [page])

/-- The second loop of `clearPage` and `LRU::markPage`, from its index on, and the store after it:
entries move forward up to the first `-1` or the end of the array. -/
def shift (last : ℤ) : List ℤ → List ℤ
  | [] => []
  | [_] => [last]
  | page :: next :: queue =>
    if page = -1 then last :: next :: queue else next :: shift last (next :: queue)

/-- `clearPage` and `LRU::markPage`, which store `last` behind the entries that have moved. For a
page that is not there the store is outside of the array. -/
def takeOut (last pPage : ℤ) : List ℤ → Option (List ℤ)
  | [] => none
  | page :: queue =>
    if page = pPage then some (shift last (page :: queue))
    else (takeOut last pPage queue).map (page :: ·)

/-- `FIFO::clearPage` and `LRU::clearPage`. -/
def clearPage (pPage : ℤ) (queue : List ℤ) : Option (List ℤ) := takeOut (-1) pPage queue

def markPage (pPage : ℤ) (queue : List ℤ) : Option (List ℤ) := takeOut pPage pPage queue

/-! ## Runs -/

structure State where
  queue : List ℤ
  /-- When the page of a frame was loaded, or last used; a free frame has no time. -/
  time : Frame → Option ℕ
  clock : ℕ

inductive Event
  | pageUsed (pPage : Frame)
  | clearPage (pPage : Frame)
  | markPage (pPage : Frame)
  | getReplacement

namespace State

variable {s t : State}

def Full (s : State) : Prop := ∀ f, (s.time f).isSome

instance : Decidable s.Full := inferInstanceAs (Decidable (∀ _, _))

def touch (f : Frame) (s : State) : State :=
  { s with time := update s.time f (some s.clock), clock := s.clock + 1 }

/-- The calls of `VMManager`: a free frame is used, a used frame is cleared, and a frame is replaced
when all are used. -/
def step (mark : Frame → State → Option State) (s : State) : Event → Option State
  | .pageUsed f =>
    if s.time f = none then some (touch f { s with queue := Queue.pageUsed (number f) s.queue })
    else none
  | .clearPage f =>
    if (s.time f).isSome then
      (Queue.clearPage (number f) s.queue).map fun queue =>
        { s with queue := queue, time := update s.time f none }
    else none
  | .markPage f => mark f s
  | .getReplacement =>
    if s.Full then
      let (page, queue) := Queue.getReplacement s.queue
      if h : 0 ≤ page ∧ page < NumPhysPages then
        some (touch ⟨page.toNat, by omega⟩ { s with queue := queue })
      else none
    else none

/-- `FIFO::markPage` does nothing. -/
def markFifo (_ : Frame) (s : State) : Option State := some s

/-- `LRU::markPage` of a used frame. -/
def markLru (f : Frame) (s : State) : Option State :=
  if (s.time f).isSome then
    (Queue.markPage (number f) s.queue).map fun queue => touch f { s with queue := queue }
  else none

def Initial (s : State) : Prop := s = ⟨new, fun _ => none, 0⟩

/-- The oldest page is the one to be replaced. -/
def ReplacesOldest (s : State) : Prop :=
  s.Full → ∃ f, (Queue.getReplacement s.queue).1 = number f ∧ Oldest s.time f

end State

def fifoSystem : System State Event := .ofStep State.Initial (State.step State.markFifo)

def lruSystem : System State Event := .ofStep State.Initial (State.step State.markLru)

/-! ## Arrays without gaps -/

def entries (l : List Frame) : List ℤ :=
  l.map number ++ List.replicate (NumPhysPages - l.length) (-1)

variable {f : Frame} {l l₁ l₂ : List Frame} {last page pPage : ℤ} {q q₁ q₂ : List ℤ}

theorem pageUsed_of_not_mem (h : -1 ∉ q₁) :
    pageUsed pPage (q₁ ++ -1 :: q₂) = q₁ ++ pPage :: q₂ := by
  induction q₁ with
  | nil => rfl
  | cons page q₁ ih =>
    obtain ⟨hpage, hq⟩ := not_or.mp (mt List.mem_cons.mpr h)
    rw [List.cons_append, pageUsed, if_neg (Ne.symm hpage), ih hq, List.cons_append]

theorem shift_of_not_mem (hp : page ≠ -1) (hq : -1 ∉ q) : shift last (page :: q) = q ++ [last] := by
  induction q generalizing page with
  | nil => rfl
  | cons next q ih =>
    obtain ⟨hnext, hq⟩ := not_or.mp (mt List.mem_cons.mpr hq)
    rw [shift, if_neg hp, ih (Ne.symm hnext) hq, List.cons_append]

theorem shift_of_gap (hp : page ≠ -1) (hq : -1 ∉ q) :
    shift last (page :: q ++ -1 :: q₂) = q ++ -1 :: last :: q₂ := by
  induction q generalizing page with
  | nil =>
    rw [List.cons_append, List.nil_append, shift, if_neg hp]
    cases q₂ with
    | nil => rfl
    | cons r q₂ => rfl
  | cons next q ih =>
    obtain ⟨hnext, hq⟩ := not_or.mp (mt List.mem_cons.mpr hq)
    rw [List.cons_append, List.cons_append, shift, if_neg hp, ← List.cons_append,
      ih (Ne.symm hnext) hq, List.cons_append]

theorem takeOut_of_not_mem (h : pPage ∉ q₁) :
    takeOut last pPage (q₁ ++ pPage :: q₂) = some (q₁ ++ shift last (pPage :: q₂)) := by
  induction q₁ with
  | nil => simp [takeOut]
  | cons page q₁ ih =>
    obtain ⟨hpage, hq⟩ := not_or.mp (mt List.mem_cons.mpr h)
    rw [List.cons_append, takeOut, if_neg (Ne.symm hpage), ih hq]
    rfl

theorem number_ne : number f ≠ -1 := by
  unfold number
  omega

theorem number_injective : Injective number := fun _ _ h => Fin.ext (Int.ofNat_inj.mp h)

theorem not_mem_map_number : -1 ∉ l.map number := by
  intro h
  obtain ⟨f, -, hf⟩ := List.mem_map.mp h
  exact number_ne hf

theorem number_mem_map : number f ∈ l.map number ↔ f ∈ l :=
  List.mem_map_of_injective number_injective

theorem pageUsed_entries (h : l.length < NumPhysPages) :
    pageUsed (number f) (entries l) = entries (l ++ [f]) := by
  have hrest : NumPhysPages - l.length = NumPhysPages - (l ++ [f]).length + 1 := by
    rw [List.length_append, List.length_singleton]
    omega
  rw [entries, hrest, List.replicate_succ, pageUsed_of_not_mem not_mem_map_number, entries]
  simp

theorem getReplacement_entries (h : (f :: l).length = NumPhysPages) :
    getReplacement (entries (f :: l)) = (number f, entries (l ++ [f])) := by
  have h' : (l ++ [f]).length = NumPhysPages := by simpa using h
  rw [entries, entries, h, h', Nat.sub_self]
  simp [getReplacement]

theorem takeOut_entries (last : ℤ) (h : f ∈ l) : ∃ l₁ l₂, l.erase f = l₁ ++ l₂ ∧
    takeOut last (number f) (entries l) = some (l₁.map number ++
      shift last (number f :: (l₂.map number ++
        List.replicate (NumPhysPages - l.length) (-1)))) := by
  obtain ⟨l₁, l₂, hf, rfl, herase⟩ := List.exists_erase_eq h
  refine ⟨l₁, l₂, herase, ?_⟩
  rw [entries, List.map_append, List.map_cons, List.append_assoc, List.cons_append,
    takeOut_of_not_mem (mt number_mem_map.mp hf)]

theorem takeOut_of_full (h : f ∈ l) (hl : l.length = NumPhysPages) :
    takeOut last (number f) (entries l) = some ((l.erase f).map number ++ [last]) := by
  obtain ⟨l₁, l₂, herase, htake⟩ := takeOut_entries last h
  rw [htake, herase, hl, Nat.sub_self, List.replicate_zero, List.append_nil,
    shift_of_not_mem number_ne not_mem_map_number, List.map_append, List.append_assoc]

theorem takeOut_of_lt (h : f ∈ l) (hl : l.length < NumPhysPages) :
    takeOut last (number f) (entries l) = some ((l.erase f).map number ++
      -1 :: last :: List.replicate (NumPhysPages - l.length - 1) (-1)) := by
  obtain ⟨l₁, l₂, herase, htake⟩ := takeOut_entries last h
  have hrest : NumPhysPages - l.length = NumPhysPages - l.length - 1 + 1 := by omega
  rw [hrest, List.replicate_succ, ← List.cons_append,
    shift_of_gap number_ne not_mem_map_number] at htake
  rw [htake, herase, List.map_append, List.append_assoc]

theorem clearPage_entries (h : f ∈ l) (hl : l.length ≤ NumPhysPages) :
    clearPage (number f) (entries l) = some (entries (l.erase f)) := by
  have hlen : (l.erase f).length = l.length - 1 := List.length_erase_of_mem h
  have hpos : 0 < l.length := List.length_pos_of_mem h
  unfold clearPage
  rcases Nat.eq_or_lt_of_le hl with hfull | hlt
  · rw [takeOut_of_full h hfull, entries, hlen,
      show NumPhysPages - (l.length - 1) = 1 by omega]
    rfl
  · rw [takeOut_of_lt h hlt, entries, hlen,
      show NumPhysPages - (l.length - 1) = NumPhysPages - l.length - 1 + 1 + 1 by omega]
    rfl

theorem markPage_entries (h : f ∈ l) (hl : l.length = NumPhysPages) :
    markPage (number f) (entries l) = some (entries (l.erase f ++ [f])) := by
  have hlen : (l.erase f ++ [f]).length = NumPhysPages := by
    have hpos : 0 < l.length := List.length_pos_of_mem h
    rw [List.length_append, List.length_erase_of_mem h, List.length_singleton]
    omega
  rw [markPage, takeOut_of_full h hl, entries, hlen]
  simp

/-! ## The order of the frames -/

/-- The array holds the frames in use in the order of their times, without a gap. -/
def State.Sorted (s : State) : Prop := ∃ l, s.queue = entries l ∧ InOrder s.time s.clock l

namespace State

variable {s t : State}

theorem sorted_of_initial (h : s.Initial) : s.Sorted := by
  rw [Initial] at h
  subst h
  exact ⟨[], rfl, .nil⟩

section Length

variable (hl : l.Nodup) (hmem : ∀ a, a ∈ l ↔ (s.time a).isSome)

include hl

theorem length_le : l.length ≤ NumPhysPages := by
  simpa using List.Nodup.length_le_card hl

include hmem

theorem length_lt (hf : s.time f = none) : l.length < NumPhysPages := by
  have hnotin : f ∉ l := by simp [hmem, hf]
  have hle := List.Nodup.length_le_card (List.nodup_cons.mpr ⟨hnotin, hl⟩)
  rw [List.length_cons, Fintype.card_fin] at hle
  exact hle

theorem length_eq_iff : l.length = NumPhysPages ↔ s.Full := by
  constructor
  · intro hlen f
    by_contra hf
    have := length_lt hl hmem (Option.not_isSome_iff_eq_none.mp hf)
    omega
  · intro hfull
    have hall : (Finset.univ : Finset Frame) ⊆ l.toFinset := fun f _ =>
      List.mem_toFinset.mpr ((hmem f).mpr (hfull f))
    have hcard := Finset.card_le_card hall
    rw [Finset.card_univ, Fintype.card_fin, List.toFinset_card_of_nodup hl] at hcard
    exact Nat.le_antisymm (length_le hl) hcard

end Length

theorem Sorted.replacesOldest (h : s.Sorted) : s.ReplacesOldest := by
  intro hfull
  obtain ⟨l, hq, hl⟩ := h
  have hlen := (length_eq_iff hl.nodup hl.mem).mpr hfull
  cases l with
  | nil => cases hlen
  | cons f l => exact ⟨f, by rw [hq, getReplacement_entries hlen], hl.oldest_head⟩

theorem Sorted.pageUsed (h : s.Sorted) (hf : s.time f = none) :
    (touch f { s with queue := Queue.pageUsed (number f) s.queue }).Sorted := by
  obtain ⟨l, hq, hl⟩ := h
  refine ⟨l ++ [f], ?_, hl.append hf⟩
  rw [← pageUsed_entries (length_lt hl.nodup hl.mem hf), ← hq]
  rfl

theorem Sorted.clearPage {q : List ℤ} (h : s.Sorted) (hf : (s.time f).isSome)
    (hc : Queue.clearPage (number f) s.queue = some q) :
    Sorted { s with queue := q, time := update s.time f none } := by
  obtain ⟨l, hq, hl⟩ := h
  rw [hq, clearPage_entries ((hl.mem f).mpr hf) (length_le hl.nodup)] at hc
  exact ⟨l.erase f, (Option.some.inj hc).symm, hl.erase⟩

theorem step_getReplacement {mark : Frame → State → Option State} {q : List ℤ} (hfull : s.Full)
    (hq : Queue.getReplacement s.queue = (number f, q)) :
    s.step mark .getReplacement = some (touch f { s with queue := q }) := by
  have hf : 0 ≤ number f ∧ number f < NumPhysPages :=
    ⟨Int.natCast_nonneg _, Int.ofNat_lt.mpr f.isLt⟩
  rw [step, if_pos hfull, hq]
  dsimp only
  rw [dif_pos hf]
  rfl

theorem Sorted.step {mark : Frame → State → Option State} (h : s.Sorted) {e : Event}
    (hmark : ∀ f, e = .markPage f → mark f s = some t → t.Sorted)
    (hs : s.step mark e = some t) : t.Sorted := by
  cases e with
  | pageUsed f =>
    obtain ⟨hf, ⟨⟩⟩ := Option.ite_none_right_eq_some.mp hs
    exact h.pageUsed hf
  | clearPage f =>
    obtain ⟨hf, hmap⟩ := Option.ite_none_right_eq_some.mp hs
    obtain ⟨q, hq, rfl⟩ := Option.map_eq_some_iff.mp hmap
    exact h.clearPage hf hq
  | markPage f => exact hmark f rfl hs
  | getReplacement =>
    have hfull : s.Full := by
      by_contra hno
      rw [State.step, if_neg hno] at hs
      cases hs
    obtain ⟨l, hq, hl⟩ := h
    have hlen := (length_eq_iff hl.nodup hl.mem).mpr hfull
    cases l with
    | nil => cases hlen
    | cons f l =>
      rw [step_getReplacement hfull (hq ▸ getReplacement_entries hlen)] at hs
      cases hs
      have hrefresh := hl.refresh (a := f)
      rw [List.erase_cons_head] at hrefresh
      exact ⟨l ++ [f], rfl, hrefresh⟩

theorem Sorted.markLru (h : s.Sorted) (hfull : s.Full) (hs : s.markLru f = some t) : t.Sorted := by
  obtain ⟨hf, hmap⟩ := Option.ite_none_right_eq_some.mp hs
  obtain ⟨q, hq, rfl⟩ := Option.map_eq_some_iff.mp hmap
  obtain ⟨l, hentries, hl⟩ := h
  rw [hentries, markPage_entries ((hl.mem f).mpr hf)
    ((length_eq_iff hl.nodup hl.mem).mpr hfull)] at hq
  exact ⟨l.erase f ++ [f], (Option.some.inj hq).symm, hl.refresh⟩

def Enabled (s : State) : Event → Prop
  | .pageUsed f => s.time f = none
  | .clearPage f | .markPage f => (s.time f).isSome
  | .getReplacement => s.Full

theorem Sorted.isSome_step {mark : Frame → State → Option State} (h : s.Sorted)
    (hmark : ∀ f, (s.time f).isSome → (mark f s).isSome) {e : Event} (he : s.Enabled e) :
    (s.step mark e).isSome := by
  obtain ⟨l, hq, hl⟩ := h
  cases e with
  | pageUsed f =>
    have hf : s.time f = none := he
    rw [State.step, if_pos hf]
    rfl
  | clearPage f =>
    have hf : (s.time f).isSome := he
    rw [State.step, if_pos hf, hq, clearPage_entries ((hl.mem f).mpr hf) (length_le hl.nodup)]
    rfl
  | markPage f => exact hmark f he
  | getReplacement =>
    have hlen := (length_eq_iff hl.nodup hl.mem).mpr he
    cases l with
    | nil => cases hlen
    | cons f l =>
      rw [step_getReplacement he (hq ▸ getReplacement_entries hlen)]
      rfl

end State

/-- In every run of `FIFO` the array holds the used frames in the order in which their pages were
loaded, followed by `-1`, the page that was loaded first is replaced, and no call goes outside of
the array. -/
theorem sorted_of_reachable_fifo (s : State) (h : Reachable fifoSystem s) :
    s.Sorted ∧ s.ReplacesOldest ∧ ∀ e, s.Enabled e → (s.step State.markFifo e).isSome := by
  have hsorted : s.Sorted := by
    refine h.invariant (P := State.Sorted) (fun s hi => State.sorted_of_initial hi) ?_
    intro s e t hs hstep
    refine hs.step (fun f _ hmark => ?_) hstep
    obtain rfl : s = t := Option.some.inj hmark
    exact hs
  exact ⟨hsorted, hsorted.replacesOldest, fun e => hsorted.isSome_step fun _ _ => rfl⟩

/-- All frames are loaded, one is cleared and loaded again, and one is replaced: the next victim is
the third frame. -/
theorem sorted_of_reachable_fifo_victim :
    ∃ s, Reachable fifoSystem s ∧ (getReplacement s.queue).1 = 2 ∧
      s.Sorted ∧ s.ReplacesOldest ∧ ∀ e, s.Enabled e → (s.step State.markFifo e).isSome := by
  have hexec : (exec (State.step State.markFifo) ⟨new, fun _ => none, 0⟩
      ((List.finRange NumPhysPages).map .pageUsed ++
        [.markPage 1, .clearPage 1, .pageUsed 1, .getReplacement])).any
      (fun s => (getReplacement s.queue).1 == 2) = true := by
    decide +kernel
  obtain ⟨s, hrun, hs⟩ := run_of_any_exec (I := State.Initial) hexec
  have hreach : Reachable fifoSystem s := ⟨_, _, rfl, hrun⟩
  exact ⟨s, hreach, by simpa using hs, sorted_of_reachable_fifo s hreach⟩

/-! ## Marks in a memory that is not full -/

/-- Marks are made only when all frames are in use. -/
def MarksFull (s : State) : Event → Prop
  | .markPage _ => s.Full
  | _ => True

instance (s : State) : (e : Event) → Decidable (MarksFull s e)
  | .markPage _ => inferInstanceAs (Decidable s.Full)
  | .pageUsed _ | .clearPage _ | .getReplacement => inferInstanceAs (Decidable True)

namespace State

variable {s t : State} {g : Frame}

theorem sorted_of_reachable_guard (h : Reachable (lruSystem.guard MarksFull) s) : s.Sorted := by
  refine h.invariant (P := Sorted) (fun s hi => sorted_of_initial hi) ?_
  intro s e t hs hstep
  refine hs.step (fun f he hmark => hs.markLru ?_ hmark) hstep.2
  obtain ⟨hfull, -⟩ := hstep
  rwa [he] at hfull

structure Swapped (s : State) (l₁ : List Frame) (g f : Frame) (l₂ : List Frame) : Prop where
  queue : s.queue = entries (l₁ ++ g :: f :: l₂)
  nodup : (l₁ ++ g :: f :: l₂).Nodup
  mem : ∀ a, a ∈ l₁ ++ g :: f :: l₂ ↔ (s.time a).isSome
  later : ∃ t u, s.time f = some t ∧ s.time g = some u ∧ t < u

/-- The first frame that is loaded after a mark in a memory that is not full comes before the marked
one. -/
theorem swapped_of_mark (h : s.Sorted) (hf : s.markLru f = some t) (hg : s.time g = none) :
    ∃ l, Swapped (touch g { t with queue := Queue.pageUsed (number g) t.queue }) l g f [] := by
  obtain ⟨hused, hmap⟩ := Option.ite_none_right_eq_some.mp hf
  obtain ⟨q, hq, rfl⟩ := Option.map_eq_some_iff.mp hmap
  obtain ⟨l, hentries, hl⟩ := h
  have hmem : f ∈ l := (hl.mem f).mpr hused
  have hlt := length_lt hl.nodup hl.mem hg
  have hgl : g ∉ l := by simp [hl.mem, hg]
  have hgf : g ≠ f := fun he => hgl (he ▸ hmem)
  have hlen : (l.erase f ++ [g, f]).length = l.length + 1 := by
    have hpos : 0 < l.length := List.length_pos_of_mem hmem
    simp [List.length_erase_of_mem hmem]
    omega
  rw [hentries, Queue.markPage, takeOut_of_lt hmem hlt] at hq
  cases hq
  refine ⟨l.erase f, ?_, ?_, fun a => ?_, ?_⟩
  · dsimp only [touch]
    rw [pageUsed_of_not_mem not_mem_map_number, entries, hlen,
      show NumPhysPages - (l.length + 1) = NumPhysPages - l.length - 1 by omega]
    simp
  · refine List.nodup_append.mpr ⟨hl.nodup.erase f, by simp [hgf], fun a ha b hb => ?_⟩
    obtain ⟨hne, hal⟩ := hl.nodup.mem_erase_iff.mp ha
    rintro rfl
    rcases List.mem_cons.mp hb with rfl | hb
    · exact hgl hal
    · exact hne (List.mem_singleton.mp hb)
  · simp only [touch, List.mem_append, hl.nodup.mem_erase_iff, List.mem_cons, List.not_mem_nil,
      or_false]
    by_cases hag : a = g
    · simp [hag]
    · by_cases haf : a = f
      · simp [haf, Ne.symm hgf]
      · simp [hag, haf, hl.mem]
  · exact ⟨s.clock, s.clock + 1, by simp [touch, Ne.symm hgf], by simp [touch], Nat.lt_succ_self _⟩

theorem Swapped.pageUsed {a : Frame} (h : Swapped s l₁ g f l₂) (ha : s.time a = none) :
    Swapped (touch a { s with queue := Queue.pageUsed (number a) s.queue }) l₁ g f (l₂ ++ [a]) := by
  have hlist : l₁ ++ g :: f :: (l₂ ++ [a]) = (l₁ ++ g :: f :: l₂) ++ [a] := by simp
  have hnotin : a ∉ l₁ ++ g :: f :: l₂ := by simp only [h.mem, ha]; decide
  have hne : ∀ b, (s.time b).isSome → b ≠ a := by
    rintro b hb rfl
    simp [ha] at hb
  refine ⟨?_, ?_, fun b => ?_, ?_⟩
  · rw [hlist, ← pageUsed_entries (length_lt h.nodup h.mem ha), ← h.queue]
    rfl
  · rw [hlist]
    exact List.nodup_append.mpr ⟨h.nodup, by simp, by rintro b hb c hc rfl; simp_all⟩
  · rw [hlist, List.mem_append, h.mem, List.mem_singleton]
    by_cases hb : b = a
    · simp [touch, hb]
    · simp [touch, hb]
  · obtain ⟨t, u, hf, hg, hlt⟩ := h.later
    refine ⟨t, u, ?_, ?_, hlt⟩
    · dsimp only [touch]
      rw [update_of_ne (hne f (by simp [hf])), hf]
    · dsimp only [touch]
      rw [update_of_ne (hne g (by simp [hg])), hg]

theorem Swapped.getReplacement {a : Frame} (h : Swapped s (a :: l₁) g f l₂) (hfull : s.Full) :
    ∃ t, s.step State.markLru .getReplacement = some t ∧ t.Full ∧
      Swapped t l₁ g f (l₂ ++ [a]) := by
  have hlen := (length_eq_iff h.nodup h.mem).mpr hfull
  have hlist : l₁ ++ g :: f :: (l₂ ++ [a]) = (l₁ ++ g :: f :: l₂) ++ [a] := by simp
  obtain ⟨hnotin, hnodup⟩ := List.nodup_cons.mp h.nodup
  have hfa : f ≠ a := by rintro rfl; simp at hnotin
  have hga : g ≠ a := by rintro rfl; simp at hnotin
  refine ⟨_, step_getReplacement hfull (h.queue ▸ getReplacement_entries hlen), fun b => ?_, ?_⟩
  · by_cases hb : b = a
    · simp [touch, hb]
    · simpa [touch, hb] using hfull b
  · refine ⟨by rw [hlist]; rfl, ?_, fun b => ?_, ?_⟩
    · rw [hlist]
      exact (List.perm_append_singleton a _).nodup_iff.mpr h.nodup
    · have hmem := h.mem b
      rw [List.cons_append, List.mem_cons] at hmem
      rw [hlist, List.mem_append, List.mem_singleton]
      by_cases hb : b = a
      · simp [touch, hb]
      · simpa [touch, hb] using hmem
    · obtain ⟨t, u, hf, hg, hlt⟩ := h.later
      exact ⟨t, u, by simpa [touch, hfa] using hf, by simpa [touch, hga] using hg, hlt⟩

theorem Swapped.exists_full (h : Swapped s l₁ g f l₂) : ∃ es t l,
    Run (lruSystem.guard MarksFull) s es t ∧ t.Full ∧ Swapped t l₁ g f l := by
  -- each turn loads a free frame, so the list grows to the number of frames
  obtain ⟨n, hn⟩ : ∃ n, NumPhysPages - (l₁ ++ g :: f :: l₂).length = n := ⟨_, rfl⟩
  induction n generalizing s l₂ with
  | zero =>
    have hle := length_le h.nodup
    exact ⟨[], s, l₂, .nil s, (length_eq_iff h.nodup h.mem).mp (by omega), h⟩
  | succ n ih =>
    have hnot : ¬ s.Full := fun hfull => by
      have := (length_eq_iff h.nodup h.mem).mpr hfull
      omega
    obtain ⟨a, ha⟩ := not_forall.mp hnot
    rw [Option.not_isSome_iff_eq_none] at ha
    obtain ⟨es, t, l, hrun, ht⟩ := ih (h.pageUsed ha) (by simp at hn ⊢; omega)
    have hstep : (lruSystem.guard MarksFull).Step s (.pageUsed a)
        (touch a { s with queue := Queue.pageUsed (number a) s.queue }) :=
      ⟨trivial, if_pos ha⟩
    exact ⟨_, t, l, .cons hstep hrun, ht⟩

theorem Swapped.not_replacesOldest (h : Swapped s [] g f l₂) (hfull : s.Full) :
    ¬ s.ReplacesOldest := by
  intro hold
  have hlen := (length_eq_iff h.nodup h.mem).mpr hfull
  obtain ⟨a, ha, v, hv, hle⟩ := hold hfull
  rw [h.queue, List.nil_append, getReplacement_entries hlen] at ha
  obtain rfl : g = a := number_injective ha
  obtain ⟨t, u, hf, hg, hlt⟩ := h.later
  obtain rfl : v = u := Option.some.inj (hv.symm.trans hg)
  exact Nat.not_le_of_lt hlt (hle f t hf)

theorem Swapped.exists_wrong (h : Swapped s l₁ g f l₂) (hfull : s.Full) :
    ∃ es t, Run (lruSystem.guard MarksFull) s es t ∧ ¬ t.ReplacesOldest := by
  induction l₁ generalizing s l₂ with
  | nil => exact ⟨[], s, .nil s, h.not_replacesOldest hfull⟩
  | cons a l₁ ih =>
    obtain ⟨t, hstep, htfull, ht⟩ := h.getReplacement hfull
    obtain ⟨es, u, hrun, hu⟩ := ih ht htfull
    have hguard : (lruSystem.guard MarksFull).Step s .getReplacement t := ⟨trivial, hstep⟩
    exact ⟨_, u, .cons hguard hrun, hu⟩

theorem exists_wrong_of_mark (h : s.Sorted) (hnot : ¬ s.Full) (hs : s.markLru f = some t) :
    ∃ es u, Run (lruSystem.guard MarksFull) t es u ∧ ¬ u.ReplacesOldest := by
  obtain ⟨g, hg⟩ := not_forall.mp hnot
  rw [Option.not_isSome_iff_eq_none] at hg
  obtain ⟨l, hswapped⟩ := swapped_of_mark h hs hg
  obtain ⟨es, u, l', hrun, hfull, hu⟩ := hswapped.exists_full
  obtain ⟨es', v, hrun', hv⟩ := hu.exists_wrong hfull
  have htime : t.time g = none := by
    obtain ⟨hused, hmap⟩ := Option.ite_none_right_eq_some.mp hs
    obtain ⟨q, -, rfl⟩ := Option.map_eq_some_iff.mp hmap
    have hgf : g ≠ f := by
      rintro rfl
      simp [hg] at hused
    simp [touch, hgf, hg]
  have hstep : (lruSystem.guard MarksFull).Step t (.pageUsed g)
      (touch g { t with queue := Queue.pageUsed (number g) t.queue }) :=
    ⟨trivial, if_pos htime⟩
  exact ⟨_, v, (Run.cons hstep hrun).append hrun', hv⟩

end State

/-- In every run of `LRU` in which pages are marked only when all frames are in use, the page that
was last used before the others is replaced. The next step keeps it so, in all runs of this kind
that go on from it, exactly if it is of this kind. -/
theorem replacesOldest_of_reachable_lru (s : State)
    (h : Reachable (lruSystem.guard MarksFull) s) :
    s.ReplacesOldest ∧ ∀ e t, lruSystem.Step s e t →
      (MarksFull s e ↔
        ∀ es u, Run (lruSystem.guard MarksFull) t es u → u.ReplacesOldest) := by
  have hsorted := State.sorted_of_reachable_guard h
  refine ⟨hsorted.replacesOldest, fun e t hstep => ⟨fun he es u hrun => ?_, fun hall => ?_⟩⟩
  · have hu := (h.step (S := lruSystem.guard MarksFull) ⟨he, hstep⟩).run hrun
    exact (State.sorted_of_reachable_guard hu).replacesOldest
  · cases e with
    | markPage f =>
      by_contra hnot
      obtain ⟨es, u, hrun, hu⟩ := State.exists_wrong_of_mark hsorted hnot hstep
      exact hu (hall es u hrun)
    | _ => trivial

/-- All frames are loaded, and the first one is used again. -/
theorem replacesOldest_of_reachable_lru_victim :
    ∃ s, Reachable (lruSystem.guard MarksFull) s ∧ (getReplacement s.queue).1 = 1 ∧
      s.ReplacesOldest ∧ ∀ e t, lruSystem.Step s e t → (MarksFull s e ↔
        ∀ es u, Run (lruSystem.guard MarksFull) t es u → u.ReplacesOldest) := by
  have hexec : (exec (guarded MarksFull (State.step State.markLru)) ⟨new, fun _ => none, 0⟩
      ((List.finRange NumPhysPages).map .pageUsed ++ [.markPage 0])).any
      (fun s => (getReplacement s.queue).1 == 1) = true := by
    decide +kernel
  obtain ⟨s, hrun, hs⟩ := run_of_any_exec (I := State.Initial) hexec
  rw [← guard_ofStep] at hrun
  have hreach : Reachable (lruSystem.guard MarksFull) s := ⟨_, _, rfl, hrun⟩
  exact ⟨s, hreach, by simpa using hs, replacesOldest_of_reachable_lru s hreach⟩

/-- A frame is marked while the others are free. The frame that is loaded next goes in front of it,
and is replaced although it was used later. -/
theorem exists_not_replacesOldest : ∃ s, Reachable lruSystem s ∧ ¬ s.ReplacesOldest := by
  have hexec : (exec (State.step State.markLru) ⟨new, fun _ => none, 0⟩
      (.pageUsed 0 :: .markPage 0 :: (List.finRange NumPhysPages).tail.map .pageUsed)).any
      (fun s => decide s.Full && (getReplacement s.queue).1 == 1 &&
        s.time 0 == some 1 && s.time 1 == some 2) = true := by
    decide +kernel
  obtain ⟨s, hrun, hs⟩ := run_of_any_exec (I := State.Initial) hexec
  simp only [Bool.and_eq_true, decide_eq_true_eq, beq_iff_eq] at hs
  obtain ⟨⟨⟨hfull, hpage⟩, h₀⟩, h₁⟩ := hs
  refine ⟨s, ⟨_, _, rfl, hrun⟩, fun hold => ?_⟩
  obtain ⟨f, hf, t, ht, hle⟩ := hold hfull
  obtain rfl : (1 : Frame) = f := number_injective (hpage.symm.trans hf)
  obtain rfl : 2 = t := Option.some.inj (h₁.symm.trans ht)
  exact absurd (hle 0 1 h₀) (by decide)

end Nachos.VM.Queue
