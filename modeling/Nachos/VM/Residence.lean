import Nachos.VM.Routines

/-! # Swap pages in at most one frame

`getPhysicalPage` looks for the page before it swaps it in, and does not set
the valid bit; `myPageFaultHandler` does not look. As long as page faults are
only served for pages in no frame, each swap page is in at most one.
-/

namespace Nachos.VM

open Function Bytes Transition State

variable {σ : Type} {P : Replacement σ} {s t : State σ} {p : EntryPtr} {q id : ℕ} {vAddr : ℤ}

/-- No two frames hold the same swap page. -/
def SingleResidence (s : State σ) : Prop :=
  ∀ i < NumPhysPages, ∀ j < NumPhysPages, ∀ sPage,
    s.activePageMap i = some sPage → s.activePageMap j = some sPage → i = j

/-- If the action raises a page fault, its page is in no frame. -/
def FaultsAbsent (s : State σ) : Action → Prop
  | .load id addr _ | .store id addr _ _ =>
    (s.pageTable (entryPtr id addr)).valid = false →
      s.frameOf (s.pageTable (entryPtr id addr)).physicalPage = none
  | _ => True

instance (s : State σ) (a : Action) : Decidable (FaultsAbsent s a) :=
  match a with
  | .load _ _ _ | .store _ _ _ _ => inferInstanceAs (Decidable (_ → _))
  | .create _ _ | .exit _ | .fork _ _ | .getMem _ _ _ | .putMem _ _ _ | .getString _ _ =>
    inferInstanceAs (Decidable True)

namespace State

theorem activePageMap_evict (h : s.evict q = some t) : t.activePageMap = s.activePageMap := by
  obtain ⟨old, e, -, -, ⟨-, sPage, -, rfl⟩ | ⟨-, rfl⟩⟩ := evict_eq_some h <;> rfl

theorem activePageMap_takeFrame (h : s.takeFrame P = some (q, t)) :
    t.activePageMap = s.activePageMap := by
  rcases takeFrame_eq_some h with ⟨-, -, rfl⟩ | ⟨-, -, h⟩
  · rfl
  · exact (activePageMap_evict h).trans rfl

theorem activePageMap_swap (h : s.swap P p = some (q, t)) :
    t.activePageMap = update s.activePageMap q (some (s.pageTable p).physicalPage) := by
  obtain ⟨e, u, he, hu, rfl⟩ := swap_eq_some h
  obtain ⟨-, rfl⟩ := entryAt_eq_some_iff.mp he
  simp [swapIn, activePageMap_takeFrame hu]

end State

namespace SingleResidence

theorem of_eq (h : SingleResidence s) (he : t.activePageMap = s.activePageMap) :
    SingleResidence t := by
  unfold SingleResidence
  rw [he]
  exact h

theorem setBuffer {n : ℕ} {g : ℕ → UInt8} (h : SingleResidence s) :
    SingleResidence (s.setBuffer n g) :=
  h.of_eq rfl

theorem swap (h : SingleResidence s) (hf : s.frameOf (s.pageTable p).physicalPage = none)
    (hs : s.swap P p = some (q, t)) : SingleResidence t := by
  rw [frameOf_eq_none_iff] at hf
  intro i hi j hj sPage
  rw [activePageMap_swap hs]
  simp only [update_apply]
  split <;> split
  · intro _ _
    simp_all
  · rintro ⟨⟩ hj'
    exact absurd hj' (hf j hj)
  · rintro hi' ⟨⟩
    exact absurd hi' (hf i hi)
  · exact h i hi j hj sPage

theorem getPhysicalPage (h : SingleResidence s) (hs : s.getPhysicalPage P p = some (q, t)) :
    SingleResidence t := by
  obtain ⟨e, he, ⟨-, rfl⟩ | ⟨hf, hs⟩⟩ := getPhysicalPage_eq_some hs
  · exact h
  · obtain ⟨-, rfl⟩ := entryAt_eq_some_iff.mp he
    exact h.swap hf hs

theorem clearPage {sPage : ℕ} (h : SingleResidence s) (hs : s.clearPage P sPage = some t) :
    SingleResidence t := by
  obtain ⟨pPage, -, -, -, rfl⟩ := clearPage_eq_some hs
  intro i hi j hj X
  simp only [update_apply]
  split <;> split
  · simp
  · simp
  · simp
  · exact h i hi j hj X

theorem access {addr size : ℕ} {w : Bool} {r : Option ℕ} (h : SingleResidence s)
    (hf : (s.pageTable (entryPtr id addr)).valid = false →
      s.frameOf (s.pageTable (entryPtr id addr)).physicalPage = none)
    (hs : Access P id addr size w s r t) : SingleResidence t := by
  cases hs with
  | fault ha hv hu => exact (h.swap (hf hv) hu).of_eq rfl
  | hit ha hv hu hq => exact (h.getPhysicalPage hu).of_eq rfl

theorem kernelAddr {size a : ℕ} (h : SingleResidence s)
    (hs : s.kernelAddr P id vAddr size = some (a, t)) : SingleResidence t := by
  obtain ⟨-, q, hq, -⟩ := kernelAddr_eq_some hs
  exact h.getPhysicalPage hq

theorem clearPages {n : ℕ} (h : SingleResidence s) (hs : s.clearPages P id n = some t) :
    SingleResidence t :=
  clearPages_preserves (fun _ _ _ _ hu hv => hu.getPhysicalPage hv)
    (fun _ _ _ hv ht => hv.clearPage ht) h hs

theorem effect {a : Action} {o : Output} (h : SingleResidence s) (hf : FaultsAbsent s a)
    (hs : Effect P s a o t) : SingleResidence t := by
  cases hs with
  | create hc => exact h.of_eq (create_sameFrames hc).activePageMap
  | loadFault ha => exact h.access hf ha
  | load ha => exact h.access hf ha
  | storeFault ha => exact h.access hf ha
  | store ha => exact (h.access hf ha).of_eq rfl
  | exit hd =>
    obtain ⟨n, u, -, hu, rfl⟩ := destroy_eq_some hd
    exact (h.clearPages hu).of_eq rfl
  | fork hc =>
    obtain ⟨n, -, -, hu⟩ := copyAddrSpace_eq_some hc
    exact h.of_eq (copyPages_sameFrames hu).activePageMap
  | getMem ha => exact h.kernelAddr ha
  | putMem ha => exact (h.setBuffer.kernelAddr ha).of_eq rfl
  | getString ha => exact h.kernelAddr ha

theorem of_initial (h : Initial s) : SingleResidence s := by
  intro i _ j _ sPage hi
  simp [h.activePageMap] at hi

end SingleResidence

/-- The paging system in which page faults are served only for pages in no frame. -/
def carefulSystem (P : Replacement σ) : System (State σ) Label :=
  (system P).guard fun s l => FaultsAbsent s l.1

/-- In every run in which page faults are served only for pages in no frame, each swap page is
in at most one frame. -/
theorem single_residence_of_faults_absent (h : Reachable (carefulSystem P) s) :
    SingleResidence s := by
  refine h.invariant (P := SingleResidence) (fun _ => SingleResidence.of_initial) ?_
  rintro s l t hs ⟨hf, ht⟩
  exact hs.effect hf (effect_of_act (step_eq_some_iff.mp ht))

/-- A process loads from a page, which brings it in, and the kernel reads it there. -/
theorem single_residence_of_faults_absent_load_first :
    ∃ s, Reachable (carefulSystem fifo) s ∧ s.activePageMap 0 = some 0 ∧ SingleResidence s := by
  have he : (exec (guarded (fun s l => FaultsAbsent s l.1) (step fifo)) (boot [])
      [(.create 0 (blank 0), .done), (.load 0 0 .byte, .faulted), (.load 0 0 .byte, .value 0),
        (.getMem 0 0 1, .bytes [0])]).any (fun s => s.activePageMap 0 == some 0) = true := by
    decide +kernel
  obtain ⟨s, hr, hs⟩ := run_of_any_exec (I := Initial) he
  rw [← guard_ofStep] at hr
  have h : Reachable (carefulSystem fifo) s := ⟨_, _, initial_boot [], hr⟩
  exact ⟨s, h, by simpa using hs, single_residence_of_faults_absent h⟩

/-- The kernel reads a page of a new process, and the process then loads from this page: the
fault handler swaps the page in a second time. -/
theorem double_residence_read_then_load : ∃ s, Reachable (system fifo) s ∧
    s.activePageMap 0 = some 0 ∧ s.activePageMap 1 = some 0 ∧ ¬ SingleResidence s := by
  have he : (exec (step fifo) (boot []) [(.create 0 (blank 0), .done),
      (.getMem 0 0 1, .bytes [0]), (.load 0 0 .byte, .faulted)]).any
      (fun s => s.activePageMap 0 == some 0 && s.activePageMap 1 == some 0) = true := by
    decide +kernel
  obtain ⟨s, hr, hs⟩ := run_of_any_exec (I := Initial) he
  rw [Bool.and_eq_true, beq_iff_eq, beq_iff_eq] at hs
  refine ⟨s, ⟨_, _, initial_boot [], hr⟩, hs.1, hs.2, fun h => ?_⟩
  exact absurd (h 0 (by decide) 1 (by decide) 0 hs.1 hs.2) (by decide)

end Nachos.VM
