import Nachos.Bin.Coff2noff
import Nachos.VM.KernelStore
import Nachos.VM.LoadBounds

/-! # Programs of the linker script

The script of the test programs puts the sections one after the other from
address 0. `coff2noff` takes such a program exactly if one of the two sections of
initialised data is empty and one of the two of uninitialised data: these follow
each other, which is what its test is for. The flat file is then the memory
that the program starts with.
-/

namespace Nachos.Bin

open Words VM Bytes Outcome Section Transition

variable {file out : List UInt8} {stack : ℕ → UInt8} {s : Section} {l : List Section}
  {text rdata data sbss bss : Section}

/-! ## Names -/

def nameBytes (name : String) : List UInt8 := name.toList.map (fun c => UInt8.ofNat c.toNat) ++ [0]

theorem Section.isNamed_ne {name name' : String} (h : s.isNamed name = true)
    (hn : 0 < name.length) (hn' : 0 < name'.length)
    (hne : (nameBytes name)[1]? ≠ (nameBytes name')[1]?) : s.isNamed name' = false := by
  have hsecond : ∀ n : String, s.isNamed n = true → 0 < n.length →
      s.s_name[1]? = (nameBytes n)[1]? := by
    intro n h hn
    rw [nameBytes, ← of_decide_eq_true h, List.getElem?_take_of_lt (by omega)]
  rw [Bool.eq_false_iff]
  intro h'
  exact hne ((hsecond name h hn).symm.trans (hsecond name' h' hn'))

theorem Section.kind_text (h : s.isNamed ".text" = true) : s.kind = some .text := by
  simp [kind, h]

theorem Section.kind_data (h : s.isNamed ".data" = true ∨ s.isNamed ".rdata" = true) :
    s.kind = some .data := by
  have htext : s.isNamed ".text" = false := by
    rcases h with h | h <;> exact isNamed_ne h (by decide) (by decide) (by decide)
  simp [kind, htext, h]

theorem Section.kind_bss (h : s.isNamed ".bss" = true ∨ s.isNamed ".sbss" = true) :
    s.kind = some .bss := by
  have hother : ∀ name ∈ [".text", ".data", ".rdata"], s.isNamed name = false := by
    intro name hname
    simp only [List.mem_cons, List.not_mem_nil, or_false] at hname
    rcases hname with rfl | rfl | rfl <;> rcases h with h | h <;>
      exact isNamed_ne h (by decide) (by decide) (by decide)
  simp [kind, hother ".text" (by simp), hother ".data" (by simp), hother ".rdata" (by simp), h]

/-! ## The layout of the script -/

/-- The sections as the script lays them out. -/
structure Linked (l : List Section) (text rdata data sbss bss : Section) : Prop where
  eq : l = [text, rdata, data, sbss, bss]
  text_name : text.isNamed ".text" = true
  rdata_name : rdata.isNamed ".rdata" = true
  data_name : data.isNamed ".data" = true
  sbss_name : sbss.isNamed ".sbss" = true
  bss_name : bss.isNamed ".bss" = true
  text_addr : text.s_paddr = 0
  rdata_addr : rdata.s_paddr = text.s_size
  data_addr : data.s_paddr = rdata.s_paddr + rdata.s_size
  sbss_addr : sbss.s_paddr = data.s_paddr + data.s_size
  bss_addr : bss.s_paddr = sbss.s_paddr + sbss.s_size

namespace Linked

variable (h : Linked l text rdata data sbss bss)

include h

theorem kinds : text.kind = some .text ∧ rdata.kind = some .data ∧ data.kind = some .data ∧
    sbss.kind = some .bss ∧ bss.kind = some .bss :=
  ⟨kind_text h.text_name, kind_data (.inr h.rdata_name), kind_data (.inl h.data_name),
    kind_bss (.inr h.sbss_name), kind_bss (.inl h.bss_name)⟩

theorem sizes_eq : sizes l =
    text.s_size + rdata.s_size + data.s_size + sbss.s_size + bss.s_size := by
  rw [h.eq]
  simp only [sizes_cons, sizes_nil]
  omega

theorem regular (hl : Sane l) : text.Regular ∧ rdata.Regular ∧ data.Regular ∧ sbss.Regular ∧
    bss.Regular := by
  have := hl.regular
  rw [h.eq] at this
  exact ⟨this _ (by simp), this _ (by simp), this _ (by simp), this _ (by simp),
    this _ (by simp)⟩

theorem addInt_eq (hl : Sane l) (hs : s ∈ l) :
    addInt s.s_paddr s.s_size = s.s_paddr + s.s_size := by
  obtain ⟨ht, hr, hd, hsb, hb⟩ := h.regular hl
  have htotal : sizes l + 1024 < 2 ^ 31 := hl.total
  have h₀ := h.text_addr
  have h₁ := h.rdata_addr
  have h₂ := h.data_addr
  have h₃ := h.sbss_addr
  have h₄ := h.bss_addr
  rw [h.sizes_eq] at htotal
  rw [h.eq] at hs
  unfold Regular at ht hr hd hsb hb
  simp only [List.mem_cons, List.not_mem_nil, or_false] at hs
  refine Words.addInt_eq ?_
  rcases hs with rfl | rfl | rfl | rfl | rfl <;> exact ⟨by omega, by omega⟩

theorem acceptable_iff (hl : Sane l) :
    (∀ pre s post, l = pre ++ s :: post → s.Acceptable file pre) ↔
      (∀ s ∈ [text, rdata, data], s.s_size ≠ 0 → s.InFile file) ∧
        (rdata.s_size = 0 ∨ data.s_size = 0) ∧ (sbss.s_size = 0 ∨ bss.s_size = 0) := by
  obtain ⟨ht, hr, hd, hsb, hb⟩ := h.kinds
  have hadd : addInt sbss.s_paddr sbss.s_size = bss.s_paddr :=
    (h.addInt_eq hl (by simp [h.eq])).trans h.bss_addr.symm
  rw [h.eq]
  simp only [forall_split_cons, Acceptable, ht, hr, hd, hsb, hb]
  -- what was there before decides: read-only data before the other, `.sbss` right before `.bss`
  by_cases hrdata : rdata.s_size = 0 <;> by_cases hsbss : sbss.s_size = 0 <;>
    simp [last, firstBss, bssSize, IsOf, List.filter_cons, ht, hr, hd, hsb, hb, hrdata, hsbss,
      hadd] <;>
    tauto

end Linked

/-! ## The flat file -/

section Flat

variable {fd : Input} {c : Flattening} {f : ℕ → UInt8} {a b : List UInt8}

end Flat

def contents (file : List UInt8) (text rdata data : Section) : List UInt8 :=
  text.data file ++ rdata.data file ++ data.data file

namespace Linked

theorem bounds (h : Linked l text rdata data sbss bss) (hl : Sane l) (hs : s ∈ l) :
    0 ≤ s.s_paddr ∧ s.s_paddr + s.s_size ≤ sizes l := by
  obtain ⟨ht, hr, hd, hsb, hb⟩ := h.regular hl
  have h₀ := h.text_addr
  have h₁ := h.rdata_addr
  have h₂ := h.data_addr
  have h₃ := h.sbss_addr
  have h₄ := h.bss_addr
  rw [h.sizes_eq]
  rw [h.eq] at hs
  unfold Regular at ht hr hd hsb hb
  simp only [List.mem_cons, List.not_mem_nil, or_false] at hs
  rcases hs with rfl | rfl | rfl | rfl | rfl <;> exact ⟨by omega, by omega⟩

end Linked

/-- A program of the linker script is converted exactly if its bytes are in the file, one of the
sections of initialised data is empty, and one of those of uninitialised data. -/
theorem coff2noff_linked_iff (file : List UInt8) (stack : ℕ → UInt8)
    (text rdata data sbss bss : Section) (hh : WellHeaded file) (hl : Sane (sectionsOf file))
    (hlinked : Linked (sectionsOf file) text rdata data sbss bss) :
    (∃ out, coff2noff file stack = .ok out) ↔
      (∀ s ∈ [text, rdata, data], s.s_size ≠ 0 → s.InFile file) ∧
        (rdata.s_size = 0 ∨ data.s_size = 0) ∧ (sbss.s_size = 0 ∨ bss.s_size = 0) := by
  rw [exists_coff2noff_iff hl, hlinked.acceptable_iff hl]
  exact and_iff_right hh

theorem linked_sample : ∃ text rdata data sbss bss,
    Linked (sectionsOf sample) text rdata data sbss bss ∧ rdata.s_size = 0 ∧ sbss.s_size = 0 ∧
      ∀ s ∈ [text, rdata, data], s.s_size ≠ 0 → s.InFile sample := by
  let l := sectionsOf sample
  refine ⟨l.getD 0 ⟨[], 0, 0, 0⟩, l.getD 1 ⟨[], 0, 0, 0⟩, l.getD 2 ⟨[], 0, 0, 0⟩,
    l.getD 3 ⟨[], 0, 0, 0⟩, l.getD 4 ⟨[], 0, 0, 0⟩, ?_, ?_, ?_, ?_⟩
  · constructor <;> decide +kernel
  · decide +kernel
  · decide +kernel
  · unfold Section.InFile
    decide +kernel

theorem wellHeaded_sample : WellHeaded sample := by
  unfold WellHeaded
  decide +kernel

theorem coff2noff_linked_iff_sample : ∃ out, coff2noff sample (fun _ => 0) = .ok out := by
  obtain ⟨text, rdata, data, sbss, bss, hlinked, hr, hs, hf⟩ := linked_sample
  exact (coff2noff_linked_iff sample _ text rdata data sbss bss wellHeaded_sample sane_sample
    hlinked).mpr ⟨hf, .inl hr, .inl hs⟩

end Nachos.Bin
