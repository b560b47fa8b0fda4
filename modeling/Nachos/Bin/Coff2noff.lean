import Mathlib.Data.List.GetD
import Nachos.Bin.Coff
import Nachos.VM.Loader

/-! # What coff2noff keeps

The loop over the sections is followed prefix by prefix. The header names the
last section of the code and the section of the data, and the bytes of these
sections are in the file where it says. The program that is loaded from the NOFF
file therefore starts with the memory that the COFF file describes.
-/

namespace Nachos.Bin

open Words VM Bytes Outcome

variable {file written : List UInt8} {stack : ℕ → UInt8} {s : Section} {l pre : List Section}
  {c d : Conversion} {g : Segment} {k : Section.Kind}

/-! ## The memory that a COFF file describes -/

namespace Section

def IsOf (s : Section) (k : Kind) : Prop := s.s_size ≠ 0 ∧ s.kind = some k

instance : Decidable (s.IsOf k) := inferInstanceAs (Decidable (_ ∧ _))

/-- The size is none that `read` refuses, and the offset none that `lseek` refuses. -/
def Regular (s : Section) : Prop := 0 ≤ s.s_size ∧ 0 ≤ s.s_scnptr

/-- The bytes of the section are in the file. -/
def InFile (file : List UInt8) (s : Section) : Prop := s.s_scnptr + s.s_size ≤ file.length

def data (file : List UInt8) (s : Section) : List UInt8 :=
  (file.drop s.s_scnptr.toNat).take s.s_size.toNat

/-- The memory with the bytes of a section at its addresses. -/
def place (file : List UInt8) (f : ℕ → UInt8) : Option Section → ℕ → UInt8
  | none => f
  | some s => blit f s.s_paddr.toNat s.s_size.toNat fun i => file.getD (s.s_scnptr.toNat + i) 0

def last (k : Kind) (l : List Section) : Option Section := (l.filter (IsOf · k)).getLast?

/-- The memory of a program with these sections: the code, the data, and zeros. -/
def image (file : List UInt8) (l : List Section) : ℕ → UInt8 :=
  place file (place file (fun _ => 0) (last .text l)) (last .data l)

theorem last_concat : last k (l ++ [s]) = if s.IsOf k then some s else last k l := by
  unfold last
  rw [List.filter_append]
  split
  case isTrue h => simp [h]
  case isFalse h => simp [h]

theorem IsOf.ne {k' : Kind} (h : s.IsOf k) (hk : k ≠ k') : ¬ s.IsOf k' := fun h' =>
  hk (Option.some.inj (h.2.symm.trans h'.2))

theorem length_data (hs : s.Regular) (h : s.InFile file) :
    (s.data file).length = s.s_size.toNat := by
  obtain ⟨h₀, h₁⟩ := hs
  unfold InFile at h
  simp only [data, List.length_take, List.length_drop]
  omega

theorem getD_data {i : ℕ} (hi : i < s.s_size.toNat) :
    (s.data file).getD i 0 = file.getD (s.s_scnptr.toNat + i) 0 := by
  simp [data, List.getD, hi]

end Section

/-! ## One section -/

theorem Input.read_eq {fd : Input} {n : ℤ} (hn : 0 ≤ n) : fd.read n =
    if n.toNat ≤ fd.bytes.length - fd.offset then
      .ok ((fd.bytes.drop fd.offset).take n.toNat, { fd with offset := fd.offset + n.toNat })
    else .error .tooShort := by
  have hlen : ((fd.bytes.drop fd.offset).take n.toNat).length =
      min n.toNat (fd.bytes.length - fd.offset) := by simp
  unfold Input.read Input.sysRead
  rw [if_neg (by omega)]
  dsimp only
  rw [hlen]
  by_cases hle : n.toNat ≤ fd.bytes.length - fd.offset
  · rw [if_pos hle, if_neg (by omega), min_eq_left hle]
  · rw [if_neg hle, if_pos (by omega)]

theorem Input.read_section {fd : Input} (hs : s.Regular) :
    (fd.lseek s.s_scnptr).read s.s_size =
      if s.s_size.toNat ≤ fd.bytes.length - s.s_scnptr.toNat then
        .ok (s.data fd.bytes, { fd with offset := s.s_scnptr.toNat + s.s_size.toNat })
      else .error .tooShort := by
  rw [Input.read_eq hs.1, Input.lseek, if_neg (Int.not_lt.mpr hs.2)]
  rfl

theorem Section.Regular.inFile_iff (hs : s.Regular) (hne : s.s_size ≠ 0) :
    s.InFile file ↔ s.s_size.toNat ≤ file.length - s.s_scnptr.toNat := by
  obtain ⟨h₀, h₁⟩ := hs
  unfold Section.InFile
  omega

namespace Conversion

def copied (c : Conversion) (s : Section) : Conversion :=
  { c with
    fdIn := { c.fdIn with offset := s.s_scnptr.toNat + s.s_size.toNat }
    written := c.written ++ s.data c.fdIn.bytes
    inNoffFile := addInt c.inNoffFile s.s_size }

theorem copy_eq_ok (hs : s.Regular) (hne : s.s_size ≠ 0) :
    c.copy s = .ok d ↔ s.InFile c.fdIn.bytes ∧ d = c.copied s := by
  have hin : s.InFile c.fdIn.bytes ↔ _ := hs.inFile_iff hne
  unfold copy
  rw [Input.read_section hs]
  by_cases hf : s.InFile c.fdIn.bytes
  · rw [if_pos (hin.mp hf)]
    constructor
    · intro h
      exact ⟨hf, (Except.ok.inj h).symm⟩
    · rintro ⟨-, rfl⟩
      rfl
  · rw [if_neg (mt hin.mpr hf)]
    exact iff_of_false (by simp) fun h => hf h.1

def grown (c : Conversion) (s : Section) : Segment :=
  let u := c.noffH.uninitData
  if u.size ≠ 0 then { u with size := addInt u.size s.s_size }
  else { u with virtualAddr := s.s_paddr, size := s.s_size }

inductive Turn (c : Conversion) (s : Section) : Conversion → Prop
  | empty : s.s_size = 0 → Turn c s c
  | text : s.IsOf .text → s.InFile c.fdIn.bytes →
    Turn c s ({ c with noffH := { c.noffH with code := c.segment s } }.copied s)
  | data : s.IsOf .data → c.noffH.initData.size = 0 → s.InFile c.fdIn.bytes →
    Turn c s ({ c with noffH := { c.noffH with initData := c.segment s } }.copied s)
  | bss : s.IsOf .bss →
    (c.noffH.uninitData.size ≠ 0 →
      s.s_paddr ≠ addInt c.noffH.uninitData.virtualAddr c.noffH.uninitData.size) →
    Turn c s { c with noffH := { c.noffH with uninitData := c.grown s } }

theorem step_eq_ok (hs : s.Regular) : c.step s = .ok d ↔ Turn c s d := by
  constructor
  · intro h
    unfold step at h
    split at h
    case isTrue hz =>
      obtain rfl := Except.ok.inj h
      exact .empty hz
    case isFalse hz =>
      split at h
      case h_1 hk =>
        obtain ⟨hf, rfl⟩ := (copy_eq_ok hs hz).mp h
        exact .text ⟨hz, hk⟩ hf
      case h_2 hk =>
        split at h
        case isTrue => cases h
        case isFalse hi =>
          obtain ⟨hf, rfl⟩ := (copy_eq_ok hs hz).mp h
          exact .data ⟨hz, hk⟩ (not_not.mp hi) hf
      case h_3 hk =>
        dsimp only at h
        split at h
        case isTrue hu =>
          split at h
          case isTrue => cases h
          case isFalse hp =>
            obtain rfl := Except.ok.inj h
            have := Turn.bss (c := c) ⟨hz, hk⟩ fun _ => hp
            rwa [grown, if_pos hu] at this
        case isFalse hu =>
          obtain rfl := Except.ok.inj h
          have := Turn.bss (c := c) ⟨hz, hk⟩ fun hu' => absurd hu' hu
          rwa [grown, if_neg hu] at this
      case h_4 => cases h
  · intro h
    unfold step
    cases h with
    | empty hz => rw [if_pos hz]
    | text hk hf =>
      rw [if_neg hk.1, hk.2]
      exact (copy_eq_ok hs hk.1).mpr ⟨hf, rfl⟩
    | data hk hi hf =>
      rw [if_neg hk.1, hk.2]
      dsimp only
      rw [if_neg (not_not.mpr hi)]
      exact (copy_eq_ok hs hk.1).mpr ⟨hf, rfl⟩
    | bss hk hp =>
      rw [if_neg hk.1, hk.2]
      dsimp only [grown]
      split
      case isTrue hu => rw [if_neg (hp hu)]
      case isFalse => rfl

end Conversion

/-! ## All sections -/

namespace Section

def sizes (l : List Section) : ℤ := (l.map s_size).sum

def bssSize (l : List Section) : ℤ := sizes (l.filter (IsOf · .bss))

def firstBss (l : List Section) : Option Section := (l.filter (IsOf · .bss)).head?

/-- The sections are some that the converters can read, below two gigabytes with the stack. -/
structure Sane (l : List Section) : Prop where
  regular : ∀ s ∈ l, s.Regular
  total : sizes l + StackSize < 2 ^ 31

@[simp] theorem sizes_nil : sizes [] = 0 := rfl

@[simp] theorem sizes_cons : sizes (s :: l) = s.s_size + sizes l := by simp [sizes]

@[simp] theorem sizes_append {l' : List Section} : sizes (l ++ l') = sizes l + sizes l' := by
  simp [sizes]

theorem sizes_nonneg (h : ∀ s ∈ l, s.Regular) : 0 ≤ sizes l := by
  induction l with
  | nil => simp
  | cons s l ih =>
    have h₁ := (h s (by simp)).1
    have h₂ := ih fun t ht => h t (by simp [ht])
    rw [sizes_cons]
    omega

theorem bssSize_concat :
    bssSize (l ++ [s]) = bssSize l + if s.IsOf .bss then s.s_size else 0 := by
  unfold bssSize
  rw [List.filter_append, sizes_append]
  split
  case isTrue h => simp [h]
  case isFalse h => simp [h]

theorem bssSize_le (h : ∀ s ∈ l, s.Regular) : 0 ≤ bssSize l ∧ bssSize l ≤ sizes l := by
  induction l with
  | nil => simp [bssSize]
  | cons s l ih =>
    have h₁ := (h s (by simp)).1
    have h₂ := ih fun t ht => h t (by simp [ht])
    unfold bssSize at h₂ ⊢
    rw [List.filter_cons]
    split
    · simp only [sizes_cons]
      omega
    · rw [sizes_cons]
      omega

theorem bssSize_eq_zero_iff (h : ∀ s ∈ l, s.Regular) : bssSize l = 0 ↔ firstBss l = none := by
  unfold firstBss
  rw [List.head?_eq_none_iff]
  constructor
  · intro h₀
    rw [List.eq_nil_iff_forall_not_mem]
    intro s hs
    obtain ⟨l₁, l₂, hl⟩ := List.append_of_mem hs
    have hmem := fun t (ht : t ∈ l.filter (IsOf · .bss)) => h t (List.mem_filter.mp ht).1
    have hpos : s.s_size ≠ 0 := by
      have := (List.mem_filter.mp hs).2
      exact (of_decide_eq_true this).1
    rw [bssSize, hl, sizes_append, sizes_cons] at h₀
    rw [hl] at hmem
    have h₁ := sizes_nonneg (l := l₁) fun t ht => hmem t (by simp [ht])
    have h₂ := sizes_nonneg (l := l₂) fun t ht => hmem t (by simp [ht])
    have h₃ := (hmem s (by simp)).1
    omega
  · intro hn
    rw [bssSize, hn, sizes_nil]

theorem firstBss_concat : firstBss (l ++ [s]) =
    (firstBss l).or (if s.IsOf .bss then some s else none) := by
  unfold firstBss
  rw [List.filter_append, List.head?_append]
  split
  case isTrue h => simp [h]
  case isFalse h => simp [h]

theorem Sane.total_le {post : List Section} (h : Sane l) (hl : l = pre ++ s :: post) :
    40 + sizes pre + s.s_size < 2 ^ 31 := by
  have h₁ : sizes l + 1024 < 2 ^ 31 := h.total
  have h₂ := sizes_nonneg (l := post) fun t ht => h.regular t (by simp [hl, ht])
  rw [hl, sizes_append, sizes_cons] at h₁
  omega

end Section

open Section

structure Carries (file written : List UInt8) (g : Segment) (s : Section) : Prop where
  regular : s.Regular
  ne : s.s_size ≠ 0
  inFile : s.InFile file
  bytes : ∃ before after, written = before ++ s.data file ++ after ∧
    g = ⟨s.s_paddr, 40 + before.length, s.s_size⟩

def Names (file written : List UInt8) (g : Segment) : Option Section → Prop
  | none => g.size = 0
  | some s => Carries file written g s

theorem Names.append {o : Option Section} {more : List UInt8} (h : Names file written g o) :
    Names file (written ++ more) g o := by
  cases o with
  | none => exact h
  | some s =>
    obtain ⟨hs, hne, hf, before, after, hw, hg⟩ := h
    exact ⟨hs, hne, hf, before, after ++ more, by simp [hw], hg⟩

theorem carries_concat (hs : s.Regular) (hne : s.s_size ≠ 0) (hf : s.InFile file) :
    Carries file (written ++ s.data file) ⟨s.s_paddr, 40 + written.length, s.s_size⟩ s :=
  ⟨hs, hne, hf, written, [], by simp, rfl⟩

def IsInts (g : Segment) : Prop := IsInt g.virtualAddr ∧ IsInt g.inFileAddr ∧ IsInt g.size

structure NoffHeader.IsInts (h : NoffHeader) : Prop where
  code : Bin.IsInts h.code
  initData : Bin.IsInts h.initData
  uninitData : Bin.IsInts h.uninitData

structure Converted (file : List UInt8) (l : List Section) (c : Conversion) : Prop where
  magic : c.noffH.noffMagic = NOFFMAGIC
  bytes : c.fdIn.bytes = file
  inNoffFile : c.inNoffFile = 40 + c.written.length
  length : (c.written.length : ℤ) ≤ sizes l
  code : Names file c.written c.noffH.code (last .text l)
  initData : Names file c.written c.noffH.initData (last .data l)
  uninitSize : c.noffH.uninitData.size = bssSize l
  uninitAddr : ∀ b, firstBss l = some b → c.noffH.uninitData.virtualAddr = b.s_paddr
  ints : c.noffH.IsInts

theorem converted_start {fdIn : Input} (h : fdIn.bytes = file) :
    Converted file [] (.start stack fdIn) where
  magic := rfl
  bytes := h
  inNoffFile := rfl
  length := le_rfl
  code := rfl
  initData := rfl
  uninitSize := rfl
  uninitAddr _ hb := by simp [firstBss] at hb
  ints :=
    have hzero : IsInt 0 := by decide
    ⟨⟨isInt_int, isInt_int, hzero⟩, ⟨isInt_int, isInt_int, hzero⟩, ⟨isInt_int, isInt_int, hzero⟩⟩

section Turn

variable {post : List Section} (hl : Sane l) (hi : ∀ s ∈ l, IsInt s.s_paddr)
  (hsplit : l = pre ++ s :: post) (h : Converted file pre c)

include hl hsplit h

include hi in
theorem Converted.isInt_segment : IsInts (c.segment s) := by
  have hmem : s ∈ l := by simp [hsplit]
  have htotal := hl.total_le hsplit
  have hlen := h.length
  have hpos := (hl.regular s hmem).1
  refine ⟨hi s hmem, ?_, ?_⟩
  · simp only [Conversion.segment, h.inNoffFile]
    exact ⟨by omega, by omega⟩
  · have hpre := sizes_nonneg (l := pre) fun t ht => hl.regular t (by simp [hsplit, ht])
    exact ⟨by simp only [Conversion.segment]; omega, by simp only [Conversion.segment]; omega⟩

theorem Converted.counters (hf : s.InFile file) :
    addInt c.inNoffFile s.s_size = 40 + ((c.written ++ s.data file).length : ℤ) ∧
      ((c.written ++ s.data file).length : ℤ) ≤ sizes (pre ++ [s]) := by
  have hs := hl.regular s (by simp [hsplit])
  have htotal := hl.total_le hsplit
  have hlen := h.length
  have hpos := hs.1
  have hdata := length_data hs hf
  have hint : IsInt (c.inNoffFile + s.s_size) := by
    rw [h.inNoffFile]
    exact ⟨by omega, by omega⟩
  rw [addInt_eq hint, h.inNoffFile, List.length_append, hdata, sizes_append, sizes_cons, sizes_nil]
  exact ⟨by omega, by omega⟩

include hi in
theorem Converted.grown (hk : s.IsOf .bss) :
    (c.grown s).size = Section.bssSize (pre ++ [s]) ∧
      (∀ b, firstBss (pre ++ [s]) = some b → (c.grown s).virtualAddr = b.s_paddr) ∧
      IsInts (c.grown s) := by
  have hmem : s ∈ l := by simp [hsplit]
  have hpre : ∀ t ∈ pre, t.Regular := fun t ht => hl.regular t (by simp [hsplit, ht])
  have hs := hl.regular s hmem
  have htotal := hl.total_le hsplit
  obtain ⟨hbss₀, hbss₁⟩ := bssSize_le hpre
  have hu := h.uninitSize
  have hpos := hs.1
  have hint : IsInt (c.noffH.uninitData.size + s.s_size) := ⟨by omega, by omega⟩
  have hzero := bssSize_eq_zero_iff hpre
  rw [bssSize_concat, if_pos hk, firstBss_concat, if_pos hk]
  unfold Conversion.grown
  dsimp only
  split
  case isTrue hne =>
    refine ⟨by rw [addInt_eq hint, hu], ?_, ⟨h.ints.uninitData.1, h.ints.uninitData.2.1,
      isInt_addInt⟩⟩
    cases hb : firstBss pre with
    | none => exact absurd (hu.trans (hzero.mpr hb)) hne
    | some b =>
      rintro b' ⟨⟩
      exact h.uninitAddr b hb
  case isFalse hne =>
    have hnone : firstBss pre = none := hzero.mp (hu.symm.trans (not_not.mp hne))
    refine ⟨by rw [hzero.mpr hnone, Int.zero_add], ?_, ⟨hi s hmem, h.ints.uninitData.2.1,
      ⟨by dsimp only; omega, by dsimp only; omega⟩⟩⟩
    rw [hnone]
    rintro b ⟨⟩
    rfl

include hi in
theorem Converted.turn (ht : Conversion.Turn c s d) : Converted file (pre ++ [s]) d := by
  have hs := hl.regular s (by simp [hsplit])
  have hseg := h.isInt_segment hl hi hsplit
  have hsegment : c.segment s = ⟨s.s_paddr, 40 + c.written.length, s.s_size⟩ := by
    rw [Conversion.segment, h.inNoffFile]
  have hbss := fun hk : ¬ s.IsOf .bss => show bssSize (pre ++ [s]) = bssSize pre by
    rw [bssSize_concat, if_neg hk, Int.add_zero]
  have hfirst := fun hk : ¬ s.IsOf .bss => show firstBss (pre ++ [s]) = firstBss pre by
    rw [firstBss_concat, if_neg hk, Option.or_none]
  cases ht with
  | empty hz =>
    have hk : ∀ k, ¬ s.IsOf k := fun k hk => hk.1 hz
    refine ⟨h.magic, h.bytes, h.inNoffFile, ?_, ?_, ?_, ?_, ?_, h.ints⟩
    · simpa [hz] using h.length
    · rw [last_concat, if_neg (hk _)]
      exact h.code
    · rw [last_concat, if_neg (hk _)]
      exact h.initData
    · rw [hbss (hk _)]
      exact h.uninitSize
    · rw [hfirst (hk _)]
      exact h.uninitAddr
  | text hk hf =>
    rw [h.bytes] at hf
    obtain ⟨hcount, hlen⟩ := h.counters hl hsplit hf
    have hw : (s.data c.fdIn.bytes) = s.data file := by rw [h.bytes]
    refine ⟨h.magic, h.bytes, ?_, ?_, ?_, ?_, ?_, ?_, ⟨hseg, h.ints.initData, h.ints.uninitData⟩⟩
    · simpa only [Conversion.copied, hw] using hcount
    · simpa only [Conversion.copied, hw] using hlen
    · rw [last_concat, if_pos hk]
      simp only [Conversion.copied, hw, hsegment]
      exact carries_concat hs hk.1 hf
    · rw [last_concat, if_neg (hk.ne (by decide))]
      exact h.initData.append
    · rw [hbss (hk.ne (by decide))]
      exact h.uninitSize
    · rw [hfirst (hk.ne (by decide))]
      exact h.uninitAddr
  | data hk _ hf =>
    rw [h.bytes] at hf
    obtain ⟨hcount, hlen⟩ := h.counters hl hsplit hf
    have hw : (s.data c.fdIn.bytes) = s.data file := by rw [h.bytes]
    refine ⟨h.magic, h.bytes, ?_, ?_, ?_, ?_, ?_, ?_, ⟨h.ints.code, hseg, h.ints.uninitData⟩⟩
    · simpa only [Conversion.copied, hw] using hcount
    · simpa only [Conversion.copied, hw] using hlen
    · rw [last_concat, if_neg (hk.ne (by decide))]
      exact h.code.append
    · rw [last_concat, if_pos hk]
      simp only [Conversion.copied, hw, hsegment]
      exact carries_concat hs hk.1 hf
    · rw [hbss (hk.ne (by decide))]
      exact h.uninitSize
    · rw [hfirst (hk.ne (by decide))]
      exact h.uninitAddr
  | bss hk hp =>
    obtain ⟨hsize, haddr, hints⟩ := h.grown hl hi hsplit hk
    refine ⟨h.magic, h.bytes, h.inNoffFile, ?_, ?_, ?_, hsize, haddr,
      ⟨h.ints.code, h.ints.initData, hints⟩⟩
    · have h₁ := h.length
      have h₂ := hs.1
      rw [sizes_append, sizes_cons, sizes_nil]
      dsimp only
      omega
    · rw [last_concat, if_neg (hk.ne (by decide))]
      exact h.code
    · rw [last_concat, if_neg (hk.ne (by decide))]
      exact h.initData

end Turn

/-! ## The headers -/

def numSections (file : List UInt8) : ℕ := short fun i => file.getD (2 + i) 0

def sectionsOf (file : List UInt8) : List Section :=
  (List.range (numSections file)).map fun k => .ofBytes fun i => file.getD (76 + 40 * k + i) 0

/-- The file has the headers of a COFF file. -/
def WellHeaded (file : List UInt8) : Prop :=
  (short fun i => file.getD i 0) = MIPSELMAGIC ∧ (short fun i => file.getD (20 + i) 0) = OMAGIC ∧
    76 + 40 * numSections file ≤ file.length

theorem isInt_paddr : ∀ s ∈ sectionsOf file, IsInt s.s_paddr := by
  intro s hs
  obtain ⟨k, -, rfl⟩ := List.mem_map.mp hs
  exact isInt_int

theorem getD_take_drop {m n i : ℕ} (hi : i < n) :
    ((file.drop m).take n).getD i 0 = file.getD (m + i) 0 := by
  simp [List.getD, hi]

theorem ofBytes_congr {f g : ℕ → UInt8} (h : ∀ i < 40, f i = g i) :
    Section.ofBytes f = Section.ofBytes g := by
  have hint : ∀ k ≤ 36, (int fun i => f (k + i)) = int fun i => g (k + i) := fun k hk =>
    int_congr fun i hi => h (k + i) (by omega)
  have hname : (List.range 8).map f = (List.range 8).map g :=
    List.map_congr_left fun i hi => h i (by rw [List.mem_range] at hi; omega)
  simp only [Section.ofBytes, hname, hint 8 (by decide), hint 16 (by decide), hint 20 (by decide)]

theorem readSections_eq_ok {r : List Section × Input} : readSections file = .ok r ↔
    WellHeaded file ∧ r = (sectionsOf file, ⟨file, 76 + 40 * numSections file⟩) := by
  have hmagic : (short fun i => ((file.drop 0).take 20).getD i 0) = short fun i => file.getD i 0 :=
    short_congr fun i hi => (getD_take_drop (by omega)).trans (by rw [Nat.zero_add])
  have hnscns : (short fun i => ((file.drop 0).take 20).getD (2 + i) 0) = numSections file :=
    short_congr fun i hi => (getD_take_drop (by omega)).trans (by rw [Nat.zero_add])
  have homagic : (short fun i => ((file.drop 20).take 56).getD i 0) =
      short fun i => file.getD (20 + i) 0 :=
    short_congr fun i hi => getD_take_drop (by omega)
  have hsections : ((List.range (numSections file)).map fun k => Section.ofBytes fun i =>
      ((file.drop 76).take (40 * numSections file)).getD (40 * k + i) 0) = sectionsOf file := by
    refine List.map_congr_left fun k hk => ofBytes_congr fun i hi => ?_
    rw [List.mem_range] at hk
    rw [getD_take_drop (by omega), Nat.add_assoc]
  have hsize : ((numSections file : ℤ) * 40).toNat = 40 * numSections file := by omega
  have h₂₀ : (20 : ℤ).toNat = 20 := rfl
  have h₅₆ : (56 : ℤ).toNat = 56 := rfl
  unfold readSections WellHeaded
  rw [Input.read_eq (by decide)]
  simp only [h₂₀, Nat.sub_zero]
  by_cases hlen : 20 ≤ file.length
  case neg => exact iff_of_false (by simp [hlen]) fun h => hlen (by omega)
  rw [if_pos hlen, ok_bind]
  dsimp only
  rw [hmagic, hnscns]
  by_cases hm : (short fun i => file.getD i 0) = MIPSELMAGIC
  case neg =>
    rw [if_pos hm]
    exact iff_of_false (by simp) fun h => hm h.1.1
  rw [if_neg (not_not.mpr hm), Input.read_eq (by decide)]
  simp only [h₅₆, Nat.zero_add]
  by_cases hlen' : 56 ≤ file.length - 20
  case neg => exact iff_of_false (by simp [hlen']) fun h => hlen' (by omega)
  rw [if_pos hlen', ok_bind]
  dsimp only
  rw [homagic]
  by_cases ho : (short fun i => file.getD (20 + i) 0) = OMAGIC
  case neg =>
    rw [if_pos ho]
    exact iff_of_false (by simp) fun h => ho h.1.2.1
  rw [if_neg (not_not.mpr ho), Input.read_eq (by omega)]
  simp only [hsize]
  by_cases hlen'' : 40 * numSections file ≤ file.length - (20 + 56)
  case neg => exact iff_of_false (by simp [hlen'']) fun h => hlen'' (by omega)
  rw [if_pos hlen'', ok_bind]
  dsimp only
  rw [hsections]
  constructor
  · intro h
    exact ⟨⟨hm, ho, by omega⟩, (Except.ok.inj h).symm⟩
  · rintro ⟨-, rfl⟩
    rfl

/-! ## The NOFF file -/

section NoffFile

variable {h : NoffHeader} {x : NoffFile} {o : Option Section} {f : ℕ → UInt8}

theorem NoffHeader.length_bytes : h.bytes.length = 40 := by simp [NoffHeader.bytes]

theorem NoffHeader.ofBytes_bytes (hm : IsInt h.noffMagic) (hi : h.IsInts) :
    NoffHeader.ofBytes (fun i => (h.bytes ++ written).getD i 0) = h := by
  obtain ⟨⟨c₁, c₂, c₃⟩, ⟨i₁, i₂, i₃⟩, u₁, u₂, u₃⟩ := hi
  have hread : ∀ k < 10, IsInt (h.ints k) →
      (int fun i => (h.bytes ++ written).getD (4 * k + i) 0) = h.ints k := by
    intro k hk hint
    rw [← int_ofInts hint]
    refine int_congr fun i hi => ?_
    rw [List.getD_append _ _ _ _ (by rw [length_bytes]; omega)]
    simp [NoffHeader.bytes, List.getD, show 4 * k + i < 40 by omega]
  unfold NoffHeader.ofBytes NoffHeader.ofInts
  beta_reduce
  rw [hread 0 (by decide) hm, hread 1 (by decide) c₁, hread 2 (by decide) c₂,
    hread 3 (by decide) c₃, hread 4 (by decide) i₁, hread 5 (by decide) i₂,
    hread 6 (by decide) i₃, hread 7 (by decide) u₁, hread 8 (by decide) u₂,
    hread 9 (by decide) u₃]
  rfl

theorem Names.loadSegment (hn : Names file written g o)
    (hx : x.content = fun i => (h.bytes ++ written).getD i 0) :
    x.loadSegment f g = place file f o := by
  cases o with
  | none => exact if_neg (by simp [show g.size = 0 from hn])
  | some s =>
    obtain ⟨hs, hne, hf, before, after, hw, rfl⟩ := hn
    have hpos : 0 < s.s_size := lt_of_le_of_ne hs.1 hne.symm
    have hlen := length_data hs hf
    unfold NoffFile.loadSegment place
    rw [if_pos hpos]
    refine blit_source_congr fun i hi => ?_
    have haddr : (40 + (before.length : ℤ)).toNat + i = h.bytes.length + (before.length + i) := by
      rw [NoffHeader.length_bytes]
      omega
    dsimp only at hi ⊢
    rw [hx, haddr]
    beta_reduce
    rw [List.getD_append_right _ _ _ _ (Nat.le_add_right ..), Nat.add_sub_cancel_left, hw,
      List.append_assoc, List.getD_append_right _ _ _ _ (Nat.le_add_right ..),
      Nat.add_sub_cancel_left, List.getD_append _ _ _ _ (by omega), getD_data hi]

end NoffFile

theorem coff2noff_eq_ok {out : List UInt8} : coff2noff file stack = .ok out ↔
    WellHeaded file ∧ ∃ c : Conversion, (sectionsOf file).foldlM Conversion.step
        (.start stack ⟨file, 76 + 40 * numSections file⟩) = .ok c ∧
      out = c.noffH.bytes ++ c.written := by
  unfold coff2noff
  simp only [bind_eq_ok, readSections_eq_ok]
  constructor
  · rintro ⟨_, ⟨hh, rfl⟩, c, hc, h⟩
    exact ⟨hh, c, hc, (Except.ok.inj h).symm⟩
  · rintro ⟨hh, c, hc, rfl⟩
    exact ⟨_, ⟨hh, rfl⟩, c, hc, rfl⟩

theorem Names.inFile {o : Option Section} (h : Names file written g o) :
    0 < g.size → 40 ≤ g.inFileAddr ∧ g.inFileAddr + g.size ≤ (40 + written.length : ℕ) := by
  cases o with
  | none =>
    have hz : g.size = 0 := h
    omega
  | some s =>
    obtain ⟨hs, -, hf, before, after, rfl, rfl⟩ := h
    have hlen := length_data hs hf
    have hs₀ := hs.1
    simp only [List.length_append]
    omega

def scnhdr (name : String) (paddr size scnptr : ℤ) : List UInt8 :=
  let chars := name.toList.map fun c => UInt8.ofNat c.toNat
  let ints := fun
    | 0 | 1 => paddr
    | 2 => size
    | 3 => scnptr
    | _ => 0
  chars ++ List.replicate (8 - chars.length) 0 ++ (List.range 32).map (Words.ofInts ints)

def sample : List UInt8 :=
  [0x62, 0x01, 5, 0] ++ List.replicate 16 0 ++ [0x07, 0x01] ++ List.replicate 54 0 ++
    scnhdr ".text" 0 8 276 ++ scnhdr ".rdata" 8 0 0 ++ scnhdr ".data" 8 4 284 ++
    scnhdr ".sbss" 12 0 0 ++ scnhdr ".bss" 12 16 0 ++ [1, 2, 3, 4, 5, 6, 7, 8] ++ [9, 10, 11, 12]

instance : Decidable s.Regular := inferInstanceAs (Decidable (_ ∧ _))

theorem sane_sample : Sane (sectionsOf sample) :=
  ⟨by decide +kernel, by decide +kernel⟩

def Section.Acceptable (file : List UInt8) (pre : List Section) (s : Section) : Prop :=
  s.s_size ≠ 0 →
    match s.kind with
    | some .text => s.InFile file
    | some .data => last .data pre = none ∧ s.InFile file
    | some .bss => ∀ b, firstBss pre = some b → s.s_paddr ≠ addInt b.s_paddr (bssSize pre)
    | none => False

theorem Names.size_eq_zero_iff {o : Option Section} (h : Names file written g o) :
    g.size = 0 ↔ o = none := by
  cases o with
  | none => exact iff_of_true h rfl
  | some s =>
    obtain ⟨-, hne, -, before, after, -, rfl⟩ := h
    exact iff_of_false hne (by simp)

theorem Converted.exists_turn_iff (hc : Converted file pre c) (hpre : ∀ t ∈ pre, t.Regular) :
    (∃ d, Conversion.Turn c s d) ↔ s.Acceptable file pre := by
  have hzero := bssSize_eq_zero_iff hpre
  unfold Acceptable
  constructor
  · rintro ⟨d, ht⟩ hne
    cases ht with
    | empty hz => exact absurd hz hne
    | text hk hf =>
      rw [hk.2]
      exact hc.bytes ▸ hf
    | data hk hi hf =>
      rw [hk.2]
      exact ⟨hc.initData.size_eq_zero_iff.mp hi, hc.bytes ▸ hf⟩
    | bss hk hp =>
      rw [hk.2]
      intro b hb
      rw [← hc.uninitAddr b hb, ← hc.uninitSize]
      refine hp fun h₀ => ?_
      rw [hc.uninitSize, hzero, hb] at h₀
      cases h₀
  · intro h
    by_cases hne : s.s_size = 0
    · exact ⟨c, .empty hne⟩
    · have := h hne
      cases hk : s.kind with
      | none =>
        rw [hk] at this
        exact this.elim
      | some k =>
        rw [hk] at this
        cases k with
        | text => exact ⟨_, .text ⟨hne, hk⟩ (hc.bytes ▸ this)⟩
        | data =>
          exact ⟨_, .data ⟨hne, hk⟩ (hc.initData.size_eq_zero_iff.mpr this.1) (hc.bytes ▸ this.2)⟩
        | bss =>
          refine ⟨_, .bss ⟨hne, hk⟩ fun hu => ?_⟩
          cases hb : firstBss pre with
          | none => exact absurd (hc.uninitSize.trans (hzero.mpr hb)) hu
          | some b =>
            rw [hc.uninitAddr b hb, hc.uninitSize]
            exact this b hb

theorem exists_foldlM_step_iff {fdIn : Input} (hfd : fdIn.bytes = file) (hl : Sane l)
    (hi : ∀ s ∈ l, IsInt s.s_paddr) :
    (∃ c, l.foldlM Conversion.step (.start stack fdIn) = .ok c) ↔
      ∀ pre s post, l = pre ++ s :: post → s.Acceptable file pre := by
  refine exists_foldlM_iff (P := Converted file) (converted_start hfd) ?_ ?_
  · intro pre s post c d hsplit hc hd
    exact hc.turn hl hi hsplit
      ((Conversion.step_eq_ok (hl.regular s (by simp [hsplit]))).mp hd)
  · intro pre s post c hsplit hc
    simp only [Conversion.step_eq_ok (hl.regular s (by simp [hsplit]))]
    exact hc.exists_turn_iff fun t ht => hl.regular t (by simp [hsplit, ht])

theorem exists_coff2noff_iff (hl : Sane (sectionsOf file)) :
    (∃ out, coff2noff file stack = .ok out) ↔ WellHeaded file ∧
      ∀ pre s post, sectionsOf file = pre ++ s :: post → s.Acceptable file pre := by
  have hloop : (∃ c, (sectionsOf file).foldlM Conversion.step
      (.start stack ⟨file, 76 + 40 * numSections file⟩) = .ok c) ↔ _ :=
    exists_foldlM_step_iff rfl hl isInt_paddr
  rw [← hloop]
  simp only [coff2noff_eq_ok]
  constructor
  · rintro ⟨_, hh, c, hc, rfl⟩
    exact ⟨hh, c, hc⟩
  · rintro ⟨hh, c, hc⟩
    exact ⟨_, hh, c, hc, rfl⟩

end Nachos.Bin
