import Nachos.Userprog.FileTransfer

/-! # Strings and buffers of system calls

`getString` reads from the frame of the first byte on, as if the frames of a
string followed one another. The console part of `Write` cuts a range at the
ends of pages, as the part for files does, but reads the same page again in
each turn.
-/

namespace Nachos.Userprog

open Function Command VM

/-! ## Ranges in consecutive frames -/

namespace AddrSpace

variable {space : AddrSpace} {m : ℤ → UInt8} {p : ℤ} {v size len : ℕ}

/-- Each frame of a range is followed by that of its next page. -/
def PagesFollow (space : AddrSpace) (vAddr size : ℕ) : Prop :=
  ∀ q, vAddr < (q + 1) * PageSize → (q + 1) * PageSize < vAddr + size →
    ∀ f, space.frames[q]? = some f → space.frames[q + 1]? = some (f + 1)

theorem PagesFollow.translate (h : space.PagesFollow v size) (hp : space.translate v = some p)
    {i : ℕ} (hi : i < size) : space.translate (v + i : ℕ) = some (p + i) := by
  induction i with
  | zero => simpa using hp
  | succ i ih =>
    obtain ⟨f, hf, ha⟩ := translate_nat.mp (ih (by omega))
    rcases Nat.lt_or_ge ((v + i) % 128) 127 with hlt | hge
    · refine translate_nat.mpr ⟨f, ?_, by omega⟩
      rwa [show (v + (i + 1)) / 128 = (v + i) / 128 by omega]
    · -- the address is the first one of a page
      unfold PagesFollow PageSize at h
      refine translate_nat.mpr ⟨f + 1, ?_, by omega⟩
      rw [show (v + (i + 1)) / 128 = (v + i) / 128 + 1 by omega]
      exact h _ (by omega) (by omega) f hf

theorem pagesFollow_of_translate
    (h : ∀ i < size, space.translate (v + i : ℕ) = some (p + i)) : space.PagesFollow v size := by
  unfold PagesFollow PageSize
  intro q hq hq' f hf
  obtain ⟨g, hg, hlast⟩ := translate_nat.mp (h ((q + 1) * 128 - v - 1) (by omega))
  obtain ⟨f', hf', hfirst⟩ := translate_nat.mp (h ((q + 1) * 128 - v) (by omega))
  rw [show (v + ((q + 1) * 128 - v - 1)) / 128 = q by omega, hf] at hg
  rw [show (v + ((q + 1) * 128 - v)) / 128 = q + 1 by omega] at hf'
  obtain rfl := Option.some.inj hg
  rw [hf', show f' = f + 1 by omega]

/-- The virtual memory holds a string with a number of bytes before its end. -/
def HoldsString (space : AddrSpace) (m : ℤ → UInt8) (vAddr len : ℕ) : Prop :=
  (∀ i < len, ∃ a, space.translate (vAddr + i : ℕ) = some a ∧ m a ≠ 0) ∧
    ∃ a, space.translate (vAddr + len : ℕ) = some a ∧ m a = 0

end AddrSpace

namespace Sys

open AddrSpace

variable {φ : Type} {s s' : Sys φ} {space : AddrSpace} {m : ℤ → UInt8} {p vAddr size : ℤ}
  {v len n : ℕ} {content : φ → List UInt8} {input : ℕ → UInt8} {r : List UInt8}

/-! ## `getString` -/

theorem run_getString (hspace : s.memory.spaces s.current = some space)
    (hp : space.translate vAddr = some p) :
    (getString vAddr).run s = some (r, s) ↔
      p + r.length < MemorySize ∧ s.memory.mainMemory (p + r.length) = 0 ∧
      (∀ i < r.length, s.memory.mainMemory (p + i) ≠ 0) ∧
      r = (List.range r.length).map fun i : ℕ => s.memory.mainMemory (p + i) := by
  have hrun : (getString vAddr).run s =
      ((List.range (MemorySize - p).toNat).find? fun i : ℕ =>
        s.memory.mainMemory (p + i) == 0).map fun size =>
          ((List.range size).map fun i : ℕ => s.memory.mainMemory (p + i), s) := by
    simp only [getString, StateT.run_bind, run_translate hspace, hp, Option.map_some,
      Option.bind_eq_bind, Option.bind_some, StateT.run_get, Option.pure_def, run_require]
    exact (Option.bind_map ..).trans Option.map_eq_bind.symm
  rw [hrun, Option.map_eq_some_iff]
  constructor
  · rintro ⟨size, hfind, he⟩
    obtain ⟨rfl, -⟩ := Prod.mk.inj he
    obtain ⟨hzero, hmem, hbefore⟩ := List.find?_range_eq_some.mp hfind
    have hlt := List.mem_range.mp hmem
    rw [List.length_map, List.length_range]
    exact ⟨by omega, by simpa using hzero, fun i hi => by simpa using hbefore i hi, rfl⟩
  · rintro ⟨hlt, hzero, hbefore, hr⟩
    refine ⟨r.length, List.find?_range_eq_some.mpr ⟨by simpa using hzero,
      List.mem_range.mpr (by omega), fun i hi => by simpa using hbefore i hi⟩, ?_⟩
    rw [← hr]

/-- A process with two pages in some frames. -/
def twoPages (f g : ℕ) : Sys Unit :=
  { oneProcess with memory := { oneProcess.memory with
      bitmap := ((⟨NumPhysPages, fun _ => 0⟩ : BitMap).mark f).mark g
      spaces := fun id => if id = 0 then some ⟨[Memory.newEntry 0 f, Memory.newEntry 1 g]⟩
        else none } }

/-- `getString` returns the string that the virtual memory holds, whatever string of this length
this is and whatever else is in the memory. -/
def ReturnsString (s : Sys φ) (space : AddrSpace) (vAddr len : ℕ) : Prop :=
  ∀ m, space.HoldsString m vAddr len →
    (getString vAddr).run (s.withData m s.diskBuffer) =
      some (space.virtualBytes m vAddr len, s.withData m s.diskBuffer)

section Strings

variable (hspace : s.memory.spaces s.current = some space) (hnd : space.frames.Nodup)
  (hp : space.translate v = some p)

include hspace hp

theorem returnsString_of_translate
    (h : ∀ i < len + 1, space.translate (v + i : ℕ) = some (p + i)) (hmem : p + len < MemorySize) :
    s.ReturnsString space v len := by
  rintro m ⟨hbytes, b, hb, hzero⟩
  rw [h len (by omega)] at hb
  obtain rfl := Option.some.inj hb
  refine (run_getString (s := s.withData m s.diskBuffer) hspace hp).mpr ?_
  rw [length_virtualBytes]
  refine ⟨hmem, hzero, fun i hi => ?_, List.map_congr_left fun i hi => ?_⟩
  · obtain ⟨a, ha, hne⟩ := hbytes i hi
    rw [h i (by omega)] at ha
    obtain rfl := Option.some.inj ha
    exact hne
  · have hi := List.mem_range.mp hi
    rw [← Nat.cast_add, h i (by omega)]
    rfl

include hnd

/-- A string whose byte at one offset is found nowhere else tells where `getString` reads it. -/
theorem translate_of_returnsString (hin : v + len < space.frames.length * 128)
    (h : s.ReturnsString space v len) {i : ℕ} (hi : i < len + 1) :
    space.translate (v + i : ℕ) = some (p + i) := by
  have hall : ∀ j < len + 1, ∃ a, space.translate (v + j : ℕ) = some a := fun j hj => by
    obtain ⟨f, -, hf⟩ := exists_translate space (v := (v + j : ℕ)) (by omega) (by omega)
    exact ⟨_, hf⟩
  obtain ⟨a, ha⟩ := hall i hi
  obtain ⟨e, he⟩ := hall len (by omega)
  let m : ℤ → UInt8 := fun b => if b = e then 0 else if b = a then 2 else 1
  have hne : ∀ j < len, ∀ b, space.translate (v + j : ℕ) = some b → b ≠ e := by
    rintro j hj b hb rfl
    have := translate_inj hnd hb he
    omega
  have hstring : space.HoldsString m v len := by
    refine ⟨fun j hj => ?_, e, he, if_pos rfl⟩
    obtain ⟨b, hb⟩ := hall j (by omega)
    refine ⟨b, hb, ?_⟩
    simp only [m, if_neg (hne j hj b hb)]
    split <;> decide
  obtain ⟨-, hzero, -, hr⟩ := (run_getString (s := s.withData m s.diskBuffer) hspace hp).mp
    (h m hstring)
  rw [length_virtualBytes] at hzero hr
  rw [ha]
  congr
  rcases Nat.lt_or_ge i len with hlt | hge
  · have hbyte : (space.virtualBytes m v len).getD i 0 = m (p + i) := by
      rw [hr, List.getD_eq_getElem _ _ (by simpa using hlt), List.getElem_map, List.getElem_range]
      rfl
    rw [getD_virtualBytes hlt (by exact_mod_cast ha)] at hbyte
    simp only [m, if_neg (hne i hlt a ha), if_pos] at hbyte
    by_contra hpa
    split at hbyte
    · exact absurd hbyte (by decide)
    · rw [if_neg (Ne.symm hpa)] at hbyte
      exact absurd hbyte (by decide)
  · obtain rfl : i = len := by omega
    obtain rfl : a = e := Option.some.inj (ha.symm.trans he)
    by_contra hpa
    have hzero : m (p + i) = 0 := hzero
    simp only [m, if_neg (Ne.symm hpa)] at hzero
    exact absurd hzero (by decide)

end Strings

/-- `getString` returns every string of a length at an address exactly if each frame of the range,
with the zero at its end, is followed by that of the next page. -/
theorem returnsString_iff {s : Sys φ} {space : AddrSpace}
    (hspace : s.memory.spaces s.current = some space) (hnd : space.frames.Nodup)
    (hframes : ∀ f ∈ space.frames, f < NumPhysPages) (vAddr len : ℕ)
    (hin : vAddr + len < space.frames.length * PageSize) :
    s.ReturnsString space vAddr len ↔ space.PagesFollow vAddr (len + 1) := by
  have hP : (PageSize : ℕ) = 128 := rfl
  rw [hP] at hin
  obtain ⟨f, -, hp⟩ := exists_translate space (v := (vAddr : ℤ)) (by omega) (by omega)
  constructor
  · intro h
    exact pagesFollow_of_translate fun i hi => translate_of_returnsString hspace hnd hp hin h hi
  · intro h
    obtain ⟨g, hg, hlast⟩ := exists_translate space (v := (vAddr + len : ℕ)) (by omega) (by omega)
    have hmem : (f : ℤ) * 128 + (vAddr : ℤ) % 128 + len < MemorySize := by
      have hlt : g < 32 := hframes g hg
      have hM : (MemorySize : ℤ) = 4096 := rfl
      have := Option.some.inj (hlast.symm.trans (h.translate hp (Nat.lt_succ_self len)))
      omega
    exact returnsString_of_translate hspace hp (fun i hi => h.translate hp hi) hmem

/-- A string across the end of a page, in frames that follow one another. -/
theorem returnsString_iff_two_pages :
    (twoPages 5 6).ReturnsString ⟨[Memory.newEntry 0 5, Memory.newEntry 1 6]⟩ 126 3 := by
  refine (returnsString_iff rfl (by decide) (by decide) 126 3 (by decide)).mpr ?_
  unfold AddrSpace.PagesFollow PageSize
  intro q hq hq' f hf
  obtain rfl : q = 0 := by omega
  obtain rfl : 5 = f := Option.some.inj hf
  rfl

/-- In frames 5 and 0, the string `abc` is read as `ab`, since the byte behind frame 5 is zero. -/
theorem exists_not_returnsString : ∃ m : ℤ → UInt8,
    AddrSpace.HoldsString ⟨[Memory.newEntry 0 5, Memory.newEntry 1 0]⟩ m 126 3 ∧
    AddrSpace.virtualBytes ⟨[Memory.newEntry 0 5, Memory.newEntry 1 0]⟩ m 126 3 = [97, 98, 99] ∧
    (getString 126).run ((twoPages 5 0).withData m fun _ => 0) =
      some ([97, 98], (twoPages 5 0).withData m fun _ => 0) := by
  refine ⟨fun a => if a = 766 then 97 else if a = 767 then 98 else if a = 0 then 99 else 0,
    ⟨?_, 1, by decide, by decide⟩, by decide, ?_⟩
  · intro i hi
    obtain rfl | rfl | rfl : i = 0 ∨ i = 1 ∨ i = 2 := by omega
    · exact ⟨766, by decide, by decide⟩
    · exact ⟨767, by decide, by decide⟩
    · exact ⟨0, by decide, by decide⟩
  · exact (run_getString (p := 766) rfl (by decide)).mpr (by decide)

/-! ## The console -/

theorem mem_getMem {bytes : List UInt8} (hspace : s.memory.spaces s.current = some space)
    (hpage : vAddr.tmod PageSize + size ≤ 128)
    (h : (getMemFromVAddr vAddr size).run s = some (bytes, s')) :
    s' = s ∧ ∀ b ∈ bytes, ∃ (i : ℕ) (a : ℤ), vAddr.tmod PageSize + i < 128 ∧
      space.translate (vAddr + i) = some a ∧ b = s.memory.mainMemory a := by
  unfold getMemFromVAddr at h
  split at h
  · obtain ⟨rfl, rfl⟩ := Prod.mk.inj (Option.some.inj h)
    exact ⟨rfl, fun b hb => absurd hb List.not_mem_nil⟩
  · obtain ⟨p, s₁, hrun, h⟩ := run_bind_eq_some.mp h
    rw [run_translate hspace] at hrun
    obtain ⟨p, htr, he⟩ := Option.map_eq_some_iff.mp hrun
    obtain ⟨rfl, rfl⟩ := Prod.mk.inj he
    obtain ⟨s₂, s₃, hget, h⟩ := run_bind_eq_some.mp h
    obtain ⟨rfl, rfl⟩ := Prod.mk.inj (Option.some.inj hget)
    split at h
    · rename_i hc
      obtain ⟨rfl, rfl⟩ := Prod.mk.inj (Option.some.inj h)
      refine ⟨rfl, fun b hb => ?_⟩
      obtain ⟨i, hi, rfl⟩ := List.mem_map.mp hb
      have hi := List.mem_range.mp hi
      exact ⟨i, p + i, by omega, AddrSpace.translate_add htr (by omega) (by omega), rfl⟩
    · cases h

theorem mem_printLoop (hspace : s.memory.spaces s.current = some space) (turns : ℕ) :
    ∀ (size : ℤ) (buffer : List UInt8), (printLoop vAddr turns size buffer).run s = some (r, s') →
      ∀ b ∈ r, b ∈ buffer ∨ ∃ (i : ℕ) (a : ℤ), vAddr.tmod PageSize + i < 128 ∧
        space.translate (vAddr + i) = some a ∧ b = s.memory.mainMemory a := by
  have hdone : ∀ buffer : List UInt8, (pure buffer : Code φ _).run s = some (r, s') →
      ∀ b ∈ r, b ∈ buffer := by
    intro buffer h b hb
    obtain ⟨rfl, -⟩ := Prod.mk.inj (Option.some.inj h)
    exact hb
  induction turns with
  | zero =>
    intro size buffer h b hb
    rw [printLoop] at h
    split at h
    · cases h
    · exact .inl (hdone buffer h b hb)
  | succ turns ih =>
    intro size buffer h b hb
    rw [printLoop] at h
    dsimp only at h
    split at h
    · rename_i hsize
      obtain ⟨bytes, s₁, hget, hrest⟩ := run_bind_eq_some.mp h
      obtain ⟨rfl, hbytes⟩ := mem_getMem hspace (copySize_spec vAddr hsize).2.2.2 hget
      rcases ih _ _ hrest b hb with hin | hpage
      · rcases List.mem_append.mp hin with hold | hnew
        · exact .inl hold
        · exact .inr (hbytes b hnew)
      · exact .inr hpage
    · exact .inl (hdone buffer h b hb)

theorem run_printLoop (hspace : s.memory.spaces s.current = some space) (hn : 0 < n)
    (hpage : vAddr.tmod PageSize + n ≤ 128) (hv : 0 ≤ vAddr) (hb : space.Backed vAddr n) :
    (printLoop vAddr n n []).run s =
      some (space.virtualBytes s.memory.mainMemory vAddr n, s) := by
  have hcopy : copySize vAddr n = n := by
    have hP : (PageSize : ℤ) = 128 := rfl
    have hmod := (tdiv_tmod_of_nonneg hv).2
    rw [hP] at hpage hmod
    simp only [copySize, hP]
    split <;> split <;> omega
  obtain ⟨k, hk⟩ : ∃ k, n = k + 1 := ⟨n - 1, by omega⟩
  have hlast : ∀ buffer, (printLoop vAddr k 0 buffer).run s = some (buffer, s) := by
    intro buffer
    cases k <;> simp [printLoop]
  have hturn : (printLoop vAddr (k + 1) n []).run s =
      some (space.virtualBytes s.memory.mainMemory vAddr n, s) := by
    rw [printLoop, if_pos (by omega), hcopy]
    simp only [StateT.run_bind, run_getMem hspace hn hpage hb, Option.bind_eq_bind,
      Option.bind_some, sub_self, hlast, List.nil_append]
  rwa [← hk] at hturn

/-- The console part of `Write` collects the bytes of a range and prints them up to the first zero,
whatever is in the memory. -/
def PrintsRange (s : Sys φ) (space : AddrSpace) (vAddr : ℤ) (n : ℕ) : Prop :=
  ∀ m content input,
    (printLoop vAddr n n []).run (s.withData m s.diskBuffer) =
      some (space.virtualBytes m vAddr n, s.withData m s.diskBuffer) ∧
    (myWrite (quietEnv content input) vAddr n 1).run (s.withData m s.diskBuffer) =
      some ((), { s.withData m s.diskBuffer with
        output := s.output ++ (space.virtualBytes m vAddr n).takeWhile (· ≠ 0) })

theorem le_of_printsRange (hspace : s.memory.spaces s.current = some space)
    (hnd : space.frames.Nodup) (hin : space.Contains vAddr n) (hn : 0 < n)
    (h : s.PrintsRange space vAddr n) : vAddr % PageSize + n ≤ PageSize := by
  have hP : (PageSize : ℤ) = 128 := rfl
  rw [hP]
  by_contra hlong
  obtain ⟨w, rfl⟩ := Int.eq_ofNat_of_zero_le (show 0 ≤ vAddr by simpa using (hin 0 hn).1)
  obtain ⟨k, hk⟩ : ∃ k, w % 128 + k = 128 := ⟨128 - w % 128, by omega⟩
  have hlt := (hin k (by omega)).2
  obtain ⟨f, -, ha⟩ := exists_translate space (v := (w : ℤ) + k) (by omega) (by rwa [hP] at hlt)
  obtain ⟨a, ha⟩ : ∃ a, space.translate ((w : ℤ) + k) = some a := ⟨_, ha⟩
  let m : ℤ → UInt8 := fun b => if b = a then 1 else 0
  have hbyte : (space.virtualBytes m w n).getD k 0 = 1 := by
    rw [getD_virtualBytes (by omega) ha]
    exact if_pos rfl
  have hmem : (1 : UInt8) ∈ space.virtualBytes m w n := by
    rw [← hbyte, List.getD_eq_getElem _ _ (by rw [length_virtualBytes]; omega)]
    exact List.getElem_mem _
  rcases mem_printLoop (s := s.withData m s.diskBuffer) hspace n n []
    (h m (fun _ => []) fun _ => 0).1 1 hmem with hnil | ⟨i, b, hi, hb, hone⟩
  · cases hnil
  · -- the byte would have to be in the first page
    rw [(tdiv_tmod_of_nonneg (Int.natCast_nonneg w)).2] at hi
    have hba : b = a := by
      by_contra hne
      have hone : 1 = m b := hone
      simp only [m, if_neg hne] at hone
      exact absurd hone (by decide)
    rw [hba, ← Nat.cast_add] at hb
    rw [← Nat.cast_add] at ha
    have := translate_inj hnd hb ha
    omega

theorem printsRange_of_le (hspace : s.memory.spaces s.current = some space)
    (hframes : ∀ f ∈ space.frames, f < NumPhysPages) (hin : space.Contains vAddr n) (hn : 0 < n)
    (h : vAddr % PageSize + n ≤ PageSize) : s.PrintsRange space vAddr n := by
  have hv : 0 ≤ vAddr := by simpa using (hin 0 hn).1
  have hpage : vAddr.tmod PageSize + n ≤ 128 := by
    rw [(tdiv_tmod_of_nonneg hv).2]
    exact h
  have hb := backed_of_rangeFits hframes hin.rangeFits
  intro m content input
  refine ⟨run_printLoop (s := s.withData m s.diskBuffer) hspace hn hpage hv hb, ?_⟩
  have hloop := run_printLoop (s := { s.withData m s.diskBuffer with level := .off }) hspace hn
    hpage hv hb
  have hrun : (myWrite (quietEnv content input) vAddr n 1).run (s.withData m s.diskBuffer) =
      ((writeConsole vAddr n).run { s.withData m s.diskBuffer with level := .off }).map
        fun r => ((), { r.2 with level := s.level }) :=
    run_between_setLevel _
  rw [hrun, writeConsole, if_neg (by omega)]
  simp only [StateT.run_bind, Int.toNat_natCast, hloop, Option.bind_eq_bind, Option.bind_some,
    StateT.run_modify, Option.pure_def, Option.map_some]
  rfl

/-- `Write` to the console collects a range of the address space exactly if the range stays in the
page of its first byte. -/
theorem printsRange_iff {s : Sys φ} {space : AddrSpace}
    (hspace : s.memory.spaces s.current = some space) (hnd : space.frames.Nodup)
    (hframes : ∀ f ∈ space.frames, f < NumPhysPages) {vAddr : ℤ} {n : ℕ} (hn : 0 < n)
    (hin : space.Contains vAddr n) :
    s.PrintsRange space vAddr n ↔ vAddr % PageSize + n ≤ PageSize :=
  ⟨le_of_printsRange hspace hnd hin hn, printsRange_of_le hspace hframes hin hn⟩

/-- The last byte of a page and the one before it. -/
theorem printsRange_iff_end :
    (twoPages 5 0).PrintsRange ⟨[Memory.newEntry 0 5, Memory.newEntry 1 0]⟩ 126 2 :=
  (printsRange_iff rfl (by decide) (by decide) (by decide) (by decide)).mpr (by decide)

/-- Four bytes across the end of a page: the first two are collected twice. -/
theorem exists_not_printsRange : ∃ m : ℤ → UInt8,
    AddrSpace.Contains ⟨[Memory.newEntry 0 5, Memory.newEntry 1 0]⟩ 126 4 ∧
    AddrSpace.virtualBytes ⟨[Memory.newEntry 0 5, Memory.newEntry 1 0]⟩ m 126 4 =
      [97, 98, 99, 100] ∧
    ((printLoop 126 4 4 []).run ((twoPages 5 0).withData m fun _ => 0)).map (·.1) =
      some [97, 98, 97, 98] := by
  refine ⟨fun a => if a = 766 then 97 else if a = 767 then 98 else if a = 0 then 99
    else if a = 1 then 100 else 0, by decide, by decide, ?_⟩
  decide +kernel

end Sys

end Nachos.Userprog
