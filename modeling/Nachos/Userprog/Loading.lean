import Nachos.Userprog.Ranges

/-! # Loading without virtual memory

`AddrSpace::ReadFile` translates the first address of each block of a page
size and copies the whole block there. A segment that does not start at a page
puts the end of each block behind the frame of its first page, and so needs
each frame to be followed by that of the next page.
-/

namespace Nachos.Userprog

open VM

theorem copyTo_congr {a : ℤ} {n : ℕ} {f g : ℕ → UInt8} {m : ℤ → UInt8} (h : ∀ i < n, f i = g i) :
    copyTo a n f m = copyTo a n g m := by
  funext b
  unfold copyTo
  split
  · exact h _ (by omega)
  · rfl

namespace AddrSpace

variable {space : AddrSpace} {x : NoffFile} {m : ℤ → UInt8} {p : ℤ} {v size fileAddr turns : ℕ}

/-- The bytes of a range are loaded, whatever is in the file and in the memory, and no other byte
changes. -/
def LoadsRange (space : AddrSpace) (vAddr size fileAddr : ℕ) : Prop :=
  ∀ (x : NoffFile) (m : ℤ → UInt8),
    let m' := space.readFile x size vAddr size fileAddr PageSize m
    (∀ i < size, ∃ a, space.translate (vAddr + i : ℕ) = some a ∧ m' a = x.content (fileAddr + i)) ∧
    ∀ a, (∀ i < size, space.translate (vAddr + i : ℕ) ≠ some a) → m' a = m a

/-- The range starts at a page, or each of its frames is followed by the next one. -/
def FramesFollow (space : AddrSpace) (vAddr size : ℕ) : Prop :=
  vAddr % PageSize = 0 ∨
    ∀ q, vAddr < (q + 1) * PageSize → (q + 1) * PageSize < vAddr + size →
      ∀ f, space.frames[q]? = some f → space.frames[q + 1]? = some (f + 1)

/-! ## The loop -/

theorem readFile_zero {copySize : ℤ} : space.readFile x turns v 0 fileAddr copySize m = m := by
  cases turns with
  | zero => rfl
  | succ turns => rw [readFile, if_neg (lt_irrefl 0)]

theorem readFile_succ (hs : 0 < size) (hp : space.translate v = some p) :
    space.readFile x (turns + 1) v size fileAddr PageSize m =
      space.readFile x turns (v + min size 128 : ℕ) (size - min size 128 : ℕ)
        (fileAddr + min size 128 : ℕ) PageSize
        (copyTo p (min size 128) (fun i => x.content (fileAddr + i)) m) := by
  have hP : (PageSize : ℤ) = 128 := rfl
  have hcontent : (fun i : ℕ => x.content ((fileAddr : ℤ) + i).toNat) =
      fun i => x.content (fileAddr + i) := by
    funext i
    congr 1
  rw [readFile, if_pos (by omega)]
  dsimp only
  rw [hp]
  dsimp only
  rw [hcontent]
  rcases Nat.lt_or_ge size 128 with hlt | hge
  · rw [if_pos (by omega), Nat.min_eq_left (by omega), Nat.sub_self, Int.sub_self,
      Int.toNat_natCast]
    exact readFile_zero.trans readFile_zero.symm
  · rw [if_neg (by omega), Nat.min_eq_right hge, hP]
    congr 1
    omega

theorem FramesFollow.consecutive (h : space.FramesFollow v size) (hp : space.translate v = some p)
    {i : ℕ} (hi : i < min size 128) :
    space.translate (v + i : ℕ) = some (p + i) := by
  obtain ⟨f, hf, rfl⟩ := translate_nat.mp hp
  rcases Nat.lt_or_ge (v % 128 + i) 128 with hlt | hge
  · refine translate_nat.mpr ⟨f, ?_, by omega⟩
    rwa [show (v + i) / 128 = v / 128 by omega]
  · -- the byte is in the next page
    unfold FramesFollow PageSize at h
    refine translate_nat.mpr ⟨f + 1, ?_, by omega⟩
    rw [show (v + i) / 128 = v / 128 + 1 by omega]
    rcases h with h0 | h
    · omega
    · exact h (v / 128) (by omega) (by omega) f hf

theorem FramesFollow.rest (h : space.FramesFollow v size) (hge : 128 ≤ size) :
    space.FramesFollow (v + 128) (size - 128) := by
  unfold FramesFollow PageSize at *
  rcases h with h0 | h
  · exact .inl (by omega)
  · exact .inr fun q hq hq' => h q (by omega) (by omega)

def fileBytes (x : NoffFile) (fileAddr size : ℕ) : List UInt8 :=
  (List.range size).map fun i => x.content (fileAddr + i)

@[simp] theorem length_fileBytes : (fileBytes x fileAddr size).length = size := by simp [fileBytes]

theorem getD_fileBytes {i : ℕ} (hi : i < size) :
    (fileBytes x fileAddr size).getD i 0 = x.content (fileAddr + i) := by
  simp [fileBytes, List.getD, hi]

theorem fileBytes_add {size' : ℕ} : fileBytes x fileAddr (size + size') =
    fileBytes x fileAddr size ++ fileBytes x (fileAddr + size) size' := by
  simp [fileBytes, List.range_add, Nat.add_assoc, Function.comp_def]

theorem written_readFile (x : NoffFile) (fileAddr : ℕ) (m : ℤ → UInt8)
    (h : space.FramesFollow v size)
    (hin : v + size ≤ space.frames.length * 128) (ht : size ≤ turns) :
    space.Written v (fileBytes x fileAddr size) m
      (space.readFile x turns v size fileAddr PageSize m) := by
  induction turns generalizing v size fileAddr m with
  | zero =>
    obtain rfl : size = 0 := by omega
    exact .nil
  | succ turns ih =>
    rcases Nat.eq_zero_or_pos size with rfl | hs
    · rw [Nat.cast_zero, readFile_zero]
      exact .nil
    · obtain ⟨f, -, hp⟩ := exists_translate space (v := v) (by omega) (by omega)
      obtain ⟨p, hp⟩ : ∃ p, space.translate v = some p := ⟨_, hp⟩
      have hblock : space.Written v (fileBytes x fileAddr (min size 128)) m
          (copyTo p (min size 128) (fun i => x.content (fileAddr + i)) m) := by
        have hcopy : space.Written v (fileBytes x fileAddr (min size 128)) m
            (copyTo p _ (fun i => (fileBytes x fileAddr (min size 128)).getD i 0) m) :=
          .copyTo_of_consecutive fun i hi =>
            Int.natCast_add v i ▸ h.consecutive hp (by simpa using hi)
        rw [length_fileBytes] at hcopy
        rwa [copyTo_congr fun i hi => getD_fileBytes hi] at hcopy
      rw [readFile_succ hs hp]
      rcases Nat.lt_or_ge size 128 with hlt | hge
      · rw [Nat.min_eq_left (by omega)] at hblock ⊢
        rw [Nat.sub_self, Nat.cast_zero, readFile_zero]
        exact hblock
      · rw [Nat.min_eq_right hge] at hblock ⊢
        rw [show size = 128 + (size - 128) by omega, fileBytes_add, Nat.add_sub_cancel_left]
        refine hblock.append ?_
        rw [length_fileBytes]
        exact ih _ _ (h.rest hge) (by omega) (by omega)

/-- What the loop leaves at an address is what was there before, or a byte of a block. -/
theorem readFile_cases (x : NoffFile) (fileAddr : ℕ) (m : ℤ → UInt8)
    (hin : v + size ≤ space.frames.length * 128) (ht : size ≤ turns) (a : ℤ) :
    space.readFile x turns v size fileAddr PageSize m a = m a ∨
      ∃ k i : ℕ, i < 128 ∧ 128 * k + i < size ∧ ∃ p, space.translate (v + 128 * k : ℕ) = some p ∧
        a = p + i ∧ space.readFile x turns v size fileAddr PageSize m a =
          x.content (fileAddr + 128 * k + i) := by
  induction turns generalizing v size fileAddr m with
  | zero => exact .inl rfl
  | succ turns ih =>
    rcases Nat.eq_zero_or_pos size with rfl | hs
    · exact .inl (by rw [Nat.cast_zero, readFile_zero])
    · obtain ⟨f, -, hp⟩ := exists_translate space (v := v) (by omega) (by omega)
      obtain ⟨p, hp⟩ : ∃ p, space.translate v = some p := ⟨_, hp⟩
      rw [readFile_succ hs hp]
      have hrest : v + min size 128 + (size - min size 128) ≤ space.frames.length * 128 := by omega
      rcases ih (fileAddr + min size 128)
        (copyTo p (min size 128) (fun i => x.content (fileAddr + i)) m) hrest (by omega) with
        hsame | ⟨k, i, hi, hki, p', hp', ha, hval⟩
      · rw [hsame]
        unfold copyTo
        split
        · refine .inr ⟨0, (a - p).toNat, by omega, by omega, p, by simpa using hp, by omega, ?_⟩
          simp
        · exact .inl rfl
      · -- a later block exists only behind a whole one
        have hfull : min size 128 = 128 := by omega
        rw [hfull] at hval hp'
        refine .inr ⟨k + 1, i, hi, by omega, p', ?_, ha, ?_⟩
        · rwa [show v + 128 * (k + 1) = v + 128 + 128 * k by omega]
        · rw [hfull, hval]
          congr 1
          omega

/-! ## Which ranges are loaded -/

theorem loadsRange_of_framesFollow (hnd : space.frames.Nodup)
    (hin : v + size ≤ space.frames.length * 128) (h : space.FramesFollow v size) :
    space.LoadsRange v size fileAddr := by
  intro x m
  have hw := written_readFile x fileAddr m h hin le_rfl
  refine ⟨fun i hi => ?_, fun a ha => ?_⟩
  · obtain ⟨f, -, hf⟩ := exists_translate space (v := (v + i : ℕ)) (by omega) (by omega)
    obtain ⟨a, ha⟩ : ∃ a, space.translate (v + i : ℕ) = some a := ⟨_, hf⟩
    refine ⟨a, ha, ?_⟩
    rw [Nat.cast_add] at ha
    rw [hw.byte (by omega) hnd (by simpa using hi) ha, getD_fileBytes hi]
  · exact hw.other a fun i hi => by
      rw [length_fileBytes] at hi
      exact_mod_cast ha i hi

/-- The first byte of the page behind a frame that the next page does not have is never written with
its own value. -/
theorem framesFollow_of_loadsRange (hin : v + size ≤ space.frames.length * 128)
    (h : space.LoadsRange v size fileAddr) : space.FramesFollow v size := by
  rw [FramesFollow, or_iff_not_imp_left]
  unfold PageSize
  intro h0 q hq hq' f hf
  -- a file with a single one, which belongs at the start of the next page
  let x : NoffFile := ⟨0, ⟨0, 0, 0⟩, ⟨0, 0, 0⟩, ⟨0, 0, 0⟩,
    fun j => if j = fileAddr + ((q + 1) * 128 - v) then 1 else 0⟩
  obtain ⟨hbytes, -⟩ := h x fun _ => 0
  obtain ⟨a, ha, hone⟩ := hbytes ((q + 1) * 128 - v) (by omega)
  rw [show v + ((q + 1) * 128 - v) = (q + 1) * 128 by omega] at ha
  obtain ⟨g, hg, ha'⟩ := translate_nat.mp ha
  rw [show (q + 1) * 128 / 128 = q + 1 by omega] at hg
  rcases readFile_cases x fileAddr (fun _ => 0) hin le_rfl a with
    hsame | ⟨k, i, hi, hki, p, hp, hap, hval⟩
  · rw [hsame] at hone
    simp [x] at hone
  · rw [hval] at hone
    have hidx : fileAddr + 128 * k + i = fileAddr + ((q + 1) * 128 - v) := by
      by_contra hne
      simp [x, hne] at hone
    obtain ⟨f', hf', hp'⟩ := translate_nat.mp hp
    rw [show (v + 128 * k) / 128 = q by omega] at hf'
    obtain rfl : f = f' := Option.some.inj (hf.symm.trans hf')
    rw [hg, show g = f + 1 by omega]

/-- `ReadFile` loads a range of the address space, into different frames in any order, exactly if
the range starts at a page or each of its frames is followed by the next one. -/
theorem loadsRange_iff (space : AddrSpace) (hnd : space.frames.Nodup) (vAddr size fileAddr : ℕ)
    (hin : vAddr + size ≤ space.pageTable.length * PageSize) :
    space.LoadsRange vAddr size fileAddr ↔ space.FramesFollow vAddr size := by
  have hin' : vAddr + size ≤ space.frames.length * 128 := by
    rw [frames, List.length_map]
    exact hin
  exact ⟨framesFollow_of_loadsRange hin', loadsRange_of_framesFollow hnd hin'⟩

/-- A segment that starts at a page, in frames in descending order. -/
theorem loadsRange_iff_aligned :
    LoadsRange ⟨[Memory.newEntry 0 9, Memory.newEntry 1 4]⟩ 0 200 40 :=
  (loadsRange_iff _ (by decide) 0 200 40 (by decide)).mpr (.inl rfl)

/-- A segment from the middle of a page to the middle of the next one, whose frame is not the next
one: the second half goes to another frame. -/
theorem exists_not_loadsRange : ∃ (space : AddrSpace) (vAddr size fileAddr : ℕ),
    space.frames.Nodup ∧ vAddr + size ≤ space.pageTable.length * PageSize ∧
      ¬ space.LoadsRange vAddr size fileAddr := by
  refine ⟨⟨[Memory.newEntry 0 0, Memory.newEntry 1 2]⟩, 64, 128, 40, by decide, by decide, ?_⟩
  intro h
  rcases framesFollow_of_loadsRange (by decide) h with h0 | hfollow
  · exact absurd h0 (by decide)
  · exact absurd (hfollow 0 (by decide) (by decide) 0 rfl) (by decide)

end AddrSpace

end Nachos.Userprog
