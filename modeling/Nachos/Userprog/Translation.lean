import Mathlib.Algebra.Order.Ring.Int
import Nachos.Userprog.AddrSpace

/-! # The two translations

`AddrSpace::Translate` divides addresses as `int`, so that a negative address
of less than a page is in front of the first frame. `Machine::Translate` takes
the same bits as an unsigned number, and checks the frame.
-/

namespace Nachos.Userprog.AddrSpace

open VM

variable {space : AddrSpace} {v a : ℤ} {w w' : ℕ} {addr : BitVec 32}

/-! ## `AddrSpace::Translate` -/

theorem tdiv_tmod_of_nonneg (hv : 0 ≤ v) :
    v.tdiv PageSize = v / 128 ∧ v.tmod PageSize = v % 128 :=
  ⟨Int.tdiv_eq_ediv_of_nonneg hv, Int.tmod_eq_emod_of_nonneg hv⟩

theorem tdiv_tmod_of_neg (hv : v < 0) (hlt : -128 < v) :
    v.tdiv PageSize = 0 ∧ v.tmod PageSize = v := by
  obtain ⟨w, rfl⟩ : ∃ w, v = -w := ⟨-v, by omega⟩
  obtain ⟨hd, hm⟩ := tdiv_tmod_of_nonneg (v := w) (by omega)
  rw [Int.neg_tdiv, Int.neg_tmod, hd, hm]
  omega

theorem tdiv_of_le (hv : v ≤ -128) : v.tdiv PageSize < 0 := by
  obtain ⟨w, rfl⟩ : ∃ w, v = -w := ⟨-v, by omega⟩
  obtain ⟨hd, -⟩ := tdiv_tmod_of_nonneg (v := w) (by omega)
  rw [Int.neg_tdiv, hd]
  omega

theorem translate_of_nonneg (hv : 0 ≤ v) : space.translate v = some a ↔
    ∃ f : ℕ, space.frames[(v / 128).toNat]? = some f ∧ a = f * 128 + v % 128 := by
  obtain ⟨hd, hm⟩ := tdiv_tmod_of_nonneg hv
  have hneg : ¬ v / 128 < 0 := by omega
  simp only [translate, hd, hm, if_neg hneg, Option.map_eq_some_iff, frames, List.getElem?_map]
  constructor
  · rintro ⟨e, he, rfl⟩
    exact ⟨_, ⟨e, he, rfl⟩, rfl⟩
  · rintro ⟨_, ⟨e, he, rfl⟩, rfl⟩
    exact ⟨e, he, rfl⟩

theorem translate_of_neg (hv : v < 0) : space.translate v = some a ↔
    -128 < v ∧ ∃ f : ℕ, space.frames[0]? = some f ∧ a = f * 128 + v := by
  by_cases hlt : -128 < v
  · obtain ⟨hd, hm⟩ := tdiv_tmod_of_neg hv hlt
    simp only [translate, hd, hm, lt_irrefl, ↓reduceIte, Int.toNat_zero, Option.map_eq_some_iff,
      hlt, true_and, frames, List.getElem?_map]
    constructor
    · rintro ⟨e, he, rfl⟩
      exact ⟨_, ⟨e, he, rfl⟩, rfl⟩
    · rintro ⟨_, ⟨e, he, rfl⟩, rfl⟩
      exact ⟨e, he, rfl⟩
  · simp [translate, tdiv_of_le (show v ≤ -128 by omega), hlt]

theorem translate_add {i : ℤ} (h : space.translate v = some a) (hi : 0 ≤ i)
    (hlt : v.tmod PageSize + i < 128) : space.translate (v + i) = some (a + i) := by
  by_cases hv : 0 ≤ v
  · obtain ⟨e, he, rfl⟩ := (translate_of_nonneg hv).mp h
    rw [(tdiv_tmod_of_nonneg hv).2] at hlt
    refine (translate_of_nonneg (by omega)).mpr ⟨e, ?_, by omega⟩
    rwa [show (v + i) / 128 = v / 128 by omega]
  · obtain ⟨hlt', e, he, rfl⟩ := (translate_of_neg (by omega)).mp h
    rw [(tdiv_tmod_of_neg (by omega) hlt').2] at hlt
    by_cases hvi : 0 ≤ v + i
    · refine (translate_of_nonneg hvi).mpr ⟨e, ?_, by omega⟩
      rwa [show (v + i) / 128 = 0 by omega]
    · exact (translate_of_neg (by omega)).mpr ⟨by omega, e, he, by omega⟩

theorem translate_nat : space.translate w = some a ↔
    ∃ f : ℕ, space.frames[w / 128]? = some f ∧ a = f * 128 + w % 128 := by
  rw [translate_of_nonneg (by omega), show ((w : ℤ) / 128).toNat = w / 128 by omega]

theorem translate_inj (hnd : space.frames.Nodup) (h : space.translate w = some a)
    (h' : space.translate w' = some a) : w = w' := by
  obtain ⟨f, hf, rfl⟩ := translate_nat.mp h
  obtain ⟨f', hf', he⟩ := translate_nat.mp h'
  obtain rfl : f = f' := by omega
  have hi : w / 128 < space.frames.length := (List.getElem?_eq_some_iff.mp hf).1
  have := (List.getElem?_inj hi hnd).mp (hf.trans hf'.symm)
  omega

theorem exists_translate (space : AddrSpace) (hv : 0 ≤ v) (hlt : v < space.frames.length * 128) :
    ∃ f ∈ space.frames, space.translate v = some ((f : ℤ) * 128 + v % 128) := by
  have hi : (v / 128).toNat < space.frames.length := by omega
  exact ⟨_, List.getElem_mem hi,
    (translate_of_nonneg hv).mpr ⟨_, List.getElem?_eq_getElem hi, rfl⟩⟩

/-! ## `Machine::Translate` -/

theorem machineTranslate_byte (hvalid : ∀ e ∈ space.pageTable, e.valid = true) {p : ℕ} :
    (∃ space', space.machineTranslate w 1 false = some (.ok p, space')) ↔
      ∃ f < 32, space.frames[w / 128]? = some f ∧ p = f * 128 + w % 128 := by
  unfold machineTranslate
  rw [if_neg (by simp), show PageSize = 128 from rfl]
  simp only [frames, List.getElem?_map, Option.map_eq_some_iff]
  cases he : space.pageTable[w / 128]? with
  | none => simp
  | some e =>
    have hv : e.valid = true := hvalid e (List.mem_of_getElem? he)
    by_cases hf : e.physicalPage < 32
    · have hframe : ¬ NumPhysPages ≤ e.physicalPage := by
        unfold NumPhysPages
        omega
      have hin : e.physicalPage * 128 + w % 128 + 1 ≤ MemorySize := by
        unfold MemorySize NumPhysPages PageSize
        omega
      simp [hv, hframe, hin, hf, eq_comm]
    · have hframe : NumPhysPages ≤ e.physicalPage := by
        unfold NumPhysPages
        omega
      simp [hv, hframe, hf]

/-! ## Agreement -/

/-- Both translations succeed for the same addresses, with the same result, which is in the frame of
the page of the address. -/
def Agrees (space : AddrSpace) (addr : BitVec 32) : Prop :=
  (∀ a, space.translate addr.toInt = some a ↔
    ∃ p : ℕ, a = p ∧ ∃ space', space.machineTranslate addr.toNat 1 false = some (.ok p, space')) ∧
  ∀ a, space.translate addr.toInt = some a →
    ∃ f : ℕ, space.frames[addr.toNat / PageSize]? = some f ∧
      f * PageSize ≤ a ∧ a < (f + 1) * PageSize

/-- For an address that is not negative, the frame of its page exists. A negative one is in no page
with a frame, and there is no first frame in front of which it could be; a table of all pages may
have the frame of the last page in front of the first one. -/
def TranslatesAlike (space : AddrSpace) (addr : BitVec 32) : Prop :=
  if 0 ≤ addr.toInt then
    ∀ f, space.frames[addr.toNat / PageSize]? = some f → f < NumPhysPages
  else
    (∀ f, space.frames[addr.toNat / PageSize]? = some f → NumPhysPages ≤ f) ∧
        (addr.toInt ≤ -PageSize ∨ space.frames = []) ∨
      -PageSize < addr.toInt ∧ ∃ f < NumPhysPages,
        space.frames[addr.toNat / PageSize]? = some f ∧ space.frames[0]? = some (f + 1)

theorem toInt_of_lt (h : addr.toNat < 2 ^ 31) : addr.toInt = addr.toNat :=
  BitVec.toInt_eq_toNat_of_lt (by omega)

theorem toInt_of_le (h : 2 ^ 31 ≤ addr.toNat) : addr.toInt = addr.toNat - 2 ^ 32 := by
  rw [BitVec.toInt_eq_toNat_cond, if_neg (by omega)]
  norm_cast

theorem agrees_of_nonneg (hvalid : ∀ e ∈ space.pageTable, e.valid = true)
    (h : addr.toNat < 2 ^ 31) : space.Agrees addr ↔
      ∀ f, space.frames[addr.toNat / 128]? = some f → f < 32 := by
  unfold Agrees
  simp only [toInt_of_lt h, translate_nat, machineTranslate_byte hvalid]
  constructor
  · rintro ⟨hagree, -⟩ f hf
    obtain ⟨p, -, g, hg, hgf, -⟩ := (hagree _).mp ⟨f, hf, rfl⟩
    obtain rfl : f = g := Option.some.inj (hf.symm.trans hgf)
    exact hg
  · intro hlt
    refine ⟨fun a => ⟨?_, ?_⟩, ?_⟩
    · rintro ⟨f, hf, rfl⟩
      exact ⟨f * 128 + addr.toNat % 128, by omega, f, hlt f hf, hf, rfl⟩
    · rintro ⟨p, rfl, f, -, hf, rfl⟩
      exact ⟨f, hf, by omega⟩
    · rintro a ⟨f, hf, rfl⟩
      refine ⟨f, hf, ?_⟩
      unfold PageSize
      omega

theorem agrees_of_neg (hvalid : ∀ e ∈ space.pageTable, e.valid = true)
    (h : 2 ^ 31 ≤ addr.toNat) : space.Agrees addr ↔
      (∀ f, space.frames[addr.toNat / 128]? = some f → 32 ≤ f) ∧
          (addr.toInt ≤ -128 ∨ space.frames = []) ∨
        -128 < addr.toInt ∧ ∃ f < 32,
          space.frames[addr.toNat / 128]? = some f ∧ space.frames[0]? = some (f + 1) := by
  have hint := toInt_of_le h
  have hneg : addr.toInt < 0 := by have := addr.isLt; omega
  unfold Agrees
  simp only [translate_of_neg hneg, machineTranslate_byte hvalid]
  constructor
  · rintro ⟨hagree, -⟩
    by_cases hex : ∃ f < 32, space.frames[addr.toNat / 128]? = some f
    · obtain ⟨f, hlt, hf⟩ := hex
      obtain ⟨hgt, g, hg, he⟩ := (hagree _).mpr ⟨_, rfl, f, hlt, hf, rfl⟩
      exact .inr ⟨hgt, f, hlt, hf, by rw [hg, show g = f + 1 by omega]⟩
    · refine .inl ⟨fun f hf => by_contra fun hlt => hex ⟨f, by omega, hf⟩, ?_⟩
      rcases le_or_gt addr.toInt (-128) with hle | hgt
      · exact .inl hle
      · -- the kernel would find the first frame
        refine .inr (List.eq_nil_iff_forall_not_mem.mpr fun g hg => ?_)
        obtain ⟨g', hg'⟩ : ∃ g', space.frames[0]? = some g' :=
          ⟨_, List.getElem?_eq_getElem (List.length_pos_of_mem hg)⟩
        obtain ⟨-, -, f, hlt, hf, -⟩ := (hagree _).mp ⟨hgt, g', hg', rfl⟩
        exact hex ⟨f, hlt, hf⟩
  · rintro (⟨hfar, hkernel⟩ | ⟨hgt, f, hlt, hf, hfirst⟩)
    · -- neither of them succeeds
      have hnone : ∀ a, ¬ (-128 < addr.toInt ∧
          ∃ f : ℕ, space.frames[0]? = some f ∧ a = f * 128 + addr.toInt) := by
        rintro a ⟨hgt, f, hf, -⟩
        rcases hkernel with hle | hnil
        · omega
        · simp [hnil] at hf
      refine ⟨fun a => ⟨fun ha => absurd ha (hnone a), ?_⟩, fun a ha => absurd ha (hnone a)⟩
      rintro ⟨p, -, f, hlt, hf, -⟩
      have := hfar f hf
      omega
    · refine ⟨fun a => ⟨?_, ?_⟩, ?_⟩
      · rintro ⟨-, g, hg, rfl⟩
        obtain rfl : f + 1 = g := Option.some.inj (hfirst.symm.trans hg)
        exact ⟨f * 128 + addr.toNat % 128, by omega, f, hlt, hf, rfl⟩
      · rintro ⟨p, rfl, g, -, hg, rfl⟩
        obtain rfl : f = g := Option.some.inj (hf.symm.trans hg)
        exact ⟨hgt, f + 1, hfirst, by omega⟩
      · rintro a ⟨-, g, hg, rfl⟩
        obtain rfl : f + 1 = g := Option.some.inj (hfirst.symm.trans hg)
        refine ⟨f, hf, ?_⟩
        unfold PageSize
        omega

/-- The kernel and the machine translate an address alike exactly under this condition. -/
theorem agrees_iff (space : AddrSpace)
    (hspace : ∀ e ∈ space.pageTable, e.valid = true ∧ e.readOnly = false) (addr : BitVec 32) :
    space.Agrees addr ↔ space.TranslatesAlike addr := by
  have hvalid : ∀ e ∈ space.pageTable, e.valid = true := fun e he => (hspace e he).1
  unfold TranslatesAlike
  rcases Nat.lt_or_ge addr.toNat (2 ^ 31) with h | h
  · rw [if_pos (by rw [toInt_of_lt h]; omega), agrees_of_nonneg hvalid h]
    rfl
  · have hneg : ¬ 0 ≤ addr.toInt := by have := addr.isLt; rw [toInt_of_le h]; omega
    rw [if_neg hneg, agrees_of_neg hvalid h]
    rfl

/-- The last byte of a page in a table of two. -/
theorem agrees_iff_last : Agrees ⟨[Memory.newEntry 0 7, Memory.newEntry 1 3]⟩ 255 := by
  refine (agrees_iff _ (by decide) 255).mpr fun f hf => ?_
  obtain rfl : 3 = f := Option.some.inj hf
  decide

/-- The kernel translates `-1` to the byte in front of the first frame; the machine does not
translate it. -/
theorem exists_not_agrees : ∃ space : AddrSpace,
    (∀ e ∈ space.pageTable, e.valid = true ∧ e.readOnly = false) ∧
    space.translate (-1) = some 127 ∧ ¬ space.Agrees (-1) := by
  refine ⟨⟨[Memory.newEntry 0 1]⟩, by decide, by decide, fun h => ?_⟩
  obtain ⟨p, -, space', hmachine⟩ := (h.1 127).mp (by decide)
  have herror : (AddrSpace.mk [Memory.newEntry 0 1]).machineTranslate
      (-1 : BitVec 32).toNat 1 false =
      some (.error .addressError, ⟨[Memory.newEntry 0 1]⟩) := by
    rfl
  rw [herror] at hmachine
  cases hmachine

end Nachos.Userprog.AddrSpace
