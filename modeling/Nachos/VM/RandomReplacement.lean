import Mathlib.Data.List.Iterate
import Nachos.VM.Tracking

/-! # Random replacement

`RandomReplacement` computes pseudorandom numbers with signed words. The last
step of `getRand` clears the sign, so the remainder is the number of a frame.
The constructor does not set the index of the next number.
-/

namespace Nachos.VM

open CArray Queue Transition

structure RandomReplacement where
  queue : List ℤ
  randoms : List (BitVec 32)
  randIdx : ℤ

namespace RandomReplacement

variable {s s' : RandomReplacement} {randoms : List (BitVec 32)}

/-! ## The numbers -/

/-- One number of `initializeRandom` from the one before it. -/
def nextSeed (random : BitVec 32) : BitVec 32 :=
  0x6c078965 * (random ^^^ random.sshiftRight 30) + 1

/-- `RandomReplacement::RandomReplacement`, for the time and the index that it finds. -/
def new (time : BitVec 32) (randIdx : ℤ) : RandomReplacement where
  queue := Queue.new
  randoms := List.iterate nextSeed time 624
  randIdx := randIdx

/-- A turn of the loop of `generateRandoms`. -/
def generateTurn (i : ℕ) (randoms : List (BitVec 32)) : Option (List (BitVec 32)) := do
  let sign ← load randoms i
  let next ← load randoms ((i + 1) % 624 : ℕ)
  let j := sign.sshiftRight 31 + next.sshiftRight 1
  let far ← load randoms ((i + 397) % 624 : ℕ)
  let randoms ← store i (far ^^^ j.sshiftRight 1) randoms
  if j.srem 2 ≠ 0 then
    let random ← load randoms i
    store i (random ^^^ 0x9908b0df) randoms
  else some randoms

/-- The loop of `generateRandoms`, from an index on, for a number of turns. -/
def generateLoop : ℕ → ℕ → List (BitVec 32) → Option (List (BitVec 32))
  | 0, _, randoms => some randoms
  | turns + 1, i, randoms => (generateTurn i randoms).bind (generateLoop turns (i + 1))

def generateRandoms (randoms : List (BitVec 32)) : Option (List (BitVec 32)) :=
  generateLoop 624 0 randoms

/-- What `getRand` makes of a number. -/
def temper (rand : BitVec 32) : BitVec 32 :=
  let rand := rand ^^^ rand.sshiftRight 11
  let rand := rand ^^^ ((rand <<< 7) &&& 0x9d2c5680)
  let rand := rand ^^^ ((rand <<< 15) &&& 0xefc60000)
  rand ^^^ rand.sshiftRight 18

def getRand (s : RandomReplacement) : Option (BitVec 32 × RandomReplacement) :=
  (if s.randIdx = 0 then generateRandoms s.randoms else some s.randoms).bind fun randoms =>
    (load randoms s.randIdx).map fun rand =>
      (temper rand, { s with randoms := randoms, randIdx := (s.randIdx + 1).tmod 624 })

def getReplacement (s : RandomReplacement) : Option (ℤ × RandomReplacement) :=
  s.getRand.map fun (rand, s) => (rand.toInt.tmod NumPhysPages, s)

/-- The array has its length, and the index of the next number is one of it. -/
def Valid (s : RandomReplacement) : Prop :=
  s.randoms.length = 624 ∧ 0 ≤ s.randIdx ∧ s.randIdx < 624

instance : Decidable s.Valid :=
  inferInstanceAs (Decidable (s.randoms.length = 624 ∧ 0 ≤ s.randIdx ∧ s.randIdx < 624))

theorem msb_temper (rand : BitVec 32) : (temper rand).msb = false := by
  simp [temper]

theorem exists_load (h : randoms.length = 624) {i : ℤ} (h0 : 0 ≤ i) (hlt : i < 624) :
    ∃ x, load randoms i = some x :=
  Option.isSome_iff_exists.mp (isSome_load.mpr ⟨h0, by omega⟩)

theorem exists_generateTurn {i : ℕ} (h : randoms.length = 624) (hi : i < 624) :
    ∃ randoms', generateTurn i randoms = some randoms' ∧ randoms'.length = 624 := by
  obtain ⟨sign, hsign⟩ := exists_load h (i := i) (by omega) (by omega)
  obtain ⟨next, hnext⟩ := exists_load h (i := ((i + 1) % 624 : ℕ)) (by omega) (by omega)
  obtain ⟨far, hfar⟩ := exists_load h (i := ((i + 397) % 624 : ℕ)) (by omega) (by omega)
  obtain ⟨randoms₁, hstore, hlen⟩ := exists_store (q := randoms) (i := i)
    (x := far ^^^ (sign.sshiftRight 31 + next.sshiftRight 1).sshiftRight 1) (by omega) (by omega)
  rw [h] at hlen
  simp only [generateTurn, hsign, hnext, hfar, hstore, Option.bind_eq_bind, Option.bind_some]
  split
  · obtain ⟨random, hrandom⟩ := exists_load hlen (i := i) (by omega) (by omega)
    obtain ⟨randoms₂, hstore₂, hlen₂⟩ := exists_store (q := randoms₁) (i := i)
      (x := random ^^^ 0x9908b0df) (by omega) (by omega)
    rw [hrandom, Option.bind_some]
    exact ⟨randoms₂, hstore₂, hlen₂.trans hlen⟩
  · exact ⟨randoms₁, rfl, hlen⟩

theorem exists_generateLoop (turns : ℕ) : ∀ (i : ℕ) (randoms : List (BitVec 32)),
    randoms.length = 624 → i + turns ≤ 624 →
    ∃ randoms', generateLoop turns i randoms = some randoms' ∧ randoms'.length = 624 := by
  induction turns with
  | zero => exact fun i randoms h _ => ⟨randoms, rfl, h⟩
  | succ turns ih =>
    intro i randoms h hi
    obtain ⟨randoms₁, hturn, hlen⟩ := exists_generateTurn h (show i < 624 by omega)
    rw [generateLoop, hturn, Option.bind_some]
    exact ih (i + 1) randoms₁ hlen (by omega)

theorem exists_generateRandoms (h : randoms.length = 624) :
    ∃ randoms', generateRandoms randoms = some randoms' ∧ randoms'.length = 624 :=
  exists_generateLoop 624 0 randoms h le_rfl

/-- `getRand` returns a number that is not negative, and leaves an index of the array. -/
theorem Valid.exists_getRand (h : s.Valid) :
    ∃ rand s', s.getRand = some (rand, s') ∧ 0 ≤ rand.toInt ∧ s'.Valid ∧ s'.queue = s.queue := by
  obtain ⟨hlen, h0, hlt⟩ := h
  obtain ⟨randoms, hgen, hlen'⟩ : ∃ randoms,
      (if s.randIdx = 0 then generateRandoms s.randoms else some s.randoms) = some randoms ∧
        randoms.length = 624 := by
    split
    · exact exists_generateRandoms hlen
    · exact ⟨_, rfl, hlen⟩
  obtain ⟨rand, hload⟩ := exists_load hlen' h0 hlt
  refine ⟨temper rand, { s with randoms := randoms, randIdx := (s.randIdx + 1).tmod 624 }, ?_, ?_,
    ⟨hlen', ?_, ?_⟩, rfl⟩
  · rw [getRand, hgen, Option.bind_some, hload, Option.map_some]
  · rw [BitVec.toInt_eq_toNat_of_msb (msb_temper rand)]
    exact Int.natCast_nonneg _
  · exact Int.tmod_nonneg _ (by omega)
  · exact Int.tmod_lt_of_pos _ (by decide)

theorem isSome_getRand_iff (hlen : s.randoms.length = 624) :
    s.getRand.isSome ↔ 0 ≤ s.randIdx ∧ s.randIdx < 624 := by
  constructor
  · intro h
    by_contra hidx
    have hne : s.randIdx ≠ 0 := by omega
    have hload : load s.randoms s.randIdx = none := by
      rw [← Option.not_isSome_iff_eq_none, isSome_load]
      omega
    simp [getRand, hne, hload] at h
  · intro h
    obtain ⟨rand, s', hs, -⟩ := Valid.exists_getRand ⟨hlen, h⟩
    rw [hs]
    rfl

theorem length_new {time : BitVec 32} {randIdx : ℤ} : (new time randIdx).randoms.length = 624 :=
  List.length_iterate ..

theorem valid_new {time : BitVec 32} {randIdx : ℤ} :
    (new time randIdx).Valid ↔ 0 ≤ randIdx ∧ randIdx < 624 :=
  and_iff_right length_new

/-- After the constructor there is a number only if the index, which it does not set, happens to be
one of the array. -/
theorem isSome_getRand_new {time : BitVec 32} {randIdx : ℤ} :
    (new time randIdx).getRand.isSome ↔ 0 ≤ randIdx ∧ randIdx < 624 :=
  isSome_getRand_iff length_new

theorem Valid.exists_getReplacement (h : s.Valid) :
    ∃ page s', s.getReplacement = some (page, s') ∧ 0 ≤ page ∧ page < NumPhysPages ∧ s'.Valid := by
  obtain ⟨rand, s', hs, hrand, hvalid, -⟩ := h.exists_getRand
  refine ⟨rand.toInt.tmod NumPhysPages, s', ?_, Int.tmod_nonneg _ hrand,
    Int.tmod_lt_of_pos _ (by decide), hvalid⟩
  rw [getReplacement, hs]
  rfl

/-! ## Runs -/

inductive Call
  | pageUsed (pPage : ℤ)
  | clearPage (pPage : ℤ)
  | markPage (pPage : ℤ)
  | getReplacement

def step (s : RandomReplacement) : Call → Option RandomReplacement
  | .pageUsed pPage => (Policy.random.pageUsed pPage s.queue).map ({ s with queue := · })
  | .clearPage pPage => (Policy.random.clearPage pPage s.queue).map ({ s with queue := · })
  | .markPage pPage => (Policy.random.markPage pPage s.queue).map ({ s with queue := · })
  | .getReplacement => s.getReplacement.map (·.2)

/-- Any sequence of calls, with any numbers to start with. -/
def system : System RandomReplacement Call := .ofStep Valid step

theorem Valid.step {c : Call} (h : s.Valid) (hs : s.step c = some s') : s'.Valid := by
  cases c with
  | pageUsed pPage | clearPage pPage =>
    obtain ⟨queue, -, rfl⟩ := Option.map_eq_some_iff.mp hs
    exact h
  | markPage pPage =>
    obtain rfl := Option.some.inj hs
    exact h
  | getReplacement =>
    obtain ⟨page, t, ht, -, -, hvalid⟩ := h.exists_getReplacement
    rw [RandomReplacement.step, ht, Option.map_some] at hs
    obtain rfl := Option.some.inj hs
    exact hvalid

theorem valid_of_reachable (h : Reachable system s) : s.Valid :=
  h.invariant (P := Valid) (fun _ hs => hs) fun _ _ _ hs hstep => hs.step hstep

/-- `getRand` returns numbers that are not negative and keeps the index in the array, and so do the
accesses of `generateRandoms`; in every run the victim is a frame. -/
theorem getReplacement_of_reachable :
    (∀ s : RandomReplacement, s.Valid →
      (generateRandoms s.randoms).isSome ∧
      ∃ rand s', s.getRand = some (rand, s') ∧ 0 ≤ rand.toInt ∧ 0 ≤ s'.randIdx ∧
        s'.randIdx < 624) ∧
    ∀ s, Reachable system s →
      ∃ page s', s.getReplacement = some (page, s') ∧ 0 ≤ page ∧ page < NumPhysPages := by
  constructor
  · intro s h
    obtain ⟨randoms, hgen, -⟩ := exists_generateRandoms h.1
    obtain ⟨rand, s', hs, hrand, ⟨-, h0, hlt⟩, -⟩ := h.exists_getRand
    exact ⟨by rw [hgen]; rfl, rand, s', hs, hrand, h0, hlt⟩
  · intro s h
    obtain ⟨page, s', hs, h0, hlt, -⟩ := (valid_of_reachable h).exists_getReplacement
    exact ⟨page, s', hs, h0, hlt⟩

/-- The numbers of the constructor, from the first one on. -/
theorem getReplacement_of_reachable_new :
    (∃ rand s', (new 1 0).getRand = some (rand, s') ∧ 0 ≤ rand.toInt ∧ 0 ≤ s'.randIdx ∧
      s'.randIdx < 624) ∧
    ∃ page s', (new 1 0).getReplacement = some (page, s') ∧ 0 ≤ page ∧ page < NumPhysPages :=
  ⟨(getReplacement_of_reachable.1 _ (valid_new.mpr (by decide))).2,
    getReplacement_of_reachable.2 _ (.init (valid_new.mpr (by decide)))⟩

end RandomReplacement

end Nachos.VM
