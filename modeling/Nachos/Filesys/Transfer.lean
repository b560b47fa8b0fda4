import Nachos.Filesys.HeaderOnDisk
import Nachos.Filesys.OpenFile

/-! # Reading and writing a file

The sectors that the header finds make up one array of bytes, the image of the
file. `ReadAt` returns a range of it, and a `WriteAt` inside of the file
replaces a range.
-/

namespace Nachos.Filesys

open Function Words Bytes Outcome

variable {d d' : Disk} {hdr : FileHeader} {f : OpenFile} {sec : ℕ → Fin NumSectors}
  {buf from' into : ℕ → UInt8} {first k n numBytes position : ℕ}

/-- The bytes of a file with these sectors. -/
def image (sec : ℕ → Fin NumSectors) (d : Disk) (v : ℕ) : UInt8 :=
  (d (sec (v / SectorSize))).bytes (v % SectorSize)

theorem sectorSize_pos : 0 < SectorSize := by decide

theorem image_add {i j : ℕ} (hj : j < SectorSize) :
    image sec d (i * SectorSize + j) = (d (sec i)).bytes j := by
  rw [image, Nat.mul_comm, Nat.mul_add_div sectorSize_pos, Nat.div_eq_of_lt hj, Nat.mul_add_mod,
    Nat.mod_eq_of_lt hj, Nat.add_zero]

theorem exists_mul_add {v : ℕ} (hv : v < n * SectorSize) :
    ∃ i j, i < n ∧ j < SectorSize ∧ v = i * SectorSize + j :=
  ⟨v / SectorSize, v % SectorSize, Nat.div_lt_of_lt_mul (by rwa [Nat.mul_comm]),
    Nat.mod_lt v sectorSize_pos, (Nat.div_add_mod' v SectorSize).symm⟩

theorem image_frame {S : Set ℤ} {v : ℕ} (hv : v < n * SectorSize) (hd : d.Frame S d')
    (hsec : ∀ i < n, ((sec i : ℕ) : ℤ) ∉ S) : image sec d' v = image sec d v := by
  rw [image, image, hd _ (hsec _ (Nat.div_lt_of_lt_mul (by rwa [Nat.mul_comm])))]

/-- The header finds the first `n` sectors of its file. -/
def FileHeader.Maps (hdr : FileHeader) (n : ℕ) (sec : ℕ → Fin NumSectors) : Prop :=
  ∀ i < n, hdr.byteToSector (i * SectorSize) = .ok (sec i : ℕ)

def places (n : ℕ) (sec : ℕ → Fin NumSectors) : Set ℤ := { z | ∃ i < n, z = (sec i : ℕ) }

def Distinct (n : ℕ) (sec : ℕ → Fin NumSectors) : Prop :=
  ∀ i < n, ∀ j < n, sec i = sec j → i = j

namespace OpenFile

/-! ## Reading -/

theorem readSectors_eq
    (hm : ∀ i < k, hdr.byteToSector ((first + i) * SectorSize) = .ok (sec (first + i) : ℕ)) :
    readSectors hdr first d k =
      .ok (blit (fun _ => 0) 0 (k * SectorSize) fun v => image sec d (first * SectorSize + v)) := by
  induction k with
  | zero => simp [readSectors]
  | succ i ih =>
    have hdata : ∀ j < SectorSize, (d (sec (first + i))).bytes j =
        image sec d (first * SectorSize + (i * SectorSize + j)) := by
      intro j hj
      rw [← Nat.add_assoc, ← Nat.add_mul, image_add hj]
    rw [readSectors, ih fun i hi => hm i (by omega), ok_bind, hm i (by omega), ok_bind,
      Disk.readSector_natCast, ok_bind, pure_eq_ok, blit_source_congr hdata]
    have happ := @blit_append _ (fun _ => (0 : UInt8))
      (fun v => image sec d (first * SectorSize + v)) 0 (i * SectorSize) SectorSize
    rw [Nat.zero_add] at happ
    rw [happ, Nat.succ_mul]

theorem readAt_of_found
    (hm : ∀ i, position / SectorSize ≤ i → i * SectorSize < position + numBytes →
      f.hdr.byteToSector (i * SectorSize) = .ok (sec i : ℕ))
    (hpos : 0 < numBytes) (hlen : position < f.hdr.numBytes) :
    f.readAt into numBytes position d =
      .ok (numBytes, blit into 0 numBytes fun i => image sec d (position + i)) := by
  have hfound : ∀ i < 1 + (position + numBytes - 1) / SectorSize - position / SectorSize,
      f.hdr.byteToSector ((position / SectorSize + i) * SectorSize) =
        .ok (sec (position / SectorSize + i) : ℕ) := by
    intro i hi
    refine hm _ (Nat.le_add_right ..) ?_
    unfold SectorSize at *
    omega
  rw [readAt, if_neg (by omega)]
  dsimp only
  rw [readSectors_eq hfound, ok_bind, pure_eq_ok]
  refine congrArg (fun g => Except.ok (numBytes, g)) (blit_source_congr fun i hi => ?_)
  have hlt : position - position / SectorSize * SectorSize + i < (1 + (position + numBytes - 1) /
      SectorSize - position / SectorSize) * SectorSize := by
    unfold SectorSize at *
    omega
  have haddr : position / SectorSize * SectorSize +
      (position - position / SectorSize * SectorSize + i) = position + i := by
    unfold SectorSize
    omega
  rw [blit_start hlt, haddr]

theorem readAt_eq (hm : f.hdr.Maps n sec) (hpos : 0 < numBytes) (hlen : position < f.hdr.numBytes)
    (hend : position + numBytes ≤ n * SectorSize) :
    f.readAt into numBytes position d =
      .ok (numBytes, blit into 0 numBytes fun i => image sec d (position + i)) := by
  refine readAt_of_found (fun i _ hi => hm i ?_) hpos hlen
  unfold SectorSize at *
  omega

theorem readAt_past (h : f.hdr.numBytes ≤ position) :
    f.readAt into numBytes position d = .ok (0, into) := by
  rw [readAt, if_pos (.inr h)]

theorem readAt_sector {i : ℕ} (hm : f.hdr.Maps n sec) (hi : i < n) :
    f.readAt into SectorSize (i * SectorSize) d =
      if (i * SectorSize : ℕ) < f.hdr.numBytes then
        .ok (SectorSize, blit into 0 SectorSize fun j => image sec d (i * SectorSize + j))
      else .ok (0, into) := by
  split
  case isTrue hlt =>
    refine readAt_eq hm sectorSize_pos hlt ?_
    rw [← Nat.succ_mul]
    exact Nat.mul_le_mul_right _ hi
  case isFalse hlt => exact readAt_past (by omega)

/-! ## Writing -/

theorem exists_writeSectors (hm : hdr.Maps n sec) (hinj : Distinct n sec) (hk : first + k ≤ n)
    (buf : ℕ → UInt8) :
    ∃ d', writeSectors hdr buf first k d = .ok d' ∧
      d.Frame (places n sec) d' ∧
      ∀ v < n * SectorSize, image sec d' v =
        blit (image sec d) (first * SectorSize) (k * SectorSize) buf v := by
  induction k with
  | zero => exact ⟨d, rfl, .refl, fun v _ => by simp⟩
  | succ k ih =>
    obtain ⟨d', hd', hother, himg⟩ := ih (by omega)
    refine ⟨d'.set (sec (first + k)) (block buf SectorSize k), ?_, ?_, ?_⟩
    · rw [writeSectors, hd', ok_bind, hm (first + k) (by omega), ok_bind,
        Disk.writeSector_natCast]
    · exact hother.trans (.set ⟨first + k, by omega, rfl⟩)
    · intro v hv
      have happ := congrFun (@blit_append _ (image sec d) buf (first * SectorSize)
        (k * SectorSize) SectorSize) v
      rw [← Nat.succ_mul, ← Nat.add_mul] at happ
      rw [← happ]
      obtain ⟨i, j, hi, hj, rfl⟩ := exists_mul_add hv
      rcases eq_or_ne i (first + k) with rfl | hne
      · rw [image_add hj, Disk.set_self, Sector.bytes_of_lt hj, blit_add hj]
        rfl
      · have hsec : sec i ≠ sec (first + k) := fun h => hne (hinj _ hi _ (by omega) h)
        rw [image_add hj, Disk.set_of_ne hsec, ← image_add hj, himg _ hv]
        exact (blit_other (b := 0) (by omega) hne hj).symm

theorem exists_writeSectors_frame (hm : hdr.Maps n sec) (hk : first + k ≤ n) (buf : ℕ → UInt8) :
    ∃ d', writeSectors hdr buf first k d = .ok d' ∧ d.Frame (places n sec) d' := by
  induction k with
  | zero => exact ⟨d, rfl, .refl⟩
  | succ k ih =>
    obtain ⟨d', hd', hframe⟩ := ih (by omega)
    refine ⟨d'.set (sec (first + k)) (block buf SectorSize k), ?_,
      hframe.trans (.set ⟨first + k, by omega, rfl⟩)⟩
    rw [writeSectors, hd', ok_bind, hm (first + k) (by omega), ok_bind, Disk.writeSector_natCast]

theorem exists_readEdge {i : ℕ} (hm : f.hdr.Maps n sec) (hi : i < n) (buf : ℕ → UInt8) (s : ℕ)
    (wanted : Bool) :
    ∃ read buf', f.readEdge buf wanted s i d = .ok (read, buf') ∧
      (∀ v, wanted = false ∨ v < s ∨ s + SectorSize ≤ v → buf' v = buf v) ∧
      ((i * SectorSize : ℕ) < f.hdr.numBytes → read = true ∧ (wanted = true → ∀ j < SectorSize,
        buf' (s + j) = image sec d (i * SectorSize + j))) := by
  cases wanted with
  | false => exact ⟨true, buf, rfl, fun _ _ => rfl, fun _ => ⟨rfl, fun h => absurd h (by simp)⟩⟩
  | true =>
    rw [readEdge, if_pos rfl, readAt_sector hm hi]
    split
    case isTrue =>
      refine ⟨true, _, rfl, ?_, fun _ => ⟨rfl, fun _ j hj => ?_⟩⟩
      · rintro v (hv | hv | hv)
        · exact absurd hv (by simp)
        · exact blit_of_lt hv
        · exact blit_of_le hv
      · rw [blit_add hj, blit_start hj]
    case isFalse hlt =>
      exact ⟨false, _, rfl, fun v _ => congrFun blit_self v, fun h => absurd h hlt⟩

theorem readEdges_eq {buf₁ buf₂ : ℕ → UInt8} {last : ℕ} {read₁ read₂ : Bool}
    (h₁ : f.readEdge buf (!decide (position = first * SectorSize)) 0 first d = .ok (read₁, buf₁))
    (h₂ : f.readEdge buf₁ (!decide (position + numBytes = (last + 1) * SectorSize) &&
        (first != last || decide (position = first * SectorSize)))
      ((last - first) * SectorSize) last d = .ok (read₂, buf₂)) :
    f.readEdges buf numBytes position first last d = .ok (read₁ && read₂, buf₂) := by
  rw [readEdges]
  dsimp only
  rw [h₁, ok_bind]
  dsimp only
  rw [h₂, ok_bind, pure_eq_ok]

theorem exists_readEdges (hm : f.hdr.Maps n sec) (hpos : 0 < numBytes)
    (hend : position + numBytes ≤ n * SectorSize)
    (hfirst : (position / SectorSize * SectorSize : ℕ) < f.hdr.numBytes) (buf : ℕ → UInt8) :
    ∃ read buf', f.readEdges buf numBytes position (position / SectorSize)
        ((position + numBytes - 1) / SectorSize) d = .ok (read, buf') ∧
      (∀ v, position / SectorSize * SectorSize + v < position →
        buf' v = image sec d (position / SectorSize * SectorSize + v)) ∧
      (((position + numBytes - 1) / SectorSize * SectorSize : ℕ) < f.hdr.numBytes →
        read = true ∧ ∀ v, position + numBytes ≤ position / SectorSize * SectorSize + v →
          position / SectorSize * SectorSize + v <
            ((position + numBytes - 1) / SectorSize + 1) * SectorSize →
          buf' v = image sec d (position / SectorSize * SectorSize + v)) := by
  obtain ⟨first, hf⟩ : ∃ i, i = position / SectorSize := ⟨_, rfl⟩
  obtain ⟨last, hl⟩ : ∃ i, i = (position + numBytes - 1) / SectorSize := ⟨_, rfl⟩
  have hlast : first ≤ last ∧ last < n ∧ last * SectorSize < position + numBytes := by
    unfold SectorSize at *
    omega
  have hlow : first * SectorSize ≤ position ∧ position < (first + 1) * SectorSize := by
    unfold SectorSize at *
    omega
  rw [← hf, ← hl]
  rw [← hf] at hfirst
  obtain ⟨read₁, buf₁, hread₁, -, hbuf₁⟩ := exists_readEdge (d := d) hm
    (by omega : first < n) buf 0 (!decide (position = first * SectorSize))
  obtain ⟨read₂, buf₂, hread₂, hkeep₂, hbuf₂⟩ := exists_readEdge (d := d) hm hlast.2.1 buf₁
    ((last - first) * SectorSize) (!decide (position + numBytes = (last + 1) * SectorSize) &&
      (first != last || decide (position = first * SectorSize)))
  obtain ⟨rfl, hfirst₁⟩ := hbuf₁ hfirst
  refine ⟨read₂, buf₂, ?_, ?_, fun hread => ?_⟩
  · rw [readEdges_eq hread₁ hread₂, Bool.true_and]
  · -- the second read leaves the first sector, unless the request starts with it
    intro v hv
    have hne : position ≠ first * SectorSize := by omega
    have hout : v < (last - first) * SectorSize ∨ first = last := by
      unfold SectorSize at *
      omega
    rw [hkeep₂ v (hout.elim (fun h => .inr (.inl h)) fun h => .inl (by subst h; simp [hne]))]
    have := hfirst₁ (by simp [hne]) v (by unfold SectorSize at *; omega)
    rwa [Nat.zero_add] at this
  · obtain ⟨hok, hlast₂⟩ := hbuf₂ hread
    refine ⟨hok, fun v hv₁ hv₂ => ?_⟩
    by_cases hc : first ≠ last ∨ position = first * SectorSize
    · obtain ⟨j, hj, rfl⟩ : ∃ j < SectorSize, v = (last - first) * SectorSize + j :=
        ⟨v - (last - first) * SectorSize, by unfold SectorSize at *; omega,
          by unfold SectorSize at *; omega⟩
      have hwant : ¬ position + numBytes = (last + 1) * SectorSize := by omega
      rw [hlast₂ (by simpa [hwant] using hc) j hj]
      congr 1
      unfold SectorSize at *
      omega
    · obtain ⟨rfl, hne⟩ := (not_or.mp hc).imp_left not_not.mp
      rw [hkeep₂ v (.inl (by simp [hne]))]
      have := hfirst₁ (by simp [hne]) v (by unfold SectorSize at *; omega)
      rwa [Nat.zero_add] at this

theorem exists_readEdge_past {i : ℕ} (h : f.hdr.numBytes ≤ (i * SectorSize : ℕ)) (buf : ℕ → UInt8)
    (s : ℕ) (wanted : Bool) : ∃ read, f.readEdge buf wanted s i d = .ok (read, buf) := by
  cases wanted with
  | false => exact ⟨true, rfl⟩
  | true =>
    rw [readEdge, if_pos rfl, readAt_past h, ok_bind]
    exact ⟨_, congrArg Except.ok (congrArg (Prod.mk _) blit_self)⟩

theorem exists_readEdges_past {last : ℕ} (h : f.hdr.numBytes ≤ (first * SectorSize : ℕ))
    (hle : first ≤ last) (buf : ℕ → UInt8) :
    ∃ read, f.readEdges buf numBytes position first last d = .ok (read, buf) := by
  have hmul := Nat.mul_le_mul_right SectorSize hle
  obtain ⟨read₁, hread₁⟩ := exists_readEdge_past (d := d) h buf 0
    (!decide (position = first * SectorSize))
  obtain ⟨read₂, hread₂⟩ := exists_readEdge_past (d := d)
    (by omega : f.hdr.numBytes ≤ (last * SectorSize : ℕ)) buf ((last - first) * SectorSize)
    (!decide (position + numBytes = (last + 1) * SectorSize) &&
      (first != last || decide (position = first * SectorSize)))
  exact ⟨read₁ && read₂, readEdges_eq hread₁ hread₂⟩

theorem exists_readEdges_ok {last : ℕ} (hm : f.hdr.Maps n sec) (hfirst : first < n)
    (hlast : last < n) (buf : ℕ → UInt8) :
    ∃ read buf', f.readEdges buf numBytes position first last d = .ok (read, buf') := by
  obtain ⟨read₁, buf₁, hread₁, -⟩ := exists_readEdge (d := d) hm hfirst buf 0
    (!decide (position = first * SectorSize))
  obtain ⟨read₂, buf₂, hread₂, -⟩ := exists_readEdge (d := d) hm hlast buf₁
    ((last - first) * SectorSize) (!decide (position + numBytes = (last + 1) * SectorSize) &&
      (first != last || decide (position = first * SectorSize)))
  exact ⟨read₁ && read₂, buf₂, readEdges_eq hread₁ hread₂⟩

theorem exists_writeInside (from' : ℕ → UInt8) (hm : f.hdr.Maps n sec) (hinj : Distinct n sec)
    (hpos : 0 < numBytes)
    (hend : position + numBytes ≤ n * SectorSize)
    (hlen : ((n - 1) * SectorSize : ℕ) < f.hdr.numBytes) :
    ∃ d', f.writeInside from' numBytes position d = .ok d' ∧
      d.Frame (places n sec) d' ∧
      ∀ v < n * SectorSize, image sec d' v = blit (image sec d) position numBytes from' v := by
  have hsec : position / SectorSize ≤ (position + numBytes - 1) / SectorSize ∧
      (position + numBytes - 1) / SectorSize < n := by
    unfold SectorSize at *
    omega
  have hread : ∀ i < n, ((i * SectorSize : ℕ) : ℤ) < f.hdr.numBytes := by
    intro i hi
    have : i * SectorSize ≤ (n - 1) * SectorSize := Nat.mul_le_mul_right _ (by omega)
    omega
  obtain ⟨read, buf, hedges, hbefore, hafter⟩ :=
    exists_readEdges (d := d) hm hpos hend (hread _ (by omega)) fun _ => 0
  obtain ⟨rfl, hrest⟩ := hafter (hread _ hsec.2)
  have hcount : position / SectorSize + (1 + (position + numBytes - 1) / SectorSize -
      position / SectorSize) ≤ n := by omega
  obtain ⟨d', hd', hother, himg⟩ := exists_writeSectors (d := d) hm hinj hcount
    (blit buf (position - position / SectorSize * SectorSize) numBytes from')
  refine ⟨d', ?_, hother, fun v hv => ?_⟩
  · rw [writeInside]
    dsimp only
    rw [hedges, ok_bind]
    exact hd'
  · rw [himg v hv]
    refine blit_buffer (by unfold SectorSize; omega) (by unfold SectorSize at *; omega) ?_
    intro hlow hhigh hout
    obtain ⟨w, rfl⟩ := Nat.exists_eq_add_of_le hlow
    rw [Nat.add_sub_cancel_left]
    rcases hout with hout | hout
    · exact hbefore w hout
    · exact hrest w hout (by unfold SectorSize at *; omega)

theorem paddedLength_eq {len : ℤ} (h₁ : ((n - 1) * SectorSize : ℕ) < len)
    (h₂ : len ≤ (n * SectorSize : ℕ)) : paddedLength len = (n * SectorSize : ℕ) := by
  unfold paddedLength SectorSize at *
  rw [Int.tmod_eq_emod_of_nonneg (by omega)]
  split <;> omega

theorem exists_writeAt (from' : ℕ → UInt8) (hm : f.hdr.Maps n sec) (hinj : Distinct n sec)
    (hpos : 0 < numBytes)
    (hend : position + numBytes ≤ n * SectorSize)
    (hlen : ((n - 1) * SectorSize : ℕ) < f.hdr.numBytes ∧ f.hdr.numBytes ≤ (n * SectorSize : ℕ))
    (depth : ℕ) :
    ∃ d', f.writeAt (depth + 1) from' numBytes position d = .ok (f, d') ∧
      d.Frame (places n sec) d' ∧
      ∀ v < n * SectorSize, image sec d' v = blit (image sec d) position numBytes from' v := by
  obtain ⟨d', hd', hother, himg⟩ :=
    exists_writeInside (d := d) from' hm hinj hpos hend hlen.1
  refine ⟨d', ?_, hother, himg⟩
  rw [writeAt]
  dsimp only
  rw [paddedLength_eq hlen.1 hlen.2, if_pos (by omega), hd', ok_bind, pure_eq_ok]

theorem readAt_image (hm : f.hdr.Maps n sec) (hlen : position < f.hdr.numBytes)
    (hend : position + numBytes ≤ n * SectorSize) :
    f.readAt into numBytes position d =
      .ok (numBytes, blit into 0 numBytes fun i => image sec d (position + i)) := by
  rcases Nat.eq_zero_or_pos numBytes with rfl | hpos
  · rw [readAt, if_pos (.inl rfl), blit_zero]
  · exact readAt_eq hm hpos hlen hend

theorem length_of_divRoundUp {len : ℤ} (hlen : 0 < len) (hn : divRoundUp len.toNat SectorSize = n) :
    ((n - 1) * SectorSize : ℕ) < len ∧ len ≤ (n * SectorSize : ℕ) := by
  unfold divRoundUp SectorSize at hn
  unfold SectorSize
  split at hn <;> omega

/-- A write that ends inside of the last sector replaces the bytes of the image that it names, and
reads return the image. -/
theorem writeAt_replaces (from' : ℕ → UInt8) (hlen : 0 < f.hdr.numBytes)
    (hn : divRoundUp f.hdr.numBytes.toNat SectorSize = n) (hm : f.hdr.Maps n sec)
    (hinj : Distinct n sec) (hpos : 0 < numBytes) (hend : position + numBytes ≤ n * SectorSize) :
    ∃ d', f.writeAtCount from' numBytes position d = .ok (numBytes, f, d') ∧
      (∀ v < n * SectorSize, image sec d' v = blit (image sec d) position numBytes from' v) ∧
      d.Frame (places n sec) d' ∧
      ∀ (into : ℕ → UInt8) (m p : ℕ), p < f.hdr.numBytes → p + m ≤ n * SectorSize →
        f.readAt into m p d' = .ok (m, blit into 0 m fun i => image sec d' (p + i)) := by
  obtain ⟨d', hd', hframe, himg⟩ := exists_writeAt (d := d) from' hm hinj hpos hend
    (length_of_divRoundUp hlen hn) 1
  refine ⟨d', ?_, himg, hframe, fun into m p hp hpm => readAt_image hm hp hpm⟩
  rw [writeAtCount, WriteDepth, hd', ok_bind]
  rfl

/-- A file of 200 bytes in the sectors 5 and 6. -/
def twoSectors : OpenFile := ⟨⟨200, 2, fun i => 5 + (i : ℕ), fun _ => 0, fun _ => none⟩, 4⟩

/-- Three bytes across the border of two sectors, and one of them is read. -/
theorem writeAt_replaces_border : ∃ d' : Disk,
    twoSectors.writeAtCount (fun _ => 1) 3 127 (fun _ _ => 0) = .ok (3, twoSectors, d') ∧
      twoSectors.readAt (fun _ => 0) 1 128 d' = .ok (1, blit (fun _ => 0) 0 1 fun _ => 1) := by
  have hmaps : twoSectors.hdr.Maps 2 fun i => ⟨5 + i % 2, by unfold NumSectors; omega⟩ := by
    intro i hi
    match i, hi with
    | 0, _ => rfl
    | 1, _ => rfl
  obtain ⟨d', hd', himg, -, hread⟩ :=
    writeAt_replaces (n := 2) (f := twoSectors) (d := fun _ _ => 0)
    (fun _ => 1) (by decide) rfl hmaps (fun i hi j hj h => by simp at h; omega) (by decide : 0 < 3)
    (by decide : 127 + 3 ≤ 2 * SectorSize)
  refine ⟨d', hd', ?_⟩
  rw [hread _ 1 128 (by decide) (by decide)]
  refine congrArg (fun g => Except.ok (1, g)) (blit_source_congr fun i hi => ?_)
  rw [himg _ (by unfold SectorSize; omega), Nat.lt_one_iff.mp hi]
  rfl

end OpenFile

end Nachos.Filesys
