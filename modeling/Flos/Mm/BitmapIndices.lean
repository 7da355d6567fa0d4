import Flos.Mm.PmmRuns

/-!
# One bit for each frame

The bitmap routines address one bit for each frame as long as every frame index is below `2 ^ 31`. A
larger index is negative after its conversion to `int`, and selects a byte before the array.
-/

namespace Flos.Mm

/-- The bitmap routines address one bit for each of `total` frames in an array of `size` bytes: a
routine that is called with `i` reads and writes byte `i / 8` only, which lies in the array, and setting
or clearing bit `i` decides what is checked for frame `i` and for no other. -/
structure OneBitPerFrame (size total : ℕ) : Prop where
  inArray : ∀ i < total, i / 8 < size
  set_map : ∀ b : Bitmap, ∀ i < total, ∀ x, x ≠ ((i / 8 : ℕ) : ℤ) →
    (bitmapSetBit b (toInt i)).map x = b.map x
  unset_map : ∀ b : Bitmap, ∀ i < total, ∀ x, x ≠ ((i / 8 : ℕ) : ℤ) →
    (bitmapUnsetBit b (toInt i)).map x = b.map x
  check_congr : ∀ b b' : Bitmap, ∀ i < total, b.map ((i / 8 : ℕ) : ℤ) = b'.map ((i / 8 : ℕ) : ℤ) →
    bitmapCheckBit b (toInt i) = bitmapCheckBit b' (toInt i)
  check_set : ∀ b : Bitmap, ∀ i < total, ∀ j < total,
    bitmapCheckBit (bitmapSetBit b (toInt i)) (toInt j) =
      if i = j then true else bitmapCheckBit b (toInt j)
  check_unset : ∀ b : Bitmap, ∀ i < total, ∀ j < total,
    bitmapCheckBit (bitmapUnsetBit b (toInt i)) (toInt j) =
      if i = j then false else bitmapCheckBit b (toInt j)

/-- Below `2 ^ 31` frames, an array with room for a bit of each gives each its own. -/
theorem oneBitPerFrame_of_le {size total : ℕ} (htotal : total ≤ 2 ^ 31)
    (hsize : (total + 7) / 8 ≤ size) : OneBitPerFrame size total where
  inArray i hi := by omega
  set_map b i hi x hx := by
    rw [bitmapSetBit, toInt_eq (by omega), tdiv_natCast]
    exact Function.update_of_ne hx _ _
  unset_map b i hi x hx := by
    rw [bitmapUnsetBit, toInt_eq (by omega), tdiv_natCast]
    exact Function.update_of_ne hx _ _
  check_congr b b' i hi h := by
    rw [bitmapCheckBit_toInt b (by omega), bitmapCheckBit_toInt b' (by omega), h]
  check_set b i hi j hj := by
    rw [bitmapCheckBit_set b (by omega) (by omega)]
    by_cases hij : i = j <;> simp [hij, eq_comm]
  check_unset b i hi j hj := by
    rw [bitmapCheckBit_unset b (by omega) (by omega)]
    by_cases hij : i = j <;> simp [hij, eq_comm]

/-- Setting the bit of frame `2 ^ 31` changes the byte `2 ^ 28` places before the array. -/
theorem bitmapSetBit_beforeArray (b : Bitmap) :
    (bitmapSetBit b (toInt (2 ^ 31))).map (-2 ^ 28) = b.map (-2 ^ 28) ||| 1#8 := by
  have hbyte : (toInt (2 ^ 31)).tdiv 8 = -2 ^ 28 := by decide
  have hmask : bitMask (toInt (2 ^ 31)) = 1#8 := by decide
  rw [bitmapSetBit, hbyte, hmask]
  exact Function.update_self (-2 ^ 28) (b.map (-2 ^ 28) ||| 1#8) b.map

/-- From `2 ^ 31 + 1` frames on the routines leave the array. -/
theorem not_oneBitPerFrame {size total : ℕ} (htotal : 2 ^ 31 < total) :
    ¬ OneBitPerFrame size total := by
  intro h
  have hkeep := h.set_map ⟨size, 0, fun _ => 0#8⟩ (2 ^ 31) htotal (-2 ^ 28) (by decide)
  rw [bitmapSetBit_beforeArray] at hkeep
  exact absurd hkeep (show ¬ 0#8 ||| 1#8 = 0#8 by decide)

/-- The frames and bytes that the initialisation settles on, for any map that it accepts. -/
theorem initBitmapPmm_layout {m : MemoryMap} {mem : ℤ → BitVec 8} {s : Pmm}
    (h : initBitmapPmm m mem = some s) :
    s.totalPages = bytesToPages (highestAddr m.entries 0) ∧
      s.bitmap.size = bitmapBytes s.totalPages := by
  simp only [initBitmapPmm] at h
  split at h
  · contradiction
  · set start : Pmm :=
      { maxAddressable := highestAddr m.entries 0
        bitmap :=
          { size := bitmapBytes (bytesToPages (highestAddr m.entries 0))
            base := bitmapHome (bitmapBytes (bytesToPages (highestAddr m.entries 0))) m.entries
            map := fillOnes (bitmapBytes (bytesToPages (highestAddr m.entries 0))) mem }
        totalPages := bytesToPages (highestAddr m.entries 0)
        cachedIndex := 0 }
    have hlayout := (freeUsableEntries_layout start.bitmap.base m.entries start).1
    obtain rfl := Option.some.inj h
    exact ⟨hlayout.totalPages, hlayout.size.trans (congrArg bitmapBytes hlayout.totalPages).symm⟩

/-- The bitmap has room for every frame of a machine with 52-bit addresses. -/
theorem initBitmapPmm_room {m : MemoryMap}
    (hlimit : ∀ e ∈ m.entries, e.type = .usable → e.base + e.length ≤ 2 ^ 52)
    {mem : ℤ → BitVec 8} {s : Pmm} (h : initBitmapPmm m mem = some s) :
    (s.totalPages + 7) / 8 ≤ s.bitmap.size := by
  obtain ⟨htotal, hsize⟩ := initBitmapPmm_layout h
  have hhighest : highestAddr m.entries 0 < 2 ^ 52 + 1 :=
    highestAddr_lt (by decide) fun e he husable => by
      have := hlimit e he husable
      have := Nat.mod_le (e.base + e.length) wordSize
      omega
  have hbound : s.totalPages ≤ 2 ^ 40 := by
    rw [htotal, bytesToPages, pageSize]
    omega
  rw [hsize, bitmapBytes, alignUp_page_of_lt (by simp only [wordSize]; omega)]
  omega

/-- At most `2 ^ 31` frames are managed exactly when no USABLE entry ends beyond that many pages. -/
theorem initBitmapPmm_totalPages_le_iff {m : MemoryMap}
    (hlimit : ∀ e ∈ m.entries, e.type = .usable → e.base + e.length ≤ 2 ^ 52)
    {mem : ℤ → BitVec 8} {s : Pmm} (h : initBitmapPmm m mem = some s) :
    s.totalPages ≤ 2 ^ 31 ↔
      ∀ e ∈ m.entries, e.type = .usable → (e.base + e.length) / pageSize ≤ 2 ^ 31 := by
  rw [(initBitmapPmm_layout h).1, bytesToPages]
  have hword : ∀ e ∈ m.entries, e.type = .usable →
      (e.base + e.length) % wordSize = e.base + e.length := fun e he husable =>
    Nat.mod_eq_of_lt ((hlimit e he husable).trans_lt (by decide))
  constructor
  · intro hle e he husable
    have htop := (@le_highestAddr m.entries 0).2 e he husable
    rw [hword e he husable] at htop
    exact (Nat.div_le_div_right htop).trans hle
  · intro hall
    have hhighest : highestAddr m.entries 0 < (2 ^ 31 + 1) * 4096 :=
      highestAddr_lt (by decide) fun e he husable => by
        have := hall e he husable
        rw [hword e he husable]
        simp only [pageSize] at this
        omega
    simp only [pageSize]
    omega

/-- The bitmap of an accepted memory map addresses one bit per frame exactly when no USABLE entry ends
beyond `2 ^ 31` pages. -/
theorem initBitmapPmm_oneBitPerFrame_iff {m : MemoryMap}
    (hlimit : ∀ e ∈ m.entries, e.type = .usable → e.base + e.length ≤ 2 ^ 52)
    {mem : ℤ → BitVec 8} {s : Pmm} (h : initBitmapPmm m mem = some s) :
    OneBitPerFrame s.bitmap.size s.totalPages ↔
      ∀ e ∈ m.entries, e.type = .usable → (e.base + e.length) / pageSize ≤ 2 ^ 31 := by
  rw [← initBitmapPmm_totalPages_le_iff hlimit h]
  constructor
  · intro hone
    by_contra hlarge
    exact not_oneBitPerFrame (Nat.lt_of_not_le hlarge) hone
  · exact fun hle => oneBitPerFrame_of_le hle (initBitmapPmm_room hlimit h)

/-- The six frames of the small map have one bit each. -/
theorem initBitmapPmm_oneBitPerFrame_sixFrameMap :
    ∃ s, initBitmapPmm sixFrameMap (fun _ => 0#8) = some s ∧
      OneBitPerFrame s.bitmap.size s.totalPages := by
  obtain ⟨s, hinit⟩ := initBitmapPmm_isSome sixFrameMap_bootable (fun _ => 0#8)
  exact ⟨s, hinit, (initBitmapPmm_oneBitPerFrame_iff
    (by simp [sixFrameMap, memmapInit]) hinit).mpr (by simp [sixFrameMap, memmapInit, pageSize])⟩

/-- A boot map whose one USABLE entry has 16 TiB. -/
def sixteenTebibyteMap : MemoryMap := memmapInit [⟨0, 2 ^ 44, .usable⟩]

/-- With 16 TiB of memory the kernel accepts the map, and frame `2 ^ 31` has no bit of its own. -/
theorem initBitmapPmm_not_oneBitPerFrame :
    (∀ e ∈ sixteenTebibyteMap.entries, e.type = .usable → e.base + e.length ≤ 2 ^ 52) ∧
      ∃ s, initBitmapPmm sixteenTebibyteMap (fun _ => 0#8) = some s ∧ 2 ^ 31 < s.totalPages ∧
        ¬ OneBitPerFrame s.bitmap.size s.totalPages := by
  have hhome : bitmapHome (bitmapBytes (bytesToPages (highestAddr sixteenTebibyteMap.entries 0)))
      sixteenTebibyteMap.entries ≠ ulongMax := by decide +kernel
  have htotal : 2 ^ 31 < bytesToPages (highestAddr sixteenTebibyteMap.entries 0) := by
    decide +kernel
  obtain ⟨s, hinit⟩ : ∃ s, initBitmapPmm sixteenTebibyteMap (fun _ => 0#8) = some s := by
    simp only [initBitmapPmm, if_neg hhome]
    exact ⟨_, rfl⟩
  rw [← (initBitmapPmm_layout hinit).1] at htotal
  exact ⟨by simp [sixteenTebibyteMap, memmapInit], s, hinit, htotal, not_oneBitPerFrame htotal⟩

end Flos.Mm
