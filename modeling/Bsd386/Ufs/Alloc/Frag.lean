import Mathlib.Tactic.Ring
import Bsd386.Lib.Bitmap
import Bsd386.Lib.Runs

/-!
# The free map of a cylinder group and its runs

One bit for each fragment, set when it is free. A block is `frag` fragments, `frag` being 8, 4, 2 or 1,
so its bits lie in one byte. `blkmap` takes the bits of a block out of the map, and `fragacct` adds the
runs of free fragments in such a pattern to a histogram, or subtracts them, with the help of tables
computed beforehand.
-/

namespace Bsd386.Ufs.Alloc

open Function Lib List

/-! ## Bits and blocks -/

/-- A map of the free fragments, in bytes. Source: fs.h, cg_blksfree -/
abbrev FreeMap := ℕ → BitVec 8

/-- `setbit`. -/
def setbit (a : FreeMap) (i : ℕ) : FreeMap :=
  update a (i / 8) (a (i / 8) ||| 1#8 <<< (i % 8))

/-- `clrbit`. -/
def clrbit (a : FreeMap) (i : ℕ) : FreeMap :=
  update a (i / 8) (a (i / 8) &&& ~~~(1#8 <<< (i % 8)))

/-- `isclr`; `isset` is its negation. -/
def isclr (a : FreeMap) (i : ℕ) : Bool := a (i / 8) &&& 1#8 <<< (i % 8) == 0

/-- `isblock`: is block `h` free? The default case is a panic; a file system has no other `frag`. -/
def isblock (frag : ℕ) (cp : FreeMap) (h : ℕ) : Bool :=
  match frag with
  | 8 => cp h == 0xff
  | 4 => cp (h >>> 1) &&& 0x0f#8 <<< ((h &&& 0x1) <<< 2) == 0x0f#8 <<< ((h &&& 0x1) <<< 2)
  | 2 => cp (h >>> 2) &&& 0x03#8 <<< ((h &&& 0x3) <<< 1) == 0x03#8 <<< ((h &&& 0x3) <<< 1)
  | 1 => cp (h >>> 3) &&& 0x01#8 <<< (h &&& 0x7) == 0x01#8 <<< (h &&& 0x7)
  | _ => false

/-- `clrblock`: take block `h` out of the map. -/
def clrblock (frag : ℕ) (cp : FreeMap) (h : ℕ) : FreeMap :=
  match frag with
  | 8 => update cp h 0
  | 4 => update cp (h >>> 1) (cp (h >>> 1) &&& ~~~(0x0f#8 <<< ((h &&& 0x1) <<< 2)))
  | 2 => update cp (h >>> 2) (cp (h >>> 2) &&& ~~~(0x03#8 <<< ((h &&& 0x3) <<< 1)))
  | 1 => update cp (h >>> 3) (cp (h >>> 3) &&& ~~~(0x01#8 <<< (h &&& 0x7)))
  | _ => cp

/-- `setblock`: put block `h` into the map. -/
def setblock (frag : ℕ) (cp : FreeMap) (h : ℕ) : FreeMap :=
  match frag with
  | 8 => update cp h 0xff
  | 4 => update cp (h >>> 1) (cp (h >>> 1) ||| 0x0f#8 <<< ((h &&& 0x1) <<< 2))
  | 2 => update cp (h >>> 2) (cp (h >>> 2) ||| 0x03#8 <<< ((h &&& 0x3) <<< 1))
  | 1 => update cp (h >>> 3) (cp (h >>> 3) ||| 0x01#8 <<< (h &&& 0x7))
  | _ => cp

/-- `blkmap`: the bits of the block at fragment `loc`. -/
def blkmap (frag : ℕ) (map : FreeMap) (loc : ℕ) : ℕ :=
  (map (loc / 8)).toNat >>> (loc % 8) &&& 0xff >>> (8 - frag)

/-! ## The tables -/

/-- `around`. -/
def around : List ℕ := [0x3, 0x7, 0xf, 0x1f, 0x3f, 0x7f, 0xff, 0x1ff, 0x3ff]

/-- `inside`. -/
def inside : List ℕ := [0x0, 0x2, 0x6, 0xe, 0x1e, 0x3e, 0x7e, 0xfe, 0x1fe]

/-- `fragtbl124`. -/
def fragtbl124 : List ℕ := [
    0x00, 0x16, 0x16, 0x2a, 0x16, 0x16, 0x26, 0x4e, 0x16, 0x16, 0x16, 0x3e, 0x2a, 0x3e, 0x4e, 0x8a,
    0x16, 0x16, 0x16, 0x3e, 0x16, 0x16, 0x36, 0x5e, 0x16, 0x16, 0x16, 0x3e, 0x3e, 0x3e, 0x5e, 0x9e,
    0x16, 0x16, 0x16, 0x3e, 0x16, 0x16, 0x36, 0x5e, 0x16, 0x16, 0x16, 0x3e, 0x3e, 0x3e, 0x5e, 0x9e,
    0x2a, 0x3e, 0x3e, 0x2a, 0x3e, 0x3e, 0x2e, 0x6e, 0x3e, 0x3e, 0x3e, 0x3e, 0x2a, 0x3e, 0x6e, 0xaa,
    0x16, 0x16, 0x16, 0x3e, 0x16, 0x16, 0x36, 0x5e, 0x16, 0x16, 0x16, 0x3e, 0x3e, 0x3e, 0x5e, 0x9e,
    0x16, 0x16, 0x16, 0x3e, 0x16, 0x16, 0x36, 0x5e, 0x16, 0x16, 0x16, 0x3e, 0x3e, 0x3e, 0x5e, 0x9e,
    0x26, 0x36, 0x36, 0x2e, 0x36, 0x36, 0x26, 0x6e, 0x36, 0x36, 0x36, 0x3e, 0x2e, 0x3e, 0x6e, 0xae,
    0x4e, 0x5e, 0x5e, 0x6e, 0x5e, 0x5e, 0x6e, 0x4e, 0x5e, 0x5e, 0x5e, 0x7e, 0x6e, 0x7e, 0x4e, 0xce,
    0x16, 0x16, 0x16, 0x3e, 0x16, 0x16, 0x36, 0x5e, 0x16, 0x16, 0x16, 0x3e, 0x3e, 0x3e, 0x5e, 0x9e,
    0x16, 0x16, 0x16, 0x3e, 0x16, 0x16, 0x36, 0x5e, 0x16, 0x16, 0x16, 0x3e, 0x3e, 0x3e, 0x5e, 0x9e,
    0x16, 0x16, 0x16, 0x3e, 0x16, 0x16, 0x36, 0x5e, 0x16, 0x16, 0x16, 0x3e, 0x3e, 0x3e, 0x5e, 0x9e,
    0x3e, 0x3e, 0x3e, 0x3e, 0x3e, 0x3e, 0x3e, 0x7e, 0x3e, 0x3e, 0x3e, 0x3e, 0x3e, 0x3e, 0x7e, 0xbe,
    0x2a, 0x3e, 0x3e, 0x2a, 0x3e, 0x3e, 0x2e, 0x6e, 0x3e, 0x3e, 0x3e, 0x3e, 0x2a, 0x3e, 0x6e, 0xaa,
    0x3e, 0x3e, 0x3e, 0x3e, 0x3e, 0x3e, 0x3e, 0x7e, 0x3e, 0x3e, 0x3e, 0x3e, 0x3e, 0x3e, 0x7e, 0xbe,
    0x4e, 0x5e, 0x5e, 0x6e, 0x5e, 0x5e, 0x6e, 0x4e, 0x5e, 0x5e, 0x5e, 0x7e, 0x6e, 0x7e, 0x4e, 0xce,
    0x8a, 0x9e, 0x9e, 0xaa, 0x9e, 0x9e, 0xae, 0xce, 0x9e, 0x9e, 0x9e, 0xbe, 0xaa, 0xbe, 0xce, 0x8a]

/-- `fragtbl8`. -/
def fragtbl8 : List ℕ := [
    0x00, 0x01, 0x01, 0x02, 0x01, 0x01, 0x02, 0x04, 0x01, 0x01, 0x01, 0x03, 0x02, 0x03, 0x04, 0x08,
    0x01, 0x01, 0x01, 0x03, 0x01, 0x01, 0x03, 0x05, 0x02, 0x03, 0x03, 0x02, 0x04, 0x05, 0x08, 0x10,
    0x01, 0x01, 0x01, 0x03, 0x01, 0x01, 0x03, 0x05, 0x01, 0x01, 0x01, 0x03, 0x03, 0x03, 0x05, 0x09,
    0x02, 0x03, 0x03, 0x02, 0x03, 0x03, 0x02, 0x06, 0x04, 0x05, 0x05, 0x06, 0x08, 0x09, 0x10, 0x20,
    0x01, 0x01, 0x01, 0x03, 0x01, 0x01, 0x03, 0x05, 0x01, 0x01, 0x01, 0x03, 0x03, 0x03, 0x05, 0x09,
    0x01, 0x01, 0x01, 0x03, 0x01, 0x01, 0x03, 0x05, 0x03, 0x03, 0x03, 0x03, 0x05, 0x05, 0x09, 0x11,
    0x02, 0x03, 0x03, 0x02, 0x03, 0x03, 0x02, 0x06, 0x03, 0x03, 0x03, 0x03, 0x02, 0x03, 0x06, 0x0a,
    0x04, 0x05, 0x05, 0x06, 0x05, 0x05, 0x06, 0x04, 0x08, 0x09, 0x09, 0x0a, 0x10, 0x11, 0x20, 0x40,
    0x01, 0x01, 0x01, 0x03, 0x01, 0x01, 0x03, 0x05, 0x01, 0x01, 0x01, 0x03, 0x03, 0x03, 0x05, 0x09,
    0x01, 0x01, 0x01, 0x03, 0x01, 0x01, 0x03, 0x05, 0x03, 0x03, 0x03, 0x03, 0x05, 0x05, 0x09, 0x11,
    0x01, 0x01, 0x01, 0x03, 0x01, 0x01, 0x03, 0x05, 0x01, 0x01, 0x01, 0x03, 0x03, 0x03, 0x05, 0x09,
    0x03, 0x03, 0x03, 0x03, 0x03, 0x03, 0x03, 0x07, 0x05, 0x05, 0x05, 0x07, 0x09, 0x09, 0x11, 0x21,
    0x02, 0x03, 0x03, 0x02, 0x03, 0x03, 0x02, 0x06, 0x03, 0x03, 0x03, 0x03, 0x02, 0x03, 0x06, 0x0a,
    0x03, 0x03, 0x03, 0x03, 0x03, 0x03, 0x03, 0x07, 0x02, 0x03, 0x03, 0x02, 0x06, 0x07, 0x0a, 0x12,
    0x04, 0x05, 0x05, 0x06, 0x05, 0x05, 0x06, 0x04, 0x05, 0x05, 0x05, 0x07, 0x06, 0x07, 0x04, 0x0c,
    0x08, 0x09, 0x09, 0x0a, 0x09, 0x09, 0x0a, 0x0c, 0x10, 0x11, 0x11, 0x12, 0x20, 0x21, 0x40, 0x80]

/-- `fragtbl`: the table for each number of fragments in a block. -/
def fragtbl (frag : ℕ) : List ℕ :=
  match frag with
  | 1 => fragtbl124
  | 2 => fragtbl124
  | 4 => fragtbl124
  | 8 => fragtbl8
  | _ => []

/-- Does the pattern of a run of `siz` fragments fit at `pos` of a block? `field` and `subfield` have
been shifted `pos` times. Source: fragacct -/
def fits (blk siz pos : ℕ) : Bool :=
  blk <<< 1 &&& around.getD siz 0 <<< pos == inside.getD siz 0 <<< pos

/-- The inner loop of `fragacct`, which has made `shift` shifts; `pos` grows in each of the `fuel` turns.
Source: fragacct -/
def fragacctLoop (frag fragmap : ℕ) (cnt : ℤ) (siz : ℕ) : ℕ → ℕ → ℕ → (ℕ → ℤ) → (ℕ → ℤ)
  | 0, _, _, fraglist => fraglist
  | fuel + 1, pos, shift, fraglist =>
    if pos ≤ frag then
      if fits fragmap siz shift then
        fragacctLoop frag fragmap cnt siz fuel (pos + siz + 1) (shift + siz + 1)
          (update fraglist siz (fraglist siz + cnt))
      else fragacctLoop frag fragmap cnt siz fuel (pos + 1) (shift + 1) fraglist
    else fraglist

/-- `fragacct`. -/
def fragacct (frag fragmap : ℕ) (fraglist : ℕ → ℤ) (cnt : ℤ) : ℕ → ℤ :=
  let inblk := (fragtbl frag).getD fragmap 0 <<< 1
  (List.range' 1 (frag - 1)).foldl (fun fraglist siz =>
    if inblk &&& 1 <<< (siz + frag % 8) == 0 then fraglist
    else fragacctLoop frag fragmap cnt siz (frag + 1) siz 0 fraglist) fraglist

/-- `scanc`: the number of bytes left when the first byte is found whose entry in the table has a bit of
the mask. -/
def scanc (cp : FreeMap) (table : List ℕ) (mask : ℕ) : ℕ → ℕ → ℕ
  | 0, _ => 0
  | size + 1, at_ =>
    if table.getD (cp at_).toNat 0 &&& mask == 0 then scanc cp table mask size (at_ + 1)
    else size + 1

/-! ## What the operations do to the bits -/

theorem bit_setbit (a : FreeMap) (i j : ℕ) : bit (setbit a i) j = (bit a j || decide (j = i)) :=
  bit_or_one a i j

theorem bit_clrbit (a : FreeMap) (i j : ℕ) : bit (clrbit a i) j = (bit a j && !decide (j = i)) :=
  bit_and_not_one a i j

theorem isclr_eq (a : FreeMap) (i : ℕ) : isclr a i = !bit a i :=
  and_shiftLeft_beq_zero _ (Nat.mod_lt _ (by decide))

theorem shift_one (h : ℕ) : h >>> 1 = h / 2 ∧ (h &&& 0x1) <<< 2 = h % 2 * 4 := by
  rw [Nat.and_one_is_mod, Nat.shiftLeft_eq]
  exact ⟨Nat.shiftRight_eq_div_pow h 1, rfl⟩

theorem shift_two (h : ℕ) : h >>> 2 = h / 4 ∧ (h &&& 0x3) <<< 1 = h % 4 * 2 := by
  have hmod : h &&& 0x3 = h % 4 := Nat.and_two_pow_sub_one_eq_mod h 2
  rw [hmod, Nat.shiftLeft_eq]
  exact ⟨Nat.shiftRight_eq_div_pow h 2, rfl⟩

theorem shift_three (h : ℕ) : h >>> 3 = h / 8 ∧ h &&& 0x7 = h % 8 * 1 := by
  have hmod : h &&& 0x7 = h % 8 := Nat.and_two_pow_sub_one_eq_mod h 3
  rw [hmod, Nat.mul_one]
  exact ⟨Nat.shiftRight_eq_div_pow h 3, rfl⟩

section blocks

variable {frag : ℕ} (hw : IsWidth frag) (cp : FreeMap) (h : ℕ)
include hw

theorem clrblock_eq : clrblock frag cp h =
    update cp (h / (8 / frag))
      (cp (h / (8 / frag)) &&& ~~~fieldMask frag (h % (8 / frag))) := by
  rcases hw with rfl | rfl | rfl | rfl
  · have hzero : ∀ x : BitVec 8, x &&& ~~~fieldMask 8 0 = 0 := by decide
    rw [show 8 / 8 = 1 from rfl, Nat.div_one, Nat.mod_one, hzero]
    rfl
  · unfold clrblock
    rw [(shift_one h).1, (shift_one h).2]
    rfl
  · unfold clrblock
    rw [(shift_two h).1, (shift_two h).2]
    rfl
  · unfold clrblock
    rw [(shift_three h).1, (shift_three h).2]
    rfl

theorem setblock_eq : setblock frag cp h =
    update cp (h / (8 / frag)) (cp (h / (8 / frag)) ||| fieldMask frag (h % (8 / frag))) := by
  rcases hw with rfl | rfl | rfl | rfl
  · have hones : ∀ x : BitVec 8, x ||| fieldMask 8 0 = 0xff := by decide
    rw [show 8 / 8 = 1 from rfl, Nat.div_one, Nat.mod_one, hones]
    rfl
  · unfold setblock
    rw [(shift_one h).1, (shift_one h).2]
    rfl
  · unfold setblock
    rw [(shift_two h).1, (shift_two h).2]
    rfl
  · unfold setblock
    rw [(shift_three h).1, (shift_three h).2]
    rfl

theorem isblock_eq : isblock frag cp h =
    (cp (h / (8 / frag)) &&& fieldMask frag (h % (8 / frag)) == fieldMask frag (h % (8 / frag))) := by
  rcases hw with rfl | rfl | rfl | rfl
  · have hall : ∀ x : BitVec 8, (x == 0xff) = (x &&& fieldMask 8 0 == fieldMask 8 0) := by decide
    rw [show 8 / 8 = 1 from rfl, Nat.div_one, Nat.mod_one, ← hall]
    rfl
  · unfold isblock
    rw [(shift_one h).1, (shift_one h).2]
    rfl
  · unfold isblock
    rw [(shift_two h).1, (shift_two h).2]
    rfl
  · unfold isblock
    rw [(shift_three h).1, (shift_three h).2]
    rfl

theorem isblock_iff : isblock frag cp h = true ↔ ∀ j < frag, bit cp (h * frag + j) = true := by
  rw [isblock_eq hw, beq_iff_eq]
  exact hw.and_mask_eq_iff cp h

theorem bit_clrblock (i : ℕ) : bit (clrblock frag cp h) i =
    (bit cp i && !decide (h * frag ≤ i ∧ i < h * frag + frag)) := by
  rw [clrblock_eq hw]
  exact hw.bit_and_not_mask cp h i

theorem bit_setblock (i : ℕ) : bit (setblock frag cp h) i =
    (bit cp i || decide (h * frag ≤ i ∧ i < h * frag + frag)) := by
  rw [setblock_eq hw]
  exact hw.bit_or_mask cp h i

theorem testBit_blkmap {j : ℕ} (hj : j < frag) :
    (blkmap frag cp (h * frag)).testBit j = bit cp (h * frag + j) := by
  have hplace := hw.place h hj
  have hstart := hw.place h hw.pos
  rw [Nat.add_zero, Nat.add_zero] at hstart
  have hmask : 0xff >>> (8 - frag) = 2 ^ frag - 1 := by
    rcases hw with rfl | rfl | rfl | rfl
    · decide
    · decide
    · decide
    · decide
  unfold blkmap bit
  rw [hmask, Nat.and_two_pow_sub_one_eq_mod, Nat.testBit_mod_two_pow, decide_eq_true hj,
    Bool.true_and, Nat.testBit_shiftRight, hstart.1, hstart.2, hplace.1, hplace.2]
  rfl

theorem blkmap_lt : blkmap frag cp h < 2 ^ frag := by
  have hmask : 0xff >>> (8 - frag) < 2 ^ frag := by
    rcases hw with rfl | rfl | rfl | rfl
    · decide
    · decide
    · decide
    · decide
  exact Nat.lt_of_le_of_lt Nat.and_le_right hmask

end blocks

/-! ## Patterns -/

theorem testBit_around {n : ℕ} (hn : n ≤ 8) (i : ℕ) :
    (around.getD n 0).testBit i = decide (i < n + 2) := by
  have hall : ∀ n ≤ 8, around.getD n 0 = 2 ^ (n + 2) - 1 := by decide
  rw [hall n hn, Nat.testBit_two_pow_sub_one]

theorem testBit_inside {n : ℕ} (hn : n ≤ 8) (i : ℕ) :
    (inside.getD n 0).testBit i = decide (1 ≤ i ∧ i < n + 1) := by
  have hall : ∀ n ≤ 8, inside.getD n 0 = (2 ^ n - 1) <<< 1 := by decide
  rw [hall n hn, Nat.testBit_shiftLeft, Nat.testBit_two_pow_sub_one, ← Bool.decide_and]
  exact decide_eq_decide.mpr (by omega)

theorem fits_iff_bits {blk n pos : ℕ} (hn : n ≤ 8) : fits blk n pos = true ↔
    ∀ i < n + 2, (decide (1 ≤ pos + i) && blk.testBit (pos + i - 1)) = decide (1 ≤ i ∧ i < n + 1) := by
  unfold fits
  rw [beq_iff_eq]
  constructor
  · intro h i hi
    have hbit : (blk <<< 1 &&& around.getD n 0 <<< pos).testBit (pos + i) =
        (inside.getD n 0 <<< pos).testBit (pos + i) := by rw [h]
    rw [Nat.testBit_and, Nat.testBit_shiftLeft, Nat.testBit_shiftLeft, Nat.testBit_shiftLeft,
      Nat.add_sub_cancel_left, testBit_around hn, testBit_inside hn, decide_eq_true hi,
      decide_eq_true (show pos + i ≥ pos by omega), Bool.true_and, Bool.true_and,
      Bool.and_true] at hbit
    exact hbit
  · intro h
    apply Nat.eq_of_testBit_eq
    intro j
    rw [Nat.testBit_and, Nat.testBit_shiftLeft, Nat.testBit_shiftLeft, Nat.testBit_shiftLeft,
      testBit_around hn, testBit_inside hn]
    by_cases hj : pos ≤ j ∧ j - pos < n + 2
    · have hbit := h (j - pos) hj.2
      rw [Nat.add_sub_cancel' hj.1] at hbit
      rw [decide_eq_true (show j ≥ pos from hj.1), decide_eq_true hj.2, Bool.true_and, Bool.true_and,
        Bool.and_true]
      exact hbit
    -- outside the mask both sides are clear
    have hin : (decide (j ≥ pos) && decide (1 ≤ j - pos ∧ j - pos < n + 1)) = false := by
      rw [← Bool.decide_and]
      exact decide_eq_false (by omega)
    have hout : (decide (j ≥ pos) && decide (j - pos < n + 2)) = false := by
      rw [← Bool.decide_and]
      exact decide_eq_false hj
    rw [hin, hout, Bool.and_false]

/-- **Patterns.** The pattern of a length fits exactly where a maximal run of that length begins. -/
theorem fits_iff {frag blk n pos : ℕ} (hblk : blk < 2 ^ frag) (hn : 1 ≤ n) (hn8 : n ≤ 8) :
    fits blk n pos = true ↔ IsRun blk.testBit frag pos n := by
  have hbeyond : ∀ i, frag ≤ i → blk.testBit i = false := fun i hi =>
    Nat.testBit_lt_two_pow (Nat.lt_of_lt_of_le hblk (Nat.pow_le_pow_right (by decide) hi))
  rw [fits_iff_bits hn8]
  constructor
  · intro h
    have hbits : ∀ i < n, blk.testBit (pos + i) = true := by
      intro i hi
      have hbit := h (i + 1) (by omega)
      rw [decide_eq_true (show 1 ≤ pos + (i + 1) by omega),
        decide_eq_true (show 1 ≤ i + 1 ∧ i + 1 < n + 1 by omega), Bool.true_and] at hbit
      exact hbit
    refine ⟨?_, hbits, ?_, ?_⟩
    · by_contra hgt
      have hlast := hbits (n - 1) (by omega)
      rw [hbeyond _ (by omega)] at hlast
      exact absurd hlast (by decide)
    · rcases Nat.eq_zero_or_pos pos with h0 | hpos
      · exact Or.inl h0
      · have hbit := h 0 (by omega)
        rw [decide_eq_true (show 1 ≤ pos + 0 from hpos), Bool.true_and] at hbit
        exact Or.inr hbit
    · have hbit := h (n + 1) (by omega)
      rw [decide_eq_true (show 1 ≤ pos + (n + 1) by omega),
        decide_eq_false (show ¬(1 ≤ n + 1 ∧ n + 1 < n + 1) by omega), Bool.true_and] at hbit
      exact Or.inr hbit
  · intro h i hi
    by_cases h0 : i = 0
    · -- the bit before the run
      subst h0
      rw [decide_eq_false (show ¬(1 ≤ 0 ∧ 0 < n + 1) by omega)]
      rcases h.left with hp | hoff
      · rw [decide_eq_false (show ¬ 1 ≤ pos + 0 by omega), Bool.false_and]
      · rw [Nat.add_zero, hoff, Bool.and_false]
    · rw [decide_eq_true (show 1 ≤ pos + i by omega), Bool.true_and]
      by_cases hin : i < n + 1
      · have hbit := h.bits (i - 1) (by omega)
        rw [show pos + i - 1 = pos + (i - 1) by omega, hbit]
        exact (decide_eq_true (by omega)).symm
      -- the bit after it
      rw [decide_eq_false (show ¬(1 ≤ i ∧ i < n + 1) by omega),
        show pos + i - 1 = pos + n by omega]
      rcases h.right with hend | hoff
      · exact hbeyond _ (by omega)
      · exact hoff

theorem isRun_of_fits {frag : ℕ} (hw : IsWidth frag) (cp : FreeMap) (h : ℕ) {n pos : ℕ} (hn : 1 ≤ n)
    (hn8 : n ≤ 8) (hfits : fits (blkmap frag cp (h * frag)) n pos = true) :
    IsRun (fun j => bit cp (h * frag + j)) frag pos n :=
  ((fits_iff (blkmap_lt hw cp _) hn hn8).mp hfits).congr
    (fun _ hj => (testBit_blkmap hw cp h hj).symm) hn

/-! ## The histogram -/

theorem fragacctLoop_apply {frag blk siz : ℕ} (hblk : blk < 2 ^ frag) (hs : 1 ≤ siz) (hs8 : siz ≤ 8)
    (cnt : ℤ) {fuel shift : ℕ} (hfuel : frag < fuel + shift + siz) (fraglist : ℕ → ℤ) (k : ℕ) :
    fragacctLoop frag blk cnt siz fuel (shift + siz) shift fraglist k = fraglist k +
      if k = siz then
        cnt * ((Finset.Ico shift frag).filter (IsRun blk.testBit frag · siz)).card
      else 0 := by
  have hshort : ∀ {shift}, frag < shift + siz →
      (Finset.Ico shift frag).filter (IsRun blk.testBit frag · siz) = ∅ := by
    intro shift hgt
    rw [Finset.filter_eq_empty_iff]
    intro p hp hrun
    have hle := hrun.le
    have hpl := (Finset.mem_Ico.mp hp).1
    omega
  induction fuel generalizing shift fraglist with
  | zero =>
    rw [hshort (by omega), Finset.card_empty, Nat.cast_zero, Int.mul_zero, ite_self, Int.add_zero]
    rfl
  | succ fuel ih =>
    unfold fragacctLoop
    by_cases hpos : shift + siz ≤ frag
    · rw [if_pos hpos]
      have hsplit : Finset.Ico shift frag = insert shift (Finset.Ico (shift + 1) frag) := by
        ext p
        rw [Finset.mem_insert, Finset.mem_Ico, Finset.mem_Ico]
        omega
      by_cases hfits : fits blk siz shift = true
      · rw [if_pos hfits, show shift + siz + siz + 1 = shift + siz + 1 + siz by omega,
          ih (by omega)]
        have hrun := (fits_iff hblk hs hs8).mp hfits
        have hcount : (Finset.Ico shift frag).filter (IsRun blk.testBit frag · siz) =
            insert shift
              ((Finset.Ico (shift + siz + 1) frag).filter (IsRun blk.testBit frag · siz)) := by
          ext p
          rw [Finset.mem_insert, Finset.mem_filter, Finset.mem_filter, Finset.mem_Ico,
            Finset.mem_Ico]
          constructor
          · rintro ⟨hp, hrun'⟩
            by_cases hne : p = shift
            · exact Or.inl hne
            · have hapart := hrun.disjoint hrun' hne
              exact Or.inr ⟨by omega, hrun'⟩
          · rintro (rfl | ⟨hp, hrun'⟩)
            · exact ⟨by omega, hrun⟩
            · exact ⟨by omega, hrun'⟩
        have hnot : shift ∉
            (Finset.Ico (shift + siz + 1) frag).filter (IsRun blk.testBit frag · siz) := by
          rw [Finset.mem_filter, Finset.mem_Ico]
          omega
        rw [hcount, Finset.card_insert_of_notMem hnot]
        by_cases hk : k = siz
        · subst hk
          rw [if_pos rfl, if_pos rfl, update_self]
          push_cast
          ring
        · rw [if_neg hk, if_neg hk, update_of_ne hk]
      · rw [if_neg hfits, show shift + siz + 1 = shift + 1 + siz by omega, ih (by omega), hsplit,
          Finset.filter_insert, if_neg fun hrun => hfits ((fits_iff hblk hs hs8).mpr hrun)]
    · rw [if_neg hpos, hshort (by omega), Finset.card_empty, Nat.cast_zero, Int.mul_zero, ite_self,
        Int.add_zero]

theorem length_fragtbl {frag : ℕ} (hw : IsWidth frag) : (fragtbl frag).length = 256 := by
  rcases hw with rfl | rfl | rfl | rfl
  · decide +kernel
  · decide +kernel
  · decide +kernel
  · decide +kernel

theorem fragtbl_spec {frag : ℕ} (hw : IsWidth frag) {blk : ℕ} (hblk : blk < 2 ^ frag) {k : ℕ}
    (hk : 1 ≤ k) (hkf : k < frag) :
    ((fragtbl frag).getD blk 0 <<< 1 &&& 1 <<< (k + frag % 8) == 0) =
      (List.range frag).all fun pos => !fits blk k pos := by
  have hall : (((fragtbl frag).take (2 ^ frag)).zipIdx.all fun e =>
      (range' 1 (frag - 1)).all fun k => (e.1 <<< 1 &&& 1 <<< (k + frag % 8) == 0) ==
        (range frag).all fun pos => !fits e.2 k pos) = true := by
    rcases hw with rfl | rfl | rfl | rfl
    · decide +kernel
    · decide +kernel
    · decide +kernel
    · decide +kernel
  have hlt : blk < (fragtbl frag).length := by
    rw [length_fragtbl hw]
    exact Nat.lt_of_lt_of_le hblk (Nat.pow_le_pow_right (by decide) hw.le)
  have hmem : ((fragtbl frag).getD blk 0, blk) ∈ ((fragtbl frag).take (2 ^ frag)).zipIdx := by
    rw [mk_mem_zipIdx_iff_getElem?, getElem?_take_of_lt hblk, getElem?_eq_getElem hlt,
      ← getElem_eq_getD 0]
  have hrow := all_eq_true.mp hall _ hmem
  exact eq_of_beq (all_eq_true.mp hrow k (mem_range'_1.mpr (by omega)))

section sizes

variable {turn : (ℕ → ℤ) → ℕ → ℕ → ℤ} {count : ℕ → ℤ} {k : ℕ}

theorem foldl_sizes_of_notMem {n first : ℕ} (fraglist : ℕ → ℤ)
    (hturn : ∀ fraglist siz, first ≤ siz → siz < first + n →
      turn fraglist siz k = fraglist k + if k = siz then count siz else 0)
    (hout : k < first ∨ first + n ≤ k) :
    (List.range' first n).foldl turn fraglist k = fraglist k := by
  induction n generalizing first fraglist with
  | zero => rfl
  | succ n ih =>
    rw [range'_succ, foldl_cons,
      ih _ (fun l siz h1 h2 => hturn l siz (by omega) (by omega)) (by omega),
      hturn _ first (Nat.le_refl _) (by omega), if_neg (by omega), Int.add_zero]

theorem foldl_sizes {n first : ℕ} (fraglist : ℕ → ℤ)
    (hturn : ∀ fraglist siz, first ≤ siz → siz < first + n →
      turn fraglist siz k = fraglist k + if k = siz then count siz else 0)
    (hk : first ≤ k) (hkn : k < first + n) :
    (List.range' first n).foldl turn fraglist k = fraglist k + count k := by
  induction n generalizing first fraglist with
  | zero => omega
  | succ n ih =>
    rw [range'_succ, foldl_cons]
    by_cases hfirst : k = first
    · subst hfirst
      rw [foldl_sizes_of_notMem _ (fun l siz h1 h2 => hturn l siz (by omega) (by omega))
        (Or.inl (Nat.lt_succ_self k)), hturn _ k (Nat.le_refl _) (by omega), if_pos rfl]
    · rw [ih _ (fun l siz h1 h2 => hturn l siz (by omega) (by omega)) (by omega) (by omega),
        hturn _ first (Nat.le_refl _) (by omega), if_neg hfirst, Int.add_zero]

end sizes

/-- **The histogram.** `fragacct` adds `cnt` times the number of maximal runs of each length. -/
theorem fragacct_apply {frag : ℕ} (hw : IsWidth frag) (cp : FreeMap) (h : ℕ) (fraglist : ℕ → ℤ)
    (cnt : ℤ) {k : ℕ} (hk : 1 ≤ k) (hkf : k < frag) :
    fragacct frag (blkmap frag cp (h * frag)) fraglist cnt k =
      fraglist k + cnt * runCount (fun j => bit cp (h * frag + j)) frag k := by
  have hblk := blkmap_lt hw cp (h * frag)
  have hle := hw.le
  have hbits : ∀ j < frag, bit cp (h * frag + j) = (blkmap frag cp (h * frag)).testBit j :=
    fun j hj => (testBit_blkmap hw cp h hj).symm
  rw [runCount_congr hbits hk]
  generalize blkmap frag cp (h * frag) = blk at hblk
  suffices hturn : ∀ (fraglist : ℕ → ℤ) (siz : ℕ), 1 ≤ siz → siz < 1 + (frag - 1) →
      (if (fragtbl frag).getD blk 0 <<< 1 &&& 1 <<< (siz + frag % 8) == 0 then fraglist
        else fragacctLoop frag blk cnt siz (frag + 1) siz 0 fraglist) k =
        fraglist k + if k = siz then cnt * (runCount blk.testBit frag siz : ℤ) else 0 by
    exact foldl_sizes fraglist hturn hk (by omega)
  intro fraglist siz hs hsf
  have htbl := fragtbl_spec hw hblk hs (show siz < frag by omega)
  have hloop := fragacctLoop_apply hblk hs (by omega) cnt (show frag < frag + 1 + 0 + siz by omega)
    fraglist k
  rw [Nat.zero_add, ← Finset.range_eq_Ico] at hloop
  by_cases hclear : ((fragtbl frag).getD blk 0 <<< 1 &&& 1 <<< (siz + frag % 8) == 0) = true
  · -- no bit in the table: there is no run of the length
    rw [if_pos hclear]
    rw [htbl, all_eq_true] at hclear
    have hnone : runCount blk.testBit frag siz = 0 := by
      unfold runCount
      rw [Finset.card_eq_zero, Finset.filter_eq_empty_iff]
      intro p hp hrun
      have hnot := hclear p (mem_range.mpr (Finset.mem_range.mp hp))
      rw [(fits_iff hblk hs (by omega)).mpr hrun] at hnot
      exact absurd hnot (by decide)
    rw [hnone, Nat.cast_zero, Int.mul_zero, ite_self, Int.add_zero]
  · rw [if_neg hclear]
    exact hloop

end Bsd386.Ufs.Alloc
