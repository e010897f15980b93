import Mathlib.Tactic.Common
import Mathlib.Algebra.Ring.Nat

/-!
# Maps of bits kept in bytes or words

A map of bits is a function from the numbers of bytes, or of words, to their values; bit `i` is bit
`i % 8` of byte `i / 8`.

* `wordBit_or_one`, `wordBit_and_not_one`: turning one bit on or off, by a mask of one bit, changes that
  bit only. `bit_or_one`, `bit_and_not_one`: the same for bytes.
* `bit_or_mask`, `bit_and_not_mask`, `and_mask_eq_iff`: the same for a field of 1, 2, 4 or 8 bits, which
  never crosses a byte.
-/

namespace Bsd386.Lib

open Function BitVec

/-- Bit `i` of a map kept in words of `w` bits. -/
def wordBit {w : ℕ} (a : ℕ → BitVec w) (i : ℕ) : Bool := (a (i / w)).getLsbD (i % w)

/-- Bit `i` of a map kept in bytes. -/
def bit (a : ℕ → BitVec 8) (i : ℕ) : Bool := (a (i / 8)).getLsbD (i % 8)

section words

variable {w : ℕ} (a : ℕ → BitVec w)

theorem wordBit_update (k : ℕ) (v : BitVec w) (j : ℕ) :
    wordBit (update a k v) j = if j / w = k then v.getLsbD (j % w) else wordBit a j := by
  unfold wordBit
  rw [update_apply]
  split_ifs
  · rfl
  · rfl

theorem bit_update (a : ℕ → BitVec 8) (k : ℕ) (v : BitVec 8) (j : ℕ) :
    bit (update a k v) j = if j / 8 = k then v.getLsbD (j % 8) else bit a j :=
  wordBit_update a k v j

/-! ## One bit -/

theorem getLsbD_one_shiftLeft (k : ℕ) {i : ℕ} (hi : i < w) :
    (1#w <<< k).getLsbD i = decide (i = k) := by
  have hw : 0 < w := Nat.lt_of_le_of_lt (Nat.zero_le i) hi
  rw [getLsbD_shiftLeft, getLsbD_one]
  by_cases hik : i = k
  · subst hik
    simp [hi, hw]
  have hor : i < k ∨ ¬i - k = 0 := by omega
  rcases hor with hor | hor
  · simp [hik, hor]
  · simp [hik, hor]

theorem mod_eq_mod_iff_of_div_eq {i j : ℕ} (hdiv : j / w = i / w) : j % w = i % w ↔ j = i := by
  constructor
  · intro hmod
    rw [← Nat.div_add_mod j w, ← Nat.div_add_mod i w, hdiv, hmod]
  · rintro rfl
    rfl

theorem wordBit_or_one (hw : 0 < w) (i j : ℕ) :
    wordBit (update a (i / w) (a (i / w) ||| 1#w <<< (i % w))) j =
      (wordBit a j || decide (j = i)) := by
  rw [wordBit_update]
  by_cases hdiv : j / w = i / w
  · rw [if_pos hdiv, ← hdiv, getLsbD_or, getLsbD_one_shiftLeft _ (Nat.mod_lt _ hw),
      decide_eq_decide.mpr (mod_eq_mod_iff_of_div_eq hdiv)]
    rfl
  · have hj : j ≠ i := fun h => hdiv (by rw [h])
    rw [if_neg hdiv, decide_eq_false hj, Bool.or_false]

theorem wordBit_and_not_one (hw : 0 < w) (i j : ℕ) :
    wordBit (update a (i / w) (a (i / w) &&& ~~~(1#w <<< (i % w)))) j =
      (wordBit a j && !decide (j = i)) := by
  rw [wordBit_update]
  by_cases hdiv : j / w = i / w
  · have hlt : j % w < w := Nat.mod_lt _ hw
    rw [if_pos hdiv, ← hdiv, getLsbD_and, getLsbD_not, getLsbD_one_shiftLeft _ hlt,
      decide_eq_decide.mpr (mod_eq_mod_iff_of_div_eq hdiv), decide_eq_true hlt, Bool.true_and]
    rfl
  · have hj : j ≠ i := fun h => hdiv (by rw [h])
    rw [if_neg hdiv, decide_eq_false hj, Bool.not_false, Bool.and_true]

theorem bit_or_one (a : ℕ → BitVec 8) (i j : ℕ) :
    bit (update a (i / 8) (a (i / 8) ||| 1#8 <<< (i % 8))) j =
      (bit a j || decide (j = i)) := wordBit_or_one a (by decide) i j

theorem bit_and_not_one (a : ℕ → BitVec 8) (i j : ℕ) :
    bit (update a (i / 8) (a (i / 8) &&& ~~~(1#8 <<< (i % 8)))) j =
      (bit a j && !decide (j = i)) := wordBit_and_not_one a (by decide) i j

theorem and_shiftLeft_beq_zero (b : BitVec w) {i : ℕ} (hi : i < w) :
    (b &&& 1#w <<< i == 0) = !b.getLsbD i := by
  rw [Bool.eq_iff_iff, beq_iff_eq, Bool.not_eq_true']
  constructor
  · intro h
    have hbit : (b &&& 1#w <<< i).getLsbD i = false := by
      rw [h]
      exact getLsbD_zero
    rw [getLsbD_and, getLsbD_one_shiftLeft _ hi, decide_eq_true rfl, Bool.and_true] at hbit
    exact hbit
  · intro h
    apply eq_of_getLsbD_eq
    intro j hj
    rw [getLsbD_and, getLsbD_one_shiftLeft _ hj]
    by_cases hji : j = i
    · rw [hji, h]
      exact getLsbD_zero.symm
    · rw [decide_eq_false hji, Bool.and_false]
      exact getLsbD_zero.symm

end words

/-! ## Fields of bits -/

def IsWidth (w : ℕ) : Prop := w = 8 ∨ w = 4 ∨ w = 2 ∨ w = 1

/-- The mask of field `r` of a byte. -/
def fieldMask (w r : ℕ) : BitVec 8 := BitVec.ofNat 8 (2 ^ w - 1) <<< (r * w)

section fields

variable {w : ℕ} (hw : IsWidth w) (a : ℕ → BitVec 8)
include hw

theorem IsWidth.place (h : ℕ) {j : ℕ} (hj : j < w) :
    (h * w + j) / 8 = h / (8 / w) ∧ (h * w + j) % 8 = h % (8 / w) * w + j := by
  rcases hw with rfl | rfl | rfl | rfl
  · omega
  · omega
  · omega
  · omega

theorem IsWidth.bit_field (h : ℕ) {j : ℕ} (hj : j < w) :
    bit a (h * w + j) = (a (h / (8 / w))).getLsbD (h % (8 / w) * w + j) := by
  unfold bit
  rw [(hw.place h hj).1, (hw.place h hj).2]

theorem IsWidth.pos : 0 < w := by
  rcases hw with rfl | rfl | rfl | rfl
  · decide
  · decide
  · decide
  · decide

theorem IsWidth.le : w ≤ 8 := by
  rcases hw with rfl | rfl | rfl | rfl
  · decide
  · decide
  · decide
  · decide

theorem IsWidth.mod_lt (h : ℕ) : h % (8 / w) < 8 / w :=
  Nat.mod_lt _ (Nat.div_pos hw.le hw.pos)

theorem IsWidth.getLsbD_fieldMask {r i : ℕ} (hr : r < 8 / w) (hi : i < 8) :
    (fieldMask w r).getLsbD i = decide (r * w ≤ i ∧ i < r * w + w) := by
  have hall : ∀ r < 8 / w, ∀ i < 8,
      (fieldMask w r).getLsbD i = decide (r * w ≤ i ∧ i < r * w + w) := by
    rcases hw with rfl | rfl | rfl | rfl
    · decide
    · decide
    · decide
    · decide
  exact hall r hr i hi

theorem IsWidth.mem_field_iff (h i : ℕ) :
    (h * w ≤ i ∧ i < h * w + w) ↔
      i / 8 = h / (8 / w) ∧ h % (8 / w) * w ≤ i % 8 ∧ i % 8 < h % (8 / w) * w + w := by
  rcases hw with rfl | rfl | rfl | rfl
  · omega
  · omega
  · omega
  · omega

theorem IsWidth.bit_or_mask (h i : ℕ) :
    bit (update a (h / (8 / w)) (a (h / (8 / w)) ||| fieldMask w (h % (8 / w)))) i =
      (bit a i || decide (h * w ≤ i ∧ i < h * w + w)) := by
  have hmem := hw.mem_field_iff h i
  rw [bit_update]
  by_cases hdiv : i / 8 = h / (8 / w)
  · have hbyte : a (i / 8) = a (h / (8 / w)) := by rw [hdiv]
    rw [if_pos hdiv, getLsbD_or,
      hw.getLsbD_fieldMask (hw.mod_lt h) (Nat.mod_lt _ (by decide)),
      decide_eq_decide.mpr (hmem.trans (and_iff_right hdiv)), ← hbyte]
    rfl
  · rw [if_neg hdiv, decide_eq_false fun hin => hdiv (hmem.mp hin).1, Bool.or_false]

theorem IsWidth.bit_and_not_mask (h i : ℕ) :
    bit (update a (h / (8 / w)) (a (h / (8 / w)) &&& ~~~fieldMask w (h % (8 / w)))) i =
      (bit a i && !decide (h * w ≤ i ∧ i < h * w + w)) := by
  have hmem := hw.mem_field_iff h i
  have hlt : i % 8 < 8 := Nat.mod_lt _ (by decide)
  rw [bit_update]
  by_cases hdiv : i / 8 = h / (8 / w)
  · have hbyte : a (i / 8) = a (h / (8 / w)) := by rw [hdiv]
    rw [if_pos hdiv, getLsbD_and, getLsbD_not,
      hw.getLsbD_fieldMask (hw.mod_lt h) hlt,
      decide_eq_decide.mpr (hmem.trans (and_iff_right hdiv)), decide_eq_true hlt, Bool.true_and,
      ← hbyte]
    rfl
  · rw [if_neg hdiv, decide_eq_false fun hin => hdiv (hmem.mp hin).1, Bool.not_false, Bool.and_true]

theorem IsWidth.and_mask_eq_iff (h : ℕ) :
    a (h / (8 / w)) &&& fieldMask w (h % (8 / w)) = fieldMask w (h % (8 / w)) ↔
      ∀ j < w, bit a (h * w + j) = true := by
  constructor
  · intro heq j hj
    have hplace := hw.place h hj
    have hlt : (h * w + j) % 8 < 8 := Nat.mod_lt _ (by decide)
    have hbit : (a (h / (8 / w)) &&& fieldMask w (h % (8 / w))).getLsbD ((h * w + j) % 8) = true := by
      rw [heq, hw.getLsbD_fieldMask (hw.mod_lt h) hlt]
      exact decide_eq_true (by omega)
    rw [getLsbD_and, Bool.and_eq_true] at hbit
    unfold bit
    rw [hplace.1]
    exact hbit.1
  · intro hbits
    apply eq_of_getLsbD_eq
    intro i hi
    rw [getLsbD_and, hw.getLsbD_fieldMask (hw.mod_lt h) hi]
    by_cases hmem : h % (8 / w) * w ≤ i ∧ i < h % (8 / w) * w + w
    · have hbit := hbits (i - h % (8 / w) * w) (by omega)
      rw [hw.bit_field a h (by omega), Nat.add_sub_cancel' hmem.1] at hbit
      rw [hbit, Bool.true_and]
    · rw [decide_eq_false hmem, Bool.and_false]

end fields

end Bsd386.Lib
