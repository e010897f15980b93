import Bsd386.Lib.Bytes
import Mathlib.Tactic.Ring

/-!
# One's complement addition

A 16-bit one's complement sum adds the carry out of the word back in at its other end
(`onesAdd`), so that two sums which differ by multiples of `65535` are one, zero apart: `Same a b`.
Where both are below `65536` they are equal (`Same.eq_of_le`).

`byteSum odd l` is the plain sum of the bytes of `l` at their places in a row of little-endian
words, the first byte of `l` being the second of its word when `odd`.
-/

namespace Bsd386.Lib.Bytes

open List

/-! ## Sums up to the end-around carry -/

/-- Two plain sums have one one's complement value. -/
def Same (a b : ℕ) : Prop := a % 65535 = b % 65535 ∧ (a = 0 ↔ b = 0)

namespace Same

variable {a b c d : ℕ}

theorem refl (a : ℕ) : Same a a := ⟨rfl, Iff.rfl⟩

theorem symm (h : Same a b) : Same b a := ⟨h.1.symm, h.2.symm⟩

theorem trans (h : Same a b) (h' : Same b c) : Same a c := ⟨h.1.trans h'.1, h.2.trans h'.2⟩

theorem add (h : Same a b) (h' : Same c d) : Same (a + c) (b + d) := by
  obtain ⟨hm, hz⟩ := h
  obtain ⟨hm', hz'⟩ := h'
  constructor <;> omega

theorem add_right (h : Same a b) (c : ℕ) : Same (a + c) (b + c) := h.add (refl c)

theorem shift (h : Same a b) : Same (256 * a) (256 * b) := by
  obtain ⟨hm, hz⟩ := h
  constructor <;> omega

theorem shift_shift (a : ℕ) : Same (256 * (256 * a)) a := by
  constructor <;> omega

theorem eq_of_le (h : Same a b) (ha : a ≤ 65535) (hb : b ≤ 65535) : a = b := by
  obtain ⟨hm, hz⟩ := h
  omega

end Same

/-- The sum of two words with the carry added back in. -/
def onesAdd (a b : ℕ) : ℕ := if a + b ≤ 65535 then a + b else a + b - 65535

/-- The words added one after the other. -/
def onesSum (ws : List ℕ) : ℕ := ws.foldl onesAdd 0

theorem same_onesAdd (a b : ℕ) : Same (onesAdd a b) (a + b) := by
  rw [onesAdd]
  split <;> constructor <;> omega

theorem onesAdd_le {a b : ℕ} (ha : a ≤ 65535) (hb : b ≤ 65535) : onesAdd a b ≤ 65535 := by
  rw [onesAdd]
  split <;> omega

theorem same_foldl_onesAdd (ws : List ℕ) (a : ℕ) : Same (ws.foldl onesAdd a) (a + ws.sum) := by
  induction ws generalizing a with
  | nil => exact Same.refl a
  | cons w ws ih =>
    rw [foldl_cons, sum_cons, ← Nat.add_assoc]
    exact (ih (onesAdd a w)).trans ((same_onesAdd a w).add_right _)

theorem same_onesSum (ws : List ℕ) : Same (onesSum ws) ws.sum := by
  have h := same_foldl_onesAdd ws 0
  rwa [Nat.zero_add] at h

theorem foldl_onesAdd_le {ws : List ℕ} (hws : ∀ w ∈ ws, w ≤ 65535) {a : ℕ} (ha : a ≤ 65535) :
    ws.foldl onesAdd a ≤ 65535 := by
  induction ws generalizing a with
  | nil => exact ha
  | cons w ws ih =>
    rw [foldl_cons]
    exact ih (fun v hv => hws v (mem_cons_of_mem w hv))
      (onesAdd_le ha (hws w mem_cons_self))

/-! ## Rows of bytes -/

/-- The little-endian words of a row of bytes, a last odd byte padded with zero. -/
def words : List Byte → List ℕ
  | [] => []
  | [b] => [b.toNat]
  | b :: b' :: l => (b.toNat + 256 * b'.toNat) :: words l

theorem words_le (l : List Byte) : ∀ w ∈ words l, w ≤ 65535 := by
  fun_induction words l with
  | case1 => exact fun w hw => absurd hw not_mem_nil
  | case2 b =>
    intro w hw
    rw [mem_singleton.mp hw]
    omega
  | case3 b b' l ih =>
    intro w hw
    rcases mem_cons.mp hw with rfl | hw
    · have hb := b.isLt
      omega
    · exact ih w hw

/-- The bytes at their places in a row of little-endian words; the first is the second byte of its
word when `odd`. -/
def byteSum : Bool → List Byte → ℕ
  | _, [] => 0
  | odd, b :: l => (bif odd then 256 * b.toNat else b.toNat) + byteSum (!odd) l

theorem byteSum_cons (odd : Bool) (b : Byte) (l : List Byte) :
    byteSum odd (b :: l) = (bif odd then 256 * b.toNat else b.toNat) + byteSum (!odd) l := rfl

theorem sum_words (l : List Byte) : (words l).sum = byteSum false l := by
  fun_induction words l with
  | case1 => rfl
  | case2 b => rfl
  | case3 b b' l ih =>
    simp only [sum_cons, ih, byteSum, cond_false, cond_true, Bool.not_false, Bool.not_true]
    omega

/-- Whether a row has an odd number of bytes. -/
def oddLength (l : List Byte) : Bool := l.length % 2 == 1

theorem oddLength_cons (b : Byte) (l : List Byte) : oddLength (b :: l) = !oddLength l := by
  rw [oddLength, oddLength, length_cons]
  rcases Nat.mod_two_eq_zero_or_one l.length with h | h
  · rw [h, Nat.succ_mod_two_eq_one_iff.mpr h]
    rfl
  · rw [h, Nat.succ_mod_two_eq_zero_iff.mpr h]
    rfl

theorem byteSum_append (odd : Bool) (l r : List Byte) :
    byteSum odd (l ++ r) = byteSum odd l + byteSum (xor odd (oddLength l)) r := by
  induction l generalizing odd with
  | nil =>
    have h : xor odd (oddLength []) = odd := Bool.xor_false odd
    rw [h, byteSum, Nat.zero_add]
    rfl
  | cons b l ih =>
    have h : xor (!odd) (oddLength l) = xor odd (oddLength (b :: l)) := by
      rw [oddLength_cons, Bool.not_xor, Bool.xor_not]
    rw [cons_append, byteSum_cons, byteSum_cons, ih, h, Nat.add_assoc]

theorem same_shift (odd : Bool) (l : List Byte) :
    Same (256 * byteSum odd l) (byteSum (!odd) l) := by
  induction l generalizing odd with
  | nil => exact Same.refl 0
  | cons b l ih =>
    have hb : Same (256 * bif odd then 256 * b.toNat else b.toNat)
        (bif !odd then 256 * b.toNat else b.toNat) := by
      cases odd
      · exact Same.refl _
      · exact Same.shift_shift _
    rw [byteSum_cons, byteSum_cons, Nat.mul_add]
    exact hb.add (ih (!odd))

theorem byteSum_le (odd : Bool) (l : List Byte) :
    byteSum odd l ≤ 32768 * l.length + bif odd then 32512 else 0 := by
  induction l generalizing odd with
  | nil => exact Nat.zero_le _
  | cons b l ih =>
    have h := ih (!odd)
    rw [byteSum_cons, length_cons]
    cases odd <;> simp only [cond_true, cond_false, Bool.not_true, Bool.not_false] at h ⊢ <;>
      omega

/-! ## Rows in memory -/

/-- The `n` bytes from address `w` on. -/
def row (h : Mem) (w n : ℕ) : List Byte := (List.range n).map fun i => h (w + i)

@[simp] theorem length_row (h : Mem) (w n : ℕ) : (row h w n).length = n := by
  rw [row, length_map, length_range]

theorem row_add (h : Mem) (w m n : ℕ) : row h w (m + n) = row h w m ++ row h (w + m) n := by
  rw [row, row, row, range_add, map_append, map_map]
  congr 1
  refine map_congr_left fun i _ => ?_
  rw [Function.comp_apply, Nat.add_assoc]

theorem row_succ (h : Mem) (w n : ℕ) : row h w (n + 1) = h w :: row h (w + 1) n := by
  rw [Nat.add_comm, row_add]
  rfl

theorem take_row (h : Mem) (w : ℕ) {m n : ℕ} (hmn : m ≤ n) : (row h w n).take m = row h w m := by
  obtain ⟨k, rfl⟩ := Nat.exists_eq_add_of_le hmn
  rw [row_add]
  exact take_left' (length_row h w m)

theorem oddLength_row_two_mul (h : Mem) (w k : ℕ) : oddLength (row h w (2 * k)) = false := by
  rw [oddLength, length_row, Nat.mul_mod_right]
  rfl

theorem byteSum_row_succ (h : Mem) (w k : ℕ) :
    byteSum false (row h w (2 * (k + 1))) =
      byteSum false (row h w (2 * k)) + hostWord h (w + 2 * k) := by
  rw [Nat.mul_succ, row_add, byteSum_append, oddLength_row_two_mul]
  rfl

end Bsd386.Lib.Bytes
