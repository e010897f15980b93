import Mathlib.Tactic.Common

/-!
# Fields in network order

Memory from an address on is a function `ℕ → Byte`. `get16`, `get32` read a big-endian field at
an offset and `set16`, `set32` write one.

`wordSum` adds the 16-bit host words of an area and `fold` adds the carries of such a sum back
in; `eq_complement_iff` recovers the one missing word of an area that folds to `0xffff`.
-/

namespace Bsd386.Lib.Bytes

open BitVec

variable {g h : Mem} {i k n : ℕ}

abbrev Byte := BitVec 8

abbrev Mem := ℕ → Byte

/-! ## Reading and writing -/

/-- The 16-bit field at `k`. -/
def get16 (h : Mem) (k : ℕ) : BitVec 16 := h k ++ h (k + 1)

/-- The 32-bit field at `k`. -/
def get32 (h : Mem) (k : ℕ) : BitVec 32 := get16 h k ++ get16 h (k + 2)

def set8 (h : Mem) (k : ℕ) (v : Byte) : Mem := fun i => if i = k then v else h i

def set16 (h : Mem) (k : ℕ) (v : BitVec 16) : Mem :=
  set8 (set8 h k (v.extractLsb' 8 8)) (k + 1) (v.extractLsb' 0 8)

def set32 (h : Mem) (k : ℕ) (v : BitVec 32) : Mem :=
  set16 (set16 h k (v.extractLsb' 16 16)) (k + 2) (v.extractLsb' 0 16)

/-- `h` with its `n` bytes from `k` on taken from `g`. -/
def overlay (g h : Mem) (k n : ℕ) : Mem := fun i => if k ≤ i ∧ i < k + n then g i else h i

theorem overlay_apply_of_mem (hi : k ≤ i ∧ i < k + n) :
    overlay g h k n i = g i := if_pos hi

theorem overlay_apply_of_notMem (hi : ¬ (k ≤ i ∧ i < k + n)) :
    overlay g h k n i = h i := if_neg hi

theorem set8_apply_of_ne (v : Byte) (hi : i ≠ k) : set8 h k v i = h i :=
  if_neg hi

@[simp] theorem set8_apply_self (h : Mem) (k : ℕ) (v : Byte) : set8 h k v k = v := if_pos rfl

theorem set16_apply_of_ne (v : BitVec 16) (h0 : i ≠ k) (h1 : i ≠ k + 1) :
    set16 h k v i = h i := by
  rw [set16, set8_apply_of_ne _ h1, set8_apply_of_ne _ h0]

theorem set16_get16 (g h : Mem) (k : ℕ) : set16 h k (get16 g k) = overlay g h k 2 := by
  funext i
  by_cases h1 : i = k + 1
  · subst h1
    rw [overlay_apply_of_mem (by omega), set16, set8_apply_self, get16,
      extractLsb'_append_eq_right]
  by_cases h0 : i = k
  · subst h0
    rw [overlay_apply_of_mem (by omega), set16, set8_apply_of_ne _ h1, set8_apply_self,
      get16, extractLsb'_append_eq_left]
  · rw [overlay_apply_of_notMem (by omega), set16_apply_of_ne _ h0 h1]

theorem set32_get32 (g h : Mem) (k : ℕ) : set32 h k (get32 g k) = overlay g h k 4 := by
  rw [set32, get32, extractLsb'_append_eq_left, extractLsb'_append_eq_right,
    set16_get16, set16_get16]
  funext i
  simp only [overlay]
  split_ifs <;> first | rfl | omega

theorem get16_congr (h0 : g k = h k) (h1 : g (k + 1) = h (k + 1)) :
    get16 g k = get16 h k := by
  rw [get16, get16, h0, h1]

theorem get32_congr (hgh : ∀ i, k ≤ i → i < k + 4 → g i = h i) :
    get32 g k = get32 h k := by
  rw [get32, get32, get16_congr (hgh k (by omega) (by omega)) (hgh (k + 1) (by omega) (by omega)),
    get16_congr (hgh (k + 2) (by omega) (by omega)) (hgh (k + 2 + 1) (by omega) (by omega))]

theorem get16_inj (hgh : get16 g k = get16 h k) :
    g k = h k ∧ g (k + 1) = h (k + 1) := by
  have hi := congrArg (extractLsb' 8 8) hgh
  have lo := congrArg (extractLsb' 0 8) hgh
  rw [get16, get16] at hi lo
  rw [extractLsb'_append_eq_left, extractLsb'_append_eq_left] at hi
  rw [extractLsb'_append_eq_right, extractLsb'_append_eq_right] at lo
  exact ⟨hi, lo⟩

theorem get32_inj (hgh : get32 g k = get32 h k) :
    ∀ i, k ≤ i → i < k + 4 → g i = h i := by
  have hi := congrArg (extractLsb' 16 16) hgh
  have lo := congrArg (extractLsb' 0 16) hgh
  rw [get32, get32] at hi lo
  rw [extractLsb'_append_eq_left, extractLsb'_append_eq_left] at hi
  rw [extractLsb'_append_eq_right, extractLsb'_append_eq_right] at lo
  obtain ⟨h0, h1⟩ := get16_inj hi
  obtain ⟨h2, h3⟩ := get16_inj lo
  intro i hki hik
  obtain rfl | rfl | rfl | rfl : i = k ∨ i = k + 1 ∨ i = k + 2 ∨ i = k + 2 + 1 := by omega
  · exact h0
  · exact h1
  · exact h2
  · exact h3

/-! ## One's complement sums -/

/-- The 16-bit word at `k` as a little-endian host reads it. -/
def hostWord (h : Mem) (k : ℕ) : ℕ := (h k).toNat + 256 * (h (k + 1)).toNat

/-- The sum of the first `n` host words. -/
def wordSum (h : Mem) : ℕ → ℕ
  | 0 => 0
  | n + 1 => wordSum h n + hostWord h (2 * n)

theorem wordSum_succ (h : Mem) (n : ℕ) : wordSum h (n + 1) = wordSum h n + hostWord h (2 * n) := rfl

/-- One round of adding the carries back in. -/
def fold (x : ℕ) : ℕ := x % 65536 + x / 65536

theorem hostWord_lt (h : Mem) (k : ℕ) : hostWord h k < 65536 := by
  simp only [hostWord]
  omega

theorem wordSum_congr (hgh : ∀ i, i < 2 * n → g i = h i) :
    wordSum g n = wordSum h n := by
  induction n with
  | zero => rfl
  | succ n ih =>
    rw [wordSum_succ, wordSum_succ, ih fun i hi => hgh i (by omega), hostWord, hostWord,
      hgh (2 * n) (by omega), hgh (2 * n + 1) (by omega)]

theorem wordSum_le (h : Mem) (n : ℕ) : wordSum h n ≤ 65535 * n := by
  induction n with
  | zero => exact Nat.le_refl 0
  | succ n ih =>
    have hw := hostWord_lt h (2 * n)
    rw [wordSum_succ]
    omega

theorem wordSum_pos (h0 : h 0 ≠ 0) (hn : 0 < n) : 0 < wordSum h n := by
  induction n with
  | zero => omega
  | succ n ih =>
    rw [wordSum_succ]
    rcases Nat.eq_zero_or_pos n with rfl | hpos
    · have : (h 0).toNat ≠ 0 := fun h' => h0 (eq_of_toNat_eq h')
      simp only [wordSum, hostWord, Nat.mul_zero]
      omega
    · have := ih hpos
      omega

theorem wordSum_eq_add {j : ℕ} (hj : j < n) (h0 : g (2 * j) = 0)
    (h1 : g (2 * j + 1) = 0) (hgh : ∀ i, i < 2 * n → i ≠ 2 * j → i ≠ 2 * j + 1 → g i = h i) :
    wordSum h n = wordSum g n + hostWord h (2 * j) := by
  induction n with
  | zero => omega
  | succ n ih =>
    rw [wordSum_succ, wordSum_succ]
    rcases Nat.lt_or_ge j n with hjn | hjn
    · have hn : hostWord g (2 * n) = hostWord h (2 * n) := by
        rw [hostWord, hostWord, hgh (2 * n) (by omega) (by omega) (by omega),
          hgh (2 * n + 1) (by omega) (by omega) (by omega)]
      rw [ih hjn fun i hi => hgh i (by omega), hn]
      omega
    obtain rfl : j = n := by omega
    have hz : hostWord g (2 * j) = 0 := by
      rw [hostWord, h0, h1]
      rfl
    rw [hz, wordSum_congr fun i hi => hgh i (by omega) (by omega) (by omega)]
    omega

theorem fold_fold_le {x : ℕ} (hx : x < 65536 * 60) : fold (fold x) ≤ 65535 := by
  simp only [fold]
  omega

/-- **The missing word.** If a positive sum `x` together with the word `w` folds to `0xffff`,
then `w` is the complement of what `x` folds to, unless `w` is the other zero, `0xffff`. -/
theorem eq_complement_iff {x w : ℕ} (hx : 0 < x) (hx' : x < 65536 * 30) (hw : w < 65536)
    (hfold : fold (fold (x + w)) = 65535) : w = 65535 - fold (fold x) ↔ w ≠ 65535 := by
  simp only [fold] at hfold ⊢
  omega

end Bsd386.Lib.Bytes
