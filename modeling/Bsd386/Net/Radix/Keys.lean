import Bsd386.Net.Radix.Route

/-!
# Radix trees: the bits of keys

`Agree off b k k'`: the keys agree on the bits from byte `off` on and before bit `b`. What the loops
of `radix.c` over the bytes of keys find is said here in bits.
-/

namespace Bsd386.Net.Radix

open List

open Lib.Bytes (Byte)

/-- The keys agree on the bits of `[8 * off, b)`. -/
def Agree (off b : ℕ) (k k' : Key) : Prop := ∀ c, 8 * off ≤ c → c < b → bitAt k c = bitAt k' c

/-- The keys have the same bytes in `[off, n)`. -/
def SameBytes (off n : ℕ) (k k' : Key) : Prop := ∀ i, off ≤ i → i < n → k i = k' i

variable {off a b b' i n L : ℕ} {k k' k'' v m : Key}

/-! ## Agreement -/

theorem Agree.refl (off b : ℕ) (k : Key) : Agree off b k k := fun _ _ _ => rfl

theorem Agree.symm (h : Agree off b k k') : Agree off b k' k := fun c h1 h2 => (h c h1 h2).symm

theorem Agree.trans (h : Agree off b k k') (h' : Agree off b k' k'') : Agree off b k k'' :=
  fun c h1 h2 => (h c h1 h2).trans (h' c h1 h2)

theorem Agree.mono (h : Agree off b k k') (hb : b' ≤ b) : Agree off b' k k' :=
  fun c h1 h2 => h c h1 (Nat.lt_of_lt_of_le h2 hb)

theorem agree_of_le (hb : b ≤ 8 * off) : Agree off b k k' := fun c h1 h2 => by omega

theorem byte_ext {x y : Byte} (h : ∀ j, j < 8 → x.getLsbD (7 - j) = y.getLsbD (7 - j)) : x = y := by
  refine BitVec.eq_of_getLsbD_eq fun j hj => ?_
  have h' := h (7 - j) (by omega)
  rwa [show 7 - (7 - j) = j by omega] at h'

theorem bitAt_add (k : Key) {j : ℕ} (hj : j < 8) : bitAt k (8 * i + j) = (k i).getLsbD (7 - j) := by
  rw [bitAt, show (8 * i + j) / 8 = i by omega, show (8 * i + j) % 8 = j by omega]

theorem agree_mul_iff : Agree off (8 * n) k k' ↔ SameBytes off n k k' := by
  constructor
  · intro h i h1 h2
    refine byte_ext fun j hj => ?_
    rw [← bitAt_add k hj, ← bitAt_add k' hj]
    exact h _ (by omega) (by omega)
  · intro h c h1 h2
    rw [bitAt, bitAt, h (c / 8) (by omega) (by omega)]

theorem Agree.sameBytes (h : Agree off b k k') : SameBytes off (b / 8) k k' :=
  agree_mul_iff.mp (h.mono (by omega))

theorem bitAt_and {x : Key} {c : ℕ} (h : x (c / 8) = v (c / 8) &&& m (c / 8)) :
    bitAt x c = (bitAt v c && bitAt m c) := by
  rw [bitAt, h, BitVec.getLsbD_and]
  rfl

/-! ## The first difference -/

theorem firstDiff_eq_none : firstDiff v k a n = none ↔ SameBytes a n v k := by
  unfold firstDiff
  rw [find?_eq_none]
  constructor
  · intro h i h1 h2
    have hi := h i (mem_range'_1.mpr ⟨h1, by omega⟩)
    simpa using hi
  · intro h i hi
    have hi' := mem_range'_1.mp hi
    simpa using h i hi'.1 (by omega)

theorem firstDiff_eq_some (h : firstDiff v k a n = some i) :
    a ≤ i ∧ i < n ∧ v i ≠ k i ∧ SameBytes a i v k := by
  obtain ⟨hi, as, bs, hab, has⟩ := find?_eq_some_iff_append.mp h
  have hmem : i ∈ range' a (n - a) := by rw [hab]; simp
  have hi' := mem_range'_1.mp hmem
  refine ⟨hi'.1, by omega, by simpa using hi, fun j h1 h2 => ?_⟩
  have hj : j ∈ range' a (n - a) := mem_range'_1.mpr ⟨h1, by omega⟩
  -- a smaller number stands before `i` in the range
  have hsorted : (range' a (n - a)).Pairwise (· < ·) := pairwise_lt_range'
  rw [hab] at hj hsorted
  rcases mem_append.mp hj with hj | hj
  · simpa using has j hj
  have hpost := (pairwise_append.mp hsorted).2.1
  rcases mem_cons.mp hj with rfl | hj
  · exact absurd h2 (Nat.lt_irrefl _)
  · exact absurd (rel_of_pairwise_cons hpost hj) (by omega)

theorem countDown_add (n : ℕ) (c : Byte) (b : ℕ) : countDown n c (b + n) = b + countDown n c n := by
  induction n generalizing c b with
  | zero => rfl
  | succ n ih =>
    unfold countDown
    by_cases hc : c = 0
    · rw [if_pos hc, if_pos hc]
    · rw [if_neg hc, if_neg hc, ← Nat.add_assoc, Nat.add_sub_cancel, Nat.add_sub_cancel]
      exact ih _ _

theorem countDown_byte : ∀ c : Byte, c ≠ 0 → countDown 8 c 8 < 8 ∧
    c.getLsbD (7 - countDown 8 c 8) = true ∧
    ∀ j, j < countDown 8 c 8 → c.getLsbD (7 - j) = false := by
  decide

theorem diffBit_spec (hi : v i ≠ k i) (hbefore : SameBytes off i v k) :
    8 * i ≤ diffBit v k i ∧ diffBit v k i < 8 * (i + 1) ∧ Agree off (diffBit v k i) v k ∧
      bitAt v (diffBit v k i) ≠ bitAt k (diffBit v k i) := by
  obtain ⟨j, hj⟩ : ∃ j, countDown 8 (v i ^^^ k i) 8 = j := ⟨_, rfl⟩
  have hne : v i ^^^ k i ≠ 0 := fun h => hi (BitVec.xor_eq_zero_iff.mp h)
  obtain ⟨hlt, hset, hclear⟩ := countDown_byte _ hne
  have hb : diffBit v k i = 8 * i + j := by
    unfold diffBit
    rw [show 8 * (i + 1) = 8 * i + 8 by omega, countDown_add, hj]
  rw [hj] at hlt hset hclear
  rw [hb]
  refine ⟨by omega, by omega, fun c h1 h2 => ?_, ?_⟩
  · rcases Nat.lt_or_ge c (8 * i) with hc | hc
    · exact agree_mul_iff.mpr hbefore c h1 hc
    · obtain ⟨d, rfl⟩ : ∃ d, c = 8 * i + d := ⟨c - 8 * i, by omega⟩
      have hd := hclear d (by omega)
      rw [BitVec.getLsbD_xor, bne_eq_false_iff_eq] at hd
      rw [bitAt_add _ (by omega), bitAt_add _ (by omega)]
      exact hd
  · rw [BitVec.getLsbD_xor, bne_iff_ne] at hset
    rw [bitAt_add _ hlt, bitAt_add _ hlt]
    exact hset

/-! ## The index of a mask -/

theorem leadOnes_spec : ∀ c : Byte, c ≠ 0xff → leadOnes c < 8 ∧
    c.getLsbD (7 - leadOnes c) = false ∧ ∀ j, j < leadOnes c → c.getLsbD (7 - j) = true := by
  decide

theorem bitAt_of_ones {c : ℕ} (h : m (c / 8) = 0xff) : bitAt m c = true := by
  have hones : ∀ j, j < 8 → (0xff : Byte).getLsbD (7 - j) = true := by decide
  rw [bitAt, h]
  exact hones _ (Nat.mod_lt _ (by decide))

theorem bitAt_of_zero {c : ℕ} (h : m (c / 8) = 0) : bitAt m c = false := by
  rw [bitAt, h]
  exact BitVec.getLsbD_zero

theorem maskIndex_spec (hm : ∀ i, n ≤ i → m i = 0) (off : ℕ) :
    8 * off ≤ maskIndex m n off ∧ bitAt m (maskIndex m n off) = false ∧
      ∀ c, 8 * off ≤ c → c < maskIndex m n off → bitAt m c = true := by
  unfold maskIndex
  -- the byte at which the first loop stops
  obtain ⟨cp, hcp, h1, hff, hcp'⟩ : ∃ cp,
      ((range' off (n - off)).find? fun i => m i != 0xff).getD (max off n) = cp ∧ off ≤ cp ∧
      (∀ i, off ≤ i → i < cp → m i = 0xff) ∧ (cp = n ∨ m cp ≠ 0 → cp ≠ n → m cp ≠ 0xff) := by
    cases hf : firstDiff m rnOnes off n with
    | none =>
      have hall := firstDiff_eq_none.mp hf
      have hf' : ((range' off (n - off)).find? fun i => m i != 0xff) = none := hf
      refine ⟨max off n, by rw [hf', Option.getD_none], Nat.le_max_left _ _, fun i h1 h2 => ?_, ?_⟩
      · exact hall i h1 (by omega)
      · rintro (h | h) hn
        · exact absurd h hn
        · exact absurd (hm _ (Nat.le_max_right _ _)) h
    | some i =>
      obtain ⟨h1, h2, h3, h4⟩ := firstDiff_eq_some hf
      have hf' : ((range' off (n - off)).find? fun i => m i != 0xff) = some i := hf
      exact ⟨i, by rw [hf', Option.getD_some], h1, h4, fun _ _ => h3⟩
  simp only [hcp]
  by_cases hodd : cp ≠ n ∧ m cp ≠ 0
  · obtain ⟨hlt, hzero, hone⟩ := leadOnes_spec _ (hcp' (.inr hodd.2) hodd.1)
    rw [if_pos hodd]
    refine ⟨by omega, by rw [bitAt_add _ hlt]; exact hzero, fun c h2 h3 => ?_⟩
    rcases Nat.lt_or_ge c (8 * cp) with hc | hc
    · exact bitAt_of_ones (hff _ (by omega) (by omega))
    · obtain ⟨d, rfl⟩ : ∃ d, c = 8 * cp + d := ⟨c - 8 * cp, by omega⟩
      rw [bitAt_add _ (by omega)]
      exact hone d (by omega)
  · rw [if_neg hodd]
    have hz : m cp = 0 := by
      by_cases hn : cp = n
      · exact hm cp (Nat.le_of_eq hn.symm)
      · exact by_contra fun h => hodd ⟨hn, h⟩
    refine ⟨by omega, ?_, fun c h2 h3 => bitAt_of_ones (hff _ (by omega) (by omega))⟩
    exact bitAt_of_zero (by rw [show 8 * cp / 8 = cp by omega]; exact hz)

end Bsd386.Net.Radix
