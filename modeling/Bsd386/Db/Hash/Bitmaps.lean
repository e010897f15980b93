import Mathlib.Data.Nat.Bitwise
import Mathlib.Tactic.Ring
import Bsd386.Db.Hash.Overflow

/-!
# The bitmaps of overflow pages

The bitmaps together number the overflow pages from 0 on. `Htab.allocated` is the bit of a page, and is
true for a page without a bitmap. The updates of a bitmap change one bit of it, and the search finds a
word with a clear bit, or every page from the last freed one on is allocated.
-/

namespace Bsd386.Db.Hash

open Lib List

/-! ## Bits of a page -/

theorem wordBit_setbit (a : ℕ → BitVec 32) (n j : ℕ) :
    wordBit (setbit a n) j = (wordBit a j || decide (j = n)) :=
  wordBit_or_one a (by decide) n j

theorem wordBit_clrbit (a : ℕ → BitVec 32) (n j : ℕ) :
    wordBit (clrbit a n) j = (wordBit a j && !decide (j = n)) :=
  wordBit_and_not_one a (by decide) n j

theorem wordBit_of_allSet {a : ℕ → BitVec 32} {j : ℕ} (h : a (j / 32) = allSet) :
    wordBit a j = true := by
  unfold wordBit
  rw [h]
  unfold allSet
  rw [BitVec.getLsbD_allOnes]
  exact decide_eq_true (Nat.mod_lt j (by decide))

theorem wordBit_newBitmap {nbits : ℕ} (hpos : 1 ≤ nbits) {j : ℕ} (hj : j = 0 ∨ nbits ≤ j) :
    wordBit (newBitmap nbits) j = true := by
  unfold newBitmap
  rw [wordBit_setbit]
  by_cases h0 : j = 0
  · rw [decide_eq_true h0, Bool.or_true]
  have hle : nbits ≤ j := hj.resolve_left h0
  have hclear : (nbits - 1) >>> 5 = (nbits - 1) / 32 := Nat.shiftRight_eq_div_pow _ 5
  rw [decide_eq_false h0, Bool.or_false, hclear, Nat.add_sub_cancel, wordBit_update]
  by_cases hword : j / 32 = (nbits - 1) / 32
  · -- the word where the clear bits end
    have hmask : nbits &&& 31 = nbits % 32 := Nat.and_two_pow_sub_one_eq_mod nbits 5
    have hlt : j % 32 < 32 := Nat.mod_lt j (by decide)
    rw [if_pos hword, hmask, BitVec.getLsbD_shiftLeft]
    unfold allSet
    rw [BitVec.getLsbD_allOnes, decide_eq_true hlt, decide_eq_false (by omega),
      decide_eq_true (by omega)]
    rfl
  · have hgt : ¬j / 32 < (nbits - 1) / 32 + 1 := by omega
    rw [if_neg hword]
    refine wordBit_of_allSet ?_
    exact if_neg hgt

theorem wordBit_newBitmap_one (j : ℕ) : wordBit (newBitmap 1) j = true :=
  wordBit_newBitmap (Nat.le_refl 1) (by omega)

theorem firstFree_spec {map : BitVec 32} (h : map ≠ allSet) :
    firstFree map < 32 ∧ map.getLsbD (firstFree map) = false := by
  unfold firstFree
  cases hfind : (range 32).find? fun i => map &&& 1#32 <<< i == 0 with
  | none =>
    refine absurd ?_ h
    refine BitVec.eq_of_getLsbD_eq fun i hi => ?_
    have hbit := find?_eq_none.mp hfind i (mem_range.mpr hi)
    rw [and_shiftLeft_beq_zero _ hi] at hbit
    unfold allSet
    rw [BitVec.getLsbD_allOnes, decide_eq_true hi]
    cases hb : map.getLsbD i with
    | true => rfl
    | false => exact absurd (by rw [hb]; rfl) hbit
  | some i =>
    have hi : i < 32 := mem_range.mp (mem_of_find?_eq_some hfind)
    have hbit := find?_some hfind
    rw [and_shiftLeft_beq_zero _ hi, Bool.not_eq_true'] at hbit
    exact ⟨hi, hbit⟩

/-! ## The number of a page -/

namespace Htab

variable (h : Htab)

theorem pageBits_eq : h.pageBits = 2 ^ (h.bshift + 3) := by
  unfold pageBits
  rw [Nat.one_shiftLeft, Nat.shiftLeft_eq, Nat.pow_add]

theorem pageBits_words : ∃ k, 1 ≤ k ∧ h.pageBits = 32 * k := by
  refine ⟨2 ^ (h.bshift - 2), Nat.pow_pos (by decide), ?_⟩
  have hge := h.bshift_ge
  have hsum : h.bshift + 3 = 5 + (h.bshift - 2) := by omega
  rw [pageBits_eq, hsum, Nat.pow_add]

theorem le_pageBits : 32 ≤ h.pageBits := by
  obtain ⟨k, hk, heq⟩ := h.pageBits_words
  omega

theorem shiftRight_eq (n : ℕ) : n >>> (h.bshift + 3) = n / h.pageBits := by
  rw [Nat.shiftRight_eq_div_pow, pageBits_eq]

theorem and_eq_mod (n : ℕ) : n &&& (h.pageBits - 1) = n % h.pageBits := by
  rw [pageBits_eq, Nat.and_two_pow_sub_one_eq_mod]

/-- The bit of overflow page `n`, counted from 0. -/
def allocated (n : ℕ) : Bool :=
  match h.mapp (n / h.pageBits) with
  | none => true
  | some freep => wordBit freep (n % h.pageBits)

variable {h}

theorem allocated_of_some {n i : ℕ} {freep : ℕ → BitVec 32} (hi : n / h.pageBits = i)
    (hsome : h.mapp i = some freep) : h.allocated n = wordBit freep (n % h.pageBits) := by
  unfold allocated
  rw [hi, hsome]

theorem allocated_update {h' : Htab} {i : ℕ} {freep' : ℕ → BitVec 32} (hbits : h'.bshift = h.bshift)
    (hmapp : h'.mapp = Function.update h.mapp i (some freep')) (n : ℕ) :
    h'.allocated n =
      if n / h.pageBits = i then wordBit freep' (n % h.pageBits) else h.allocated n := by
  have hpb : h'.pageBits = h.pageBits := by
    unfold pageBits
    rw [hbits]
  unfold allocated
  rw [hpb, hmapp, Function.update_apply]
  split_ifs with hi
  · rfl
  · rfl

theorem page_eq_iff {i b : ℕ} (hb : b < h.pageBits) (n : ℕ) :
    (n / h.pageBits = i ∧ n % h.pageBits = b) ↔ n = i * h.pageBits + b := by
  constructor
  · rintro ⟨rfl, rfl⟩
    exact (Nat.div_add_mod' n h.pageBits).symm
  · rintro rfl
    rw [Nat.mul_comm, Nat.mul_add_div (by omega), Nat.mul_add_mod, Nat.div_eq_of_lt hb,
      Nat.mod_eq_of_lt hb]
    exact ⟨Nat.add_zero i, rfl⟩

theorem allocated_setbit (h' : Htab) {i b : ℕ} {freep : ℕ → BitVec 32} (hsome : h.mapp i = some freep)
    (hbits : h'.bshift = h.bshift) (hmapp : h'.mapp = Function.update h.mapp i (some (setbit freep b)))
    (hb : b < h.pageBits) (n : ℕ) :
    h'.allocated n = (h.allocated n || decide (n = i * h.pageBits + b)) := by
  have hpage : decide (n = i * h.pageBits + b) =
      decide (n / h.pageBits = i ∧ n % h.pageBits = b) := decide_eq_decide.mpr (page_eq_iff hb n).symm
  rw [allocated_update hbits hmapp, hpage]
  by_cases hi : n / h.pageBits = i
  · rw [if_pos hi, wordBit_setbit, allocated_of_some hi hsome]
    simp [hi]
  · simp [hi]

theorem allocated_clrbit (h' : Htab) {i b : ℕ} {freep : ℕ → BitVec 32} (hsome : h.mapp i = some freep)
    (hbits : h'.bshift = h.bshift) (hmapp : h'.mapp = Function.update h.mapp i (some (clrbit freep b)))
    (hb : b < h.pageBits) (n : ℕ) :
    h'.allocated n = (h.allocated n && !decide (n = i * h.pageBits + b)) := by
  have hpage : decide (n = i * h.pageBits + b) =
      decide (n / h.pageBits = i ∧ n % h.pageBits = b) := decide_eq_decide.mpr (page_eq_iff hb n).symm
  rw [allocated_update hbits hmapp, hpage]
  by_cases hi : n / h.pageBits = i
  · rw [if_pos hi, wordBit_clrbit, allocated_of_some hi hsome]
    simp [hi]
  · simp [hi]

end Htab

/-! ## The search -/

theorem searchWords_spec (freep : ℕ → BitVec 32) {inUseBits fuel bit : ℕ} (halign : bit % 32 = 0)
    (hfuel : inUseBits < bit + 32 * fuel) :
    (∃ b, searchWords freep inUseBits fuel bit = some b ∧ bit ≤ b ∧ b ≤ inUseBits ∧ b % 32 = 0 ∧
        freep (b / 32) ≠ allSet) ∨
      (searchWords freep inUseBits fuel bit = none ∧
        ∀ j, bit ≤ j → j ≤ inUseBits → freep (j / 32) = allSet) := by
  induction fuel generalizing bit with
  | zero => exact Or.inr ⟨rfl, fun j hle hlt => absurd hfuel (by omega)⟩
  | succ fuel ih =>
    unfold searchWords
    by_cases hle : bit ≤ inUseBits
    · rw [if_pos hle]
      by_cases hset : freep (bit / 32) = allSet
      · rw [if_neg (not_not_intro hset)]
        have hnext : (bit + 32) % 32 = 0 := by omega
        rcases ih hnext (by omega) with ⟨b, hb, hge, hrest⟩ | ⟨hnone, hall⟩
        · exact Or.inl ⟨b, hb, by omega, hrest⟩
        refine Or.inr ⟨hnone, fun j hj hj' => ?_⟩
        by_cases hnext : bit + 32 ≤ j
        · exact hall j hnext hj'
        · have hword : j / 32 = bit / 32 := by omega
          rw [hword]
          exact hset
      · rw [if_pos hset]
        exact Or.inl ⟨bit, rfl, Nat.le_refl _, hle, halign, hset⟩
    · rw [if_neg hle]
      exact Or.inr ⟨rfl, fun j hj hj' => absurd hj (by omega)⟩

namespace Htab

/-- What the end of the search of the pages from `lo` on says: a word with a clear bit was found, or a
bitmap is missing, or all pages up to the last one, or to the end of `mapp`, are allocated.
Source: overflow_page -/
def SearchEnd (h : Htab) (lo freePage freeBit : ℕ) : Search → Prop
  | .found i freep bit =>
    i < ncached ∧ h.mapp i = some freep ∧ bit < h.pageBits ∧ bit % 32 = 0 ∧
      freep (bit / 32) ≠ allSet ∧ lo ≤ i * h.pageBits + bit
  | .null => ∃ i ≤ freePage, h.mapp i = none
  | .full freep =>
    freePage < ncached ∧ h.mapp freePage = some freep ∧
      ∀ n, lo ≤ n → n ≤ freePage * h.pageBits + freeBit → h.allocated n = true
  | .undefined =>
    ncached ≤ freePage ∧ ∀ n, lo ≤ n → n < ncached * h.pageBits → h.allocated n = true

variable {h : Htab} {firstPage freePage freeBit : ℕ}

/-- The bit at which the search of bitmap `i` starts.
Source: overflow_page -/
def searchBit (h : Htab) (firstPage i : ℕ) : ℕ :=
  if i = firstPage then (h.lastFreed &&& (h.pageBits - 1)) / 32 * 32 else 0

theorem allocated_of_words {i bit inUseBits : ℕ} {freep : ℕ → BitVec 32} (hsome : h.mapp i = some freep)
    (huse : inUseBits < h.pageBits)
    (hall : ∀ j, bit ≤ j → j ≤ inUseBits → freep (j / 32) = allSet) {n : ℕ}
    (hlo : i * h.pageBits + bit ≤ n) (hhi : n ≤ i * h.pageBits + inUseBits) :
    h.allocated n = true := by
  have hplace : n = i * h.pageBits + (n - i * h.pageBits) := by omega
  obtain ⟨hdiv, hmod⟩ := (page_eq_iff (by omega) n).mpr hplace
  rw [allocated_of_some hdiv hsome, hmod]
  exact wordBit_of_allSet (hall _ (by omega) (by omega))

theorem searchBit_lt (h : Htab) (firstPage i : ℕ) : h.searchBit firstPage i < h.pageBits := by
  have hpb := h.le_pageBits
  have hmod := Nat.mod_lt h.lastFreed (show 0 < h.pageBits by omega)
  unfold searchBit
  rw [and_eq_mod]
  split_ifs
  · omega
  · omega

theorem SearchEnd.mono {lo lo' : ℕ} {r : Search} (hr : h.SearchEnd lo' freePage freeBit r)
    (hle : lo ≤ lo') (hall : ∀ n, lo ≤ n → n < lo' → h.allocated n = true) :
    h.SearchEnd lo freePage freeBit r := by
  cases r with
  | found i freep bit =>
    obtain ⟨hi, hmapp, hbit, halign, hclear, hge⟩ := hr
    exact ⟨hi, hmapp, hbit, halign, hclear, Nat.le_trans hle hge⟩
  | null => exact hr
  | full freep =>
    obtain ⟨hlt, hmapp, hrest⟩ := hr
    refine ⟨hlt, hmapp, fun n hlo hhi => ?_⟩
    rcases Nat.lt_or_ge n lo' with hn | hn
    · exact hall n hlo hn
    · exact hrest n hn hhi
  | undefined =>
    obtain ⟨hge, hrest⟩ := hr
    refine ⟨hge, fun n hlo hhi => ?_⟩
    rcases Nat.lt_or_ge n lo' with hn | hn
    · exact hall n hlo hn
    · exact hrest n hn hhi

theorem searchMaps_spec (hbit : freeBit < h.pageBits) {left i : ℕ} (hleft : i + left = freePage + 1)
    (hpos : 1 ≤ left) (hfirst : firstPage ≤ i) :
    h.SearchEnd (i * h.pageBits + h.searchBit firstPage i) freePage freeBit
      (h.searchMaps firstPage freePage freeBit left i) := by
  induction left generalizing i with
  | zero => exact absurd hpos (by decide)
  | succ left ih =>
    unfold searchMaps
    have hstart : h.searchBit firstPage i % 32 = 0 := by
      unfold searchBit
      split_ifs
      · exact Nat.mul_mod_left _ _
      · rfl
    by_cases hend : ncached ≤ i
    · rw [if_pos hend]
      have hmul : ncached * h.pageBits ≤ i * h.pageBits := Nat.mul_le_mul_right _ hend
      exact ⟨by omega, fun n hlo hhi => absurd hlo (by omega)⟩
    rw [if_neg hend]
    cases hmapp : h.mapp i with
    | none => exact ⟨i, by omega, hmapp⟩
    | some freep =>
      obtain ⟨u, hu⟩ : ∃ u, (if i = freePage then freeBit else h.pageBits - 1) = u := ⟨_, rfl⟩
      have hult : u < h.pageBits := by
        rw [← hu]
        split_ifs
        · exact hbit
        · omega
      have hwords := searchWords_spec freep hstart (show u < _ + 32 * (u + 1) by omega)
      have hdef : h.searchBit firstPage i =
          if i = firstPage then (h.lastFreed &&& (h.pageBits - 1)) / 32 * 32 else 0 := rfl
      dsimp only
      rw [hu, ← hdef]
      rcases hwords with ⟨b, hb, hge, hle, halign, hclear⟩ | ⟨hnone, hall⟩
      · rw [hb]
        exact ⟨by omega, hmapp, by omega, halign, hclear, by omega⟩
      rw [hnone]
      by_cases hlast : i = freePage
      · rw [if_pos hlast] at hu ⊢
        subst hlast hu
        exact ⟨by omega, hmapp, fun n hlo hhi => allocated_of_words hmapp hult hall hlo hhi⟩
      -- the rest of the bitmaps, from the first bit of the next one on
      rw [if_neg hlast] at hu ⊢
      have hnext := ih (i := i + 1) (by omega) (by omega) (by omega)
      have hzero : h.searchBit firstPage (i + 1) = 0 := if_neg (by omega)
      have hmul : (i + 1) * h.pageBits = i * h.pageBits + h.pageBits := Nat.succ_mul _ _
      have hlt := h.searchBit_lt firstPage i
      rw [hzero, Nat.add_zero] at hnext
      refine hnext.mono (by omega) fun n hlo hhi => ?_
      exact allocated_of_words hmapp hult hall hlo (by omega)

theorem searchBit_first (h : Htab) :
    h.lastFreed / h.pageBits * h.pageBits + h.searchBit (h.lastFreed / h.pageBits)
      (h.lastFreed / h.pageBits) = h.lastFreed / 32 * 32 := by
  obtain ⟨k, hk, heq⟩ := h.pageBits_words
  unfold searchBit
  rw [if_pos rfl, and_eq_mod, heq, Nat.mod_mul_right_div_self, ← Nat.div_div_eq_div_mul]
  have hdiv := Nat.div_add_mod (h.lastFreed / 32) k
  calc h.lastFreed / 32 / k * (32 * k) + h.lastFreed / 32 % k * 32
      = (k * (h.lastFreed / 32 / k) + h.lastFreed / 32 % k) * 32 := by ring
    _ = h.lastFreed / 32 * 32 := by rw [hdiv]

end Htab

end Bsd386.Db.Hash
