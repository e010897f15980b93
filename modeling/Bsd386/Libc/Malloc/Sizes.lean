import Bsd386.Libc.Malloc.Basic
import Mathlib

/-!
# Sizes and words of the library allocator

`len b` is the length of a block of bucket `b`. The three places that compute it agree: the bucket that
`malloc` chooses has room (`bucketOf_spec`), `morecore` gets that much for each block (`moreBlks_spec`), and
`realloc` takes it for what the block holds (`onb_eq`).
-/

namespace Bsd386.Libc.Malloc

open Lib.Bytes Heap

/-- The length of a block. Source: morecore -/
def len (b : ℕ) : ℕ := if Heap.sizeOf b < getpagesize then Heap.sizeOf b else Heap.sizeOf b + getpagesize

def ptr (p : ℕ) : Option ℕ := if p = 0 then none else some p

theorem ptr_of_ne {p : ℕ} (hp : p ≠ 0) : ptr p = some p := if_neg hp

theorem ptr_eq_none {p : ℕ} : ptr p = none ↔ p = 0 := by
  by_cases hp : p = 0
  · exact iff_of_true (if_pos hp) hp
  · rw [ptr_of_ne hp]
    exact iff_of_false nofun hp

/-! ## Words -/

theorem ovNext_setNext (m : Mem) (op : ℕ) {p : ℕ} (hp : p < 2 ^ 32) : ovNext (setNext m op p) op = p := by
  have hword : ∀ v : BitVec 32, v.extractLsb' 24 8 ++ v.extractLsb' 16 8 ++ v.extractLsb' 8 8 ++
      v.extractLsb' 0 8 = v := by
    intro v
    ext i hi
    grind
  rw [ovNext, setNext]
  simp only [set8, Nat.add_left_cancel_iff, Nat.left_eq_add, Nat.reduceEqDiff, if_true, if_false, OfNat.ofNat_ne_zero,
    Nat.add_eq_left, one_ne_zero]
  rw [hword, BitVec.toNat_ofNat, Nat.mod_eq_of_lt hp]

theorem setNext_apply {m : Mem} {op p i : ℕ} (hi : i < op ∨ op + 4 ≤ i) : setNext m op p i = m i := by
  rw [setNext, set8_apply_of_ne _ (by omega), set8_apply_of_ne _ (by omega), set8_apply_of_ne _ (by omega),
    set8_apply_of_ne _ (by omega)]

theorem ovNext_congr {m m' : Mem} {op : ℕ} (h : ∀ i, op ≤ i → i < op + 4 → m' i = m i) :
    ovNext m' op = ovNext m op := by
  rw [ovNext, ovNext, h op (by omega) (by omega), h (op + 1) (by omega) (by omega),
    h (op + 2) (by omega) (by omega), h (op + 3) (by omega) (by omega)]

/-! ## Buckets -/

theorem le_len (b : ℕ) : 8 ≤ len b := by
  have hle : 2 ^ 3 ≤ 2 ^ (b + 3) := Nat.pow_le_pow_right (by decide) (Nat.le_add_left 3 b)
  rw [len, Heap.sizeOf]
  split <;> omega

theorem sizeLoop_spec {nbytes n k c b : ℕ} (hc : c ≤ 28) (hk : 28 < c + k)
    (h : Heap.sizeLoop nbytes n k (2 ^ (c + 3)) c = some b) :
    c ≤ b ∧ b ≤ 28 ∧ nbytes ≤ (2 ^ (b + 3) + n) % 2 ^ 32 := by
  induction k generalizing c with
  | zero => omega
  | succ k ih =>
    rw [sizeLoop] at h
    by_cases hlt : (2 ^ (c + 3) + n) % 2 ^ 32 < nbytes
    · rw [if_pos hlt] at h
      have hpow : 2 * 2 ^ (c + 3) = 2 ^ (c + 1 + 3) := by rw [← Nat.pow_succ']
      by_cases hc' : c = 28
      · subst hc'
        rw [if_pos (by decide)] at h
        exact absurd h nofun
      have hmod : 2 * 2 ^ (c + 3) % 2 ^ 32 = 2 ^ (c + 1 + 3) := by
        rw [hpow]
        exact Nat.mod_eq_of_lt (Nat.pow_lt_pow_right (by decide) (by omega))
      have hne : 2 ^ (c + 1 + 3) ≠ 0 := (Nat.two_pow_pos _).ne'
      rw [hmod, if_neg hne] at h
      obtain ⟨h1, h2, h3⟩ := ih (by omega) (by omega) h
      exact ⟨by omega, h2, h3⟩
    · rw [if_neg hlt] at h
      obtain rfl := Option.some.inj h
      exact ⟨le_refl _, hc, Nat.not_lt.mp hlt⟩

theorem bucketOf_spec {h : Heap} {nbytes b : ℕ} (hpage : h.pagesz = getpagesize) (hbucket : h.pagebucket = 9)
    (hb : h.bucketOf nbytes = some b) : b ≤ 28 ∧ nbytes + 4 ≤ len b := by
  rw [bucketOf, hpage, hbucket] at hb
  by_cases hsmall : nbytes ≤ getpagesize - 4
  · rw [if_pos hsmall] at hb
    obtain ⟨-, hle, hroom⟩ := sizeLoop_spec (c := 0) (by decide) (by decide) hb
    refine ⟨hle, ?_⟩
    have hlow : 2 ^ 3 ≤ 2 ^ (b + 3) := Nat.pow_le_pow_right (by decide) (Nat.le_add_left 3 b)
    rw [len, Heap.sizeOf]
    split <;> omega
  · rw [if_neg hsmall] at hb
    obtain ⟨hge, hle, hroom⟩ := sizeLoop_spec (c := 9) (by decide) (by decide) hb
    refine ⟨hle, ?_⟩
    have hlow : 2 ^ 12 ≤ 2 ^ (b + 3) := Nat.pow_le_pow_right (by decide) (by omega)
    rw [len, Heap.sizeOf, getpagesize, if_neg (by omega)]
    rw [getpagesize] at hroom
    omega

theorem sizeOf_lt_iff {b : ℕ} : Heap.sizeOf b < 2 ^ 31 ↔ b ≤ 27 := by
  rw [Heap.sizeOf, Nat.pow_lt_pow_iff_right (by decide)]
  omega

theorem moreBlks_spec {h : Heap} {b : ℕ} (hpage : h.pagesz = getpagesize) :
    1 ≤ h.moreBlks b ∧
      ((h.moreBlks b = 1 ∧ h.moreAmt b = len b) ∨
        (len b = Heap.sizeOf b ∧ h.moreBlks b * Heap.sizeOf b ≤ h.moreAmt b)) := by
  rw [moreBlks, moreAmt, hpage, len]
  by_cases hlt : Heap.sizeOf b < getpagesize
  · rw [if_pos hlt, if_pos hlt, if_pos hlt]
    have hpos : 0 < Heap.sizeOf b := Nat.two_pow_pos _
    exact ⟨Nat.div_pos hlt.le hpos, .inr ⟨rfl, Nat.div_mul_le_self _ _⟩⟩
  · rw [if_neg hlt, if_neg hlt, if_neg hlt]
    exact ⟨le_refl _, .inl ⟨rfl, rfl⟩⟩

theorem onb_eq {h : Heap} {b : ℕ} (hpage : h.pagesz = getpagesize) (hb : b ≤ 27) : h.onb b + 4 = len b := by
  have hmod : (b + 3) % 32 = b + 3 := Nat.mod_eq_of_lt (by omega)
  have hlow : 2 ^ 3 ≤ 2 ^ (b + 3) := Nat.pow_le_pow_right (by decide) (Nat.le_add_left 3 b)
  have hhigh : 2 ^ (b + 3) ≤ 2 ^ 30 := Nat.pow_le_pow_right (by decide) (by omega)
  rw [Heap.onb, hmod, hpage, len, Heap.sizeOf, getpagesize]
  split <;> omega

end Bsd386.Libc.Malloc
