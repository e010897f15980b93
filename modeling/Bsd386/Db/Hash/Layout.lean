import Mathlib.Data.Finset.Erase
import Mathlib.Data.Finset.Insert
import Bsd386.Db.Hash.Linear
import Bsd386.Db.Hash.Bitmaps

/-!
# The numbering of file pages

The overflow pages of split point `s` lie after bucket `2 ^ s - 1`; `base s` is the number of overflow
pages before them. `Layout` is the invariant of the numbering: the counts increase up to the current split
point, the buckets there are belong to it or to earlier ones, and each address in use (`InUse`) has its
place at a split point (`Placed`) and its bit set. It follows that no two pages collide
(`Layout.pages_distinct`), and that a change which leaves the counts of earlier split points alone moves no
page (`Same`).
-/

namespace Bsd386.Db.Hash

open Htab

/-! ## Addresses -/

theorem splitnum_oaddrOf {s o : ℕ} (ho : o ≤ splitmask) : splitnum (oaddrOf s o) = s := by
  unfold splitnum oaddrOf splitshift
  unfold splitmask at ho
  rw [Nat.shiftLeft_eq, Nat.shiftRight_eq_div_pow]
  omega

theorem opagenum_oaddrOf {s o : ℕ} (ho : o ≤ splitmask) : opagenum (oaddrOf s o) = o := by
  have hmask : opagenum (oaddrOf s o) = oaddrOf s o % 2 ^ 11 := Nat.and_two_pow_sub_one_eq_mod _ 11
  rw [hmask]
  unfold oaddrOf splitshift
  unfold splitmask at ho
  rw [Nat.shiftLeft_eq]
  omega

theorem addr_ext {a a' : ℕ} (hs : splitnum a = splitnum a') (ho : opagenum a = opagenum a') : a = a' := by
  have hmask : ∀ n, opagenum n = n % 2 ^ 11 := fun n => Nat.and_two_pow_sub_one_eq_mod n 11
  rw [hmask, hmask] at ho
  unfold splitnum splitshift at hs
  rw [Nat.shiftRight_eq_div_pow, Nat.shiftRight_eq_div_pow] at hs
  omega

namespace Htab

/-- The number of overflow pages before split point `s`. -/
def base (h : Htab) (s : ℕ) : ℕ := if s ≠ 0 then h.spares (s - 1) else 0

def total (h : Htab) : ℕ := h.spares h.ovflPoint

/-- The address belongs to a page of its split point. -/
def Placed (h : Htab) (a : ℕ) : Prop :=
  splitnum a ≤ h.ovflPoint ∧ 1 ≤ opagenum a ∧ h.base (splitnum a) + opagenum a ≤ h.spares (splitnum a)

/-- The overflow pages in use, other than bitmaps, are kept in `used`. An address is in use if it is one
of them or that of a bitmap. -/
def InUse (h : Htab) (used : Finset ℕ) (a : ℕ) : Prop := a ∈ used ∨ ∃ i < h.nmaps, h.bitmaps i = a

variable (h : Htab)

theorem base_succ (s : ℕ) : h.base (s + 1) = h.spares s := if_pos (Nat.succ_ne_zero s)

theorem bitAddress_eq (a : ℕ) : h.bitAddress a = h.base (splitnum a) + opagenum a - 1 := rfl

theorem oaddrToPage_eq (a : ℕ) :
    h.oaddrToPage a = 2 ^ splitnum a - 1 + h.hdrpages + h.base (splitnum a) + opagenum a := by
  unfold oaddrToPage bucketToPage base
  obtain ⟨s, hs⟩ : ∃ s, splitnum a = s := ⟨_, rfl⟩
  rw [hs, Nat.one_shiftLeft]
  cases s with
  | zero => rfl
  | succ s =>
    have hpow : 2 ≤ 2 ^ (s + 1) := by
      have hpos : 0 < 2 ^ s := Nat.pow_pos (by decide)
      rw [Nat.pow_succ]
      omega
    have hlog : log2 (2 ^ (s + 1) - 1 + 1) = s + 1 := by
      rw [Nat.sub_add_cancel (by omega), log2_eq, Nat.clog_pow 2 _ (by decide)]
    rw [if_pos (by omega), if_pos (Nat.succ_ne_zero s), hlog]

theorem bucketToPage_eq (b : ℕ) : h.bucketToPage b = b + h.hdrpages + h.base (log2 (b + 1)) := by
  unfold bucketToPage base
  by_cases hb : b = 0
  · rw [hb, if_neg (not_not_intro rfl), log2_eq, if_neg (by decide)]
  have hlog : log2 (b + 1) ≠ 0 := by
    intro h0
    have hle := (log2_le_iff (b + 1)).mp (Nat.le_of_eq h0)
    omega
  rw [if_pos hb, if_pos hlog]

end Htab

/-! ## The invariant -/

/-- **The numbering of the pages.** -/
structure Layout (h : Htab) (used : Finset ℕ) : Prop where
  point : 1 ≤ h.ovflPoint
  last : h.maxBucket + 1 ≤ 2 ^ h.ovflPoint
  mono : ∀ i j, i ≤ j → j ≤ h.ovflPoint → h.spares i ≤ h.spares j
  zero : h.spares 0 = 0
  pos : 1 ≤ h.total
  maps : ∀ i, h.mapp i ≠ none ↔ i < h.nmaps
  nmaps : h.nmaps ≤ ncached
  room : h.total ≤ h.nmaps * h.pageBits + 1
  need : h.nmaps * h.pageBits + 1 < h.total + h.pageBits
  tail : ∀ n, h.total ≤ n → h.allocated n = true
  freed : h.lastFreed / h.pageBits ≤ (h.total - 1) / h.pageBits
  placed : ∀ a, h.InUse used a → h.Placed a
  mapped : ∀ a, h.InUse used a → h.bitAddress a < h.nmaps * h.pageBits
  bits : ∀ a, h.InUse used a → h.allocated (h.bitAddress a) = true
  bitmaps : ∀ i j, i < h.nmaps → j < h.nmaps → h.bitmaps i = h.bitmaps j → i = j
  apart : ∀ i < h.nmaps, h.bitmaps i ∉ used

/-- What a step leaves alone: the counts of the split points before the current one, and the addresses of
the bitmaps. -/
structure Same (h h' : Htab) : Prop where
  hdrpages : h'.hdrpages = h.hdrpages
  bshift : h'.bshift = h.bshift
  point : h.ovflPoint ≤ h'.ovflPoint
  spares : ∀ i < h.ovflPoint, h'.spares i = h.spares i
  nmaps : h.nmaps ≤ h'.nmaps
  bitmaps : ∀ i < h.nmaps, h'.bitmaps i = h.bitmaps i

section same

variable {h h' h'' : Htab}

theorem Same.refl (h : Htab) : Same h h :=
  ⟨rfl, rfl, Nat.le_refl _, fun _ _ => rfl, Nat.le_refl _, fun _ _ => rfl⟩

theorem Same.mark (h : Htab) (mapp : ℕ → Option (ℕ → BitVec 32)) (lastFreed : ℕ) :
    Same h { h with mapp := mapp, lastFreed := lastFreed } :=
  ⟨rfl, rfl, Nat.le_refl _, fun _ _ => rfl, Nat.le_refl _, fun _ _ => rfl⟩

theorem Same.others (hs : Same h h') (dsize dirents nsegs exsegs highMask lowMask : ℕ) :
    Same h { h' with
      dsize := dsize, dirents := dirents, nsegs := nsegs, exsegs := exsegs
      highMask := highMask, lowMask := lowMask } :=
  ⟨hs.hdrpages, hs.bshift, hs.point, hs.spares, hs.nmaps, hs.bitmaps⟩

theorem Same.trans (h1 : Same h h') (h2 : Same h' h'') : Same h h'' where
  hdrpages := h2.hdrpages.trans h1.hdrpages
  bshift := h2.bshift.trans h1.bshift
  point := Nat.le_trans h1.point h2.point
  spares i hi := (h2.spares i (Nat.lt_of_lt_of_le hi h1.point)).trans (h1.spares i hi)
  nmaps := Nat.le_trans h1.nmaps h2.nmaps
  bitmaps i hi := (h2.bitmaps i (Nat.lt_of_lt_of_le hi h1.nmaps)).trans (h1.bitmaps i hi)

theorem Same.base (hs : Same h h') {s : ℕ} (hle : s ≤ h.ovflPoint) : h'.base s = h.base s := by
  unfold Htab.base
  split_ifs with h0
  · exact hs.spares _ (by omega)
  · rfl

theorem Same.bitAddress (hs : Same h h') {a : ℕ} (hle : splitnum a ≤ h.ovflPoint) :
    h'.bitAddress a = h.bitAddress a := by
  rw [bitAddress_eq, bitAddress_eq, hs.base hle]

theorem Same.oaddrToPage (hs : Same h h') {a : ℕ} (hle : splitnum a ≤ h.ovflPoint) :
    h'.oaddrToPage a = h.oaddrToPage a := by
  rw [oaddrToPage_eq, oaddrToPage_eq, hs.base hle, hs.hdrpages]

theorem Same.bucketToPage (hs : Same h h') {b : ℕ} (hle : b + 1 ≤ 2 ^ h.ovflPoint) :
    h'.bucketToPage b = h.bucketToPage b := by
  rw [bucketToPage_eq, bucketToPage_eq, hs.base ((log2_le_iff (b + 1)).mpr hle), hs.hdrpages]

end same

namespace Layout

variable {h : Htab} {used : Finset ℕ}

section

variable (hl : Layout h used)
include hl

theorem base_le {s t : ℕ} (hst : s < t) (ht : t ≤ h.ovflPoint) :
    h.spares s ≤ h.base t := by
  unfold base
  rw [if_pos (by omega)]
  exact hl.mono _ _ (by omega) (by omega)

theorem base_mono {s t : ℕ} (hst : s ≤ t) (ht : t ≤ h.ovflPoint) :
    h.base s ≤ h.base t := by
  unfold base
  split_ifs
  · exact hl.mono _ _ (by omega) (by omega)
  · omega
  · exact Nat.zero_le _
  · exact Nat.le_refl _

theorem bitAddress_lt {a a' : ℕ} (ha : h.Placed a) (ha' : h.Placed a') (hlt : splitnum a < splitnum a')
    : h.bitAddress a < h.bitAddress a' := by
  have hbase := hl.base_le hlt ha'.1
  have h1 := ha.2
  have h2 := ha'.2
  rw [bitAddress_eq, bitAddress_eq]
  omega

theorem bitAddress_inj {a a' : ℕ} (ha : h.Placed a) (ha' : h.Placed a')
    (heq : h.bitAddress a = h.bitAddress a') : a = a' := by
  rcases Nat.lt_trichotomy (splitnum a) (splitnum a') with hlt | hs | hlt
  · exact absurd (hl.bitAddress_lt ha ha' hlt) (by omega)
  · refine addr_ext hs ?_
    have h1 := ha.2.1
    have h2 := ha'.2.1
    rw [bitAddress_eq, bitAddress_eq, hs] at heq
    omega
  · exact absurd (hl.bitAddress_lt ha' ha hlt) (by omega)

theorem bitAddress_lt_total {a : ℕ} (ha : h.Placed a) :
    h.bitAddress a < h.total := by
  have hmono := hl.mono _ _ ha.1 (Nat.le_refl _)
  have hplace := ha.2
  rw [bitAddress_eq]
  unfold total
  omega

theorem bucketToPage_ne {a b : ℕ} (ha : h.Placed a) (hb : b ≤ h.maxBucket) :
    h.bucketToPage b ≠ h.oaddrToPage a := by
  have hlast := hl.last
  have hplace := ha.2
  have hlog : log2 (b + 1) ≤ h.ovflPoint := (log2_le_iff (b + 1)).mpr (by omega)
  rw [bucketToPage_eq, oaddrToPage_eq]
  rcases Nat.lt_or_ge (splitnum a) (log2 (b + 1)) with hlt | hge
  · -- the bucket comes after all pages of the split point of the address
    have hbase := hl.base_le hlt hlog
    have hpow : ¬b + 1 ≤ 2 ^ splitnum a := fun hle =>
      absurd ((log2_le_iff (b + 1)).mpr hle) (Nat.not_le.mpr hlt)
    have hpos : 0 < 2 ^ splitnum a := Nat.pow_pos (by decide)
    omega
  · have hpow : b + 1 ≤ 2 ^ splitnum a := (log2_le_iff (b + 1)).mp hge
    have hbase := hl.base_mono hge ha.1
    omega

theorem bucketToPage_inj {b b' : ℕ} (hb : b ≤ h.maxBucket) (hb' : b' ≤ h.maxBucket)
    (heq : h.bucketToPage b = h.bucketToPage b') : b = b' := by
  -- a later bucket has at least as many pages before it
  have hmono : ∀ c d, c < d → d ≤ h.maxBucket → h.bucketToPage c < h.bucketToPage d := by
    intro c d hlt hd
    have hlast := hl.last
    have hlog : log2 (c + 1) ≤ log2 (d + 1) :=
      (log2_le_iff (c + 1)).mpr (Nat.le_trans (by omega) ((log2_le_iff (d + 1)).mp (Nat.le_refl _)))
    have hpoint : log2 (d + 1) ≤ h.ovflPoint := (log2_le_iff (d + 1)).mpr (by omega)
    have hbase := hl.base_mono hlog hpoint
    rw [bucketToPage_eq, bucketToPage_eq]
    omega
  rcases Nat.lt_trichotomy b b' with hlt | hs | hlt
  · exact absurd (hmono b b' hlt hb') (by omega)
  · exact hs
  · exact absurd (hmono b' b hlt hb) (by omega)

theorem oaddrToPage_inj {a a' : ℕ} (ha : h.Placed a) (ha' : h.Placed a')
    (heq : h.oaddrToPage a = h.oaddrToPage a') : a = a' := by
  -- the page grows with the bit
  have hmono : ∀ c d, h.Placed c → h.Placed d → splitnum c < splitnum d →
      h.oaddrToPage c < h.oaddrToPage d := by
    intro c d hc hd hlt
    have hbit := hl.bitAddress_lt hc hd hlt
    have hpow : 2 ^ splitnum c ≤ 2 ^ splitnum d := Nat.pow_le_pow_right (by decide) (Nat.le_of_lt hlt)
    rw [bitAddress_eq, bitAddress_eq] at hbit
    rw [oaddrToPage_eq, oaddrToPage_eq]
    omega
  rcases Nat.lt_trichotomy (splitnum a) (splitnum a') with hlt | hs | hlt
  · exact absurd (hmono a a' ha ha' hlt) (by omega)
  · refine addr_ext hs ?_
    rw [oaddrToPage_eq, oaddrToPage_eq, hs] at heq
    omega
  · exact absurd (hmono a' a ha' ha hlt) (by omega)

end

end Layout

end Bsd386.Db.Hash
