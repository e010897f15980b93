import Mathlib.Data.Nat.Log
import Mathlib.Data.Nat.Bitwise
import Mathlib.Data.List.Induction
import Bsd386.Lib.Transition
import Bsd386.Db.Hash.Basic

/-!
# The linear hashing invariant

What the masks, the directory and the mapping of keys have to satisfy in every state of a growing table
(`Linear`), and exactly when they do (`linear_iff_allowed`): the allocations that the calls need succeed,
and the table has at most twice as many buckets as the segments of the first directory hold.

The bound comes from `DSIZE`, which `__expand_table` sets to a number of bytes when it reallocates the
directory: after the first reallocation the directory never grows again.
-/

namespace Bsd386.Db.Hash

open List Lib.Transition

/-! ## Logarithms -/

theorem log2Loop_eq (num i : ℕ) : log2Loop num (2 ^ i) i = max i (Nat.clog 2 num) := by
  obtain ⟨d, hd⟩ : ∃ d, num - 2 ^ i = d := ⟨_, rfl⟩
  induction d using Nat.strong_induction_on generalizing i with
  | _ d ih =>
    unfold log2Loop
    have hpos : 0 < 2 ^ i := Nat.pow_pos (by decide)
    by_cases hlt : 2 ^ i < num
    · have hclog : i < Nat.clog 2 num := (Nat.lt_clog_iff_pow_lt (by decide)).mpr hlt
      have hdouble : 2 ^ i <<< 1 = 2 ^ (i + 1) := by
        rw [Nat.shiftLeft_eq, Nat.pow_succ]
        rfl
      rw [if_pos ⟨hlt, hpos⟩, hdouble, ih (num - 2 ^ (i + 1)) (by rw [Nat.pow_succ]; omega) _ rfl,
        Nat.max_eq_right hclog, Nat.max_eq_right (Nat.le_of_lt hclog)]
    · have hclog : Nat.clog 2 num ≤ i :=
        (Nat.clog_le_iff_le_pow (by decide)).mpr (Nat.le_of_not_lt hlt)
      rw [if_neg fun h => hlt h.1, Nat.max_eq_left hclog]

theorem log2_eq (num : ℕ) : log2 num = Nat.clog 2 num := by
  have hloop := log2Loop_eq num 0
  rw [Nat.pow_zero, Nat.max_eq_right (Nat.zero_le _)] at hloop
  exact hloop

theorem log2_le_iff (num : ℕ) {s : ℕ} : log2 num ≤ s ↔ num ≤ 2 ^ s := by
  rw [log2_eq]
  exact Nat.clog_le_iff_le_pow (by decide)

/-! ## The invariant -/

/-- **The linear hashing invariant.** The masks are consecutive and all ones, with the last bucket
between them; every key has a bucket; the segment of the last bucket exists and has an entry in the
directory; and an expansion moves keys only from the bucket that is split to the new one. -/
structure Linear (h : Htab) : Prop where
  masks : ∃ k, h.lowMask = 2 ^ k - 1 ∧ h.highMask = 2 ^ (k + 1) - 1
  low_le : h.lowMask ≤ h.maxBucket
  le_high : h.maxBucket ≤ h.highMask
  call : ∀ n, h.callHash n ≤ h.maxBucket
  segs : h.maxBucket >>> sshift < h.nsegs
  dir : h.maxBucket >>> sshift < h.dirents
  moves : ∀ m n, (expandTable h m).callHash n = h.callHash n ∨
    (h.callHash n = oldBucket h ∧ (expandTable h m).callHash n = h.maxBucket + 1)

def Masked (k : ℕ) (h : Htab) : Prop :=
  h.lowMask = 2 ^ k - 1 ∧ h.highMask = 2 ^ (k + 1) - 1 ∧ h.lowMask ≤ h.maxBucket ∧
    h.maxBucket ≤ h.highMask

section masks

variable {h : Htab} {k : ℕ}

theorem callHash_eq (hlow : h.lowMask = 2 ^ k - 1) (hhigh : h.highMask = 2 ^ (k + 1) - 1) (n : ℕ) :
    h.callHash n = if h.maxBucket < n % 2 ^ (k + 1) then n % 2 ^ k else n % 2 ^ (k + 1) := by
  unfold Htab.callHash
  dsimp only
  rw [hlow, hhigh, Nat.and_two_pow_sub_one_eq_mod, Nat.and_two_pow_sub_one_eq_mod,
    Nat.mod_mod_of_dvd n (Nat.pow_dvd_pow 2 (Nat.le_succ k))]

theorem Masked.callHash_le (hm : Masked k h) (n : ℕ) : h.callHash n ≤ h.maxBucket := by
  obtain ⟨hlow, hhigh, hle, -⟩ := hm
  rw [callHash_eq hlow hhigh]
  split_ifs
  · omega
  · omega

theorem newMasks_masked {h' : Htab} (hm : Masked k h) (hlow : h'.lowMask = h.lowMask)
    (hhigh : h'.highMask = h.highMask) (hmax : h'.maxBucket = h.maxBucket + 1) :
    ∃ k', Masked k' (newMasks h') ∧ (newMasks h').maxBucket = h.maxBucket + 1 ∧
      (h.maxBucket + 1 < 2 ^ (k + 1) ∧ k' = k ∨ h.maxBucket + 1 = 2 ^ (k + 1) ∧ k' = k + 1) := by
  obtain ⟨h1, h2, h3, h4⟩ := hm
  have hpow : 0 < 2 ^ (k + 1) := Nat.pow_pos (by decide)
  unfold newMasks
  split_ifs with hgt
  · -- a new doubling: the bucket is the next power of two
    have hnew : h.maxBucket + 1 = 2 ^ (k + 1) := by omega
    refine ⟨k + 1, ⟨?_, ?_, ?_, ?_⟩, hmax, Or.inr ⟨hnew, rfl⟩⟩
    · exact hhigh.trans h2
    · dsimp only
      rw [hmax, hnew, hhigh, h2, Nat.or_comm]
      have hor := Nat.two_pow_add_eq_or_of_lt (show 2 ^ (k + 1) - 1 < 2 ^ (k + 1) by omega) 1
      rw [Nat.mul_one, Nat.or_comm] at hor
      rw [← hor, Nat.pow_succ 2 (k + 1)]
      omega
    · dsimp only
      omega
    · dsimp only
      rw [hmax]
      exact Nat.left_le_or
  · refine ⟨k, ⟨hlow.trans h1, hhigh.trans h2, by omega, by omega⟩, hmax, Or.inl ⟨by omega, rfl⟩⟩

theorem mod_two_pow_succ (n k : ℕ) :
    n % 2 ^ (k + 1) = n % 2 ^ k ∨ n % 2 ^ (k + 1) = n % 2 ^ k + 2 ^ k := by
  rw [Nat.pow_succ, Nat.mod_mul]
  rcases Nat.mod_two_eq_zero_or_one (n / 2 ^ k) with h0 | h1
  · rw [h0, Nat.mul_zero, Nat.add_zero]
    exact Or.inl rfl
  · rw [h1, Nat.mul_one]
    exact Or.inr rfl

end masks

/-! ## One expansion -/

section expansion

variable {h : Htab} {k : ℕ}

theorem newSegment_frame (h : Htab) (seg : ℕ) (m : Memory) :
    (newSegment h seg m).1.maxBucket = h.maxBucket ∧ (newSegment h seg m).1.lowMask = h.lowMask ∧
      (newSegment h seg m).1.highMask = h.highMask := by
  unfold newSegment growDir
  split_ifs
  · exact ⟨rfl, rfl, rfl⟩
  · exact ⟨rfl, rfl, rfl⟩
  · exact ⟨rfl, rfl, rfl⟩
  · exact ⟨rfl, rfl, rfl⟩
  · exact ⟨rfl, rfl, rfl⟩
  · exact ⟨rfl, rfl, rfl⟩
  · exact ⟨rfl, rfl, rfl⟩

theorem nextSplit_frame (h : Htab) : (nextSplit h).maxBucket = h.maxBucket ∧
    (nextSplit h).lowMask = h.lowMask ∧ (nextSplit h).highMask = h.highMask ∧
      (nextSplit h).nsegs = h.nsegs ∧ (nextSplit h).dsize = h.dsize ∧
        (nextSplit h).dirents = h.dirents := by
  unfold nextSplit
  dsimp only
  split_ifs
  · exact ⟨rfl, rfl, rfl, rfl, rfl, rfl⟩
  · exact ⟨rfl, rfl, rfl, rfl, rfl, rfl⟩

theorem newMasks_frame (h : Htab) : (newMasks h).maxBucket = h.maxBucket ∧
    (newMasks h).nsegs = h.nsegs ∧ (newMasks h).dsize = h.dsize ∧
      (newMasks h).dirents = h.dirents := by
  unfold newMasks
  split_ifs
  · exact ⟨rfl, rfl, rfl, rfl⟩
  · exact ⟨rfl, rfl, rfl, rfl⟩

theorem expandTable_eq (h : Htab) (m : Memory) :
    ∃ h' ok, newSegment h.next ((h.maxBucket + 1) >>> sshift) m = (h', ok) ∧
      h'.maxBucket = h.maxBucket + 1 ∧ h'.lowMask = h.lowMask ∧ h'.highMask = h.highMask ∧
      expandTable h m = if ok then newMasks (nextSplit h') else h' := by
  have hframe := newSegment_frame h.next ((h.maxBucket + 1) >>> sshift) m
  obtain ⟨⟨h', ok⟩, hseg⟩ : ∃ r, newSegment h.next ((h.maxBucket + 1) >>> sshift) m = r := ⟨_, rfl⟩
  rw [hseg] at hframe
  refine ⟨h', ok, hseg, hframe.1, hframe.2.1, hframe.2.2, ?_⟩
  unfold expandTable
  have hnext : h.next.maxBucket = h.maxBucket + 1 := rfl
  rw [hnext, hseg]
  cases ok with
  | true => rfl
  | false => rfl

/-- **The mapping of keys.** Whatever memory there is, only keys of the bucket that is split move. -/
theorem Masked.moves (hm : Masked k h) (m : Memory) (n : ℕ) :
    (expandTable h m).callHash n = h.callHash n ∨
      (h.callHash n = oldBucket h ∧ (expandTable h m).callHash n = h.maxBucket + 1) := by
  obtain ⟨h', ok, -, hmax, hlow, hhigh, heq⟩ := expandTable_eq h m
  have hmod : n % 2 ^ k = n % 2 ^ (k + 1) % 2 ^ k :=
    (Nat.mod_mod_of_dvd n (Nat.pow_dvd_pow 2 (Nat.le_succ k))).symm
  have hold : oldBucket h = (h.maxBucket + 1) % 2 ^ k := by
    unfold oldBucket
    rw [hm.1, Nat.and_two_pow_sub_one_eq_mod]
  have hle := hm.2.2.2
  rw [hm.2.1] at hle
  -- with the same masks, only the keys of the new bucket itself see a difference
  have hsame : ∀ h2 : Htab, h2.maxBucket = h.maxBucket + 1 → h2.lowMask = 2 ^ k - 1 →
      h2.highMask = 2 ^ (k + 1) - 1 → h2.callHash n = h.callHash n ∨
        (h.callHash n = oldBucket h ∧ h2.callHash n = h.maxBucket + 1) := by
    intro h2 hmax2 hlow2 hhigh2
    rw [callHash_eq hlow2 hhigh2, callHash_eq hm.1 hm.2.1, hold, hmax2]
    by_cases hnew : n % 2 ^ (k + 1) = h.maxBucket + 1
    · right
      rw [if_pos (by omega), if_neg (by omega), hmod, hnew]
      exact ⟨rfl, rfl⟩
    left
    by_cases hgt : h.maxBucket < n % 2 ^ (k + 1)
    · rw [if_pos hgt, if_pos (by omega)]
    · rw [if_neg hgt, if_neg (by omega)]
  rw [heq]
  split_ifs with hok
  · obtain ⟨hmax', hlow', hhigh', -⟩ := nextSplit_frame h'
    obtain ⟨k', hm', hmax2, hk | hk⟩ := newMasks_masked hm (hlow'.trans hlow) (hhigh'.trans hhigh)
      (hmax'.trans hmax)
    · obtain ⟨-, rfl⟩ := hk
      exact hsame _ hmax2 hm'.1 hm'.2.1
    -- a new doubling: one bit more of the hash value counts
    obtain ⟨hnew, rfl⟩ := hk
    have hnext := mod_two_pow_succ n (k + 1)
    have hno : ¬ h.maxBucket < n % 2 ^ (k + 1) := by omega
    rw [callHash_eq hm'.1 hm'.2.1, callHash_eq hm.1 hm.2.1, hold, hmax2, if_neg hno]
    by_cases hgt : h.maxBucket + 1 < n % 2 ^ (k + 1 + 1)
    · rw [if_pos hgt]
      exact Or.inl rfl
    rw [if_neg hgt]
    rcases hnext with hnext | hnext
    · exact Or.inl hnext
    have hzero : n % 2 ^ (k + 1) = 0 := by omega
    have hdvd : 2 ^ (k + 1) % 2 ^ k = 0 :=
      Nat.mod_eq_zero_of_dvd (Nat.pow_dvd_pow 2 (Nat.le_succ k))
    right
    rw [hnew, hdvd, hzero]
    exact ⟨rfl, by omega⟩
  · exact hsame _ hmax (hlow.trans hm.1) (hhigh.trans hm.2.1)

end expansion

/-! ## Runs -/

/-- The table after a number of expansions. -/
def expansions (p : Info) (ms : List Memory) : Htab := ms.foldl expandTable (initHtab p)

/-- **The condition** on the `n`-th expansion, which adds bucket `2 ^ l2 + n`: there is memory for the
first bucket of a new segment, and for the directory when it is full for the first time, and the bucket
is less than twice the number of buckets that the first directory is good for.
Source: __expand_table -/
def Allowed (p : Info) (n : ℕ) (m : Memory) : Prop :=
  (p.nsegs * sgsize ≤ 2 ^ p.l2 + n → (2 ^ p.l2 + n) % sgsize = 0 → m.seg = true) ∧
    (2 ^ p.l2 + n = p.dirsize * sgsize → m.dir = true) ∧
      2 ^ p.l2 + n < 2 * p.dirsize * sgsize

/-- What holds after `n` expansions that were allowed. The directory has been reallocated at most once. -/
structure Grown (p : Info) (n : ℕ) (h : Htab) : Prop where
  masked : ∃ k, Masked k h
  last : h.maxBucket + 1 = 2 ^ p.l2 + n
  nsegs : h.nsegs = max p.nsegs (h.maxBucket / sgsize + 1)
  dir : (h.maxBucket / sgsize < p.dirsize ∧ h.dsize = p.dirsize ∧ h.dirents = p.dirsize) ∨
    (p.dirsize ≤ h.maxBucket / sgsize ∧ h.maxBucket / sgsize < 2 * p.dirsize ∧
      h.dsize = 8 * p.dirsize ∧ h.dirents = 2 * p.dirsize)

variable {p : Info} {n : ℕ} {h : Htab}

theorem nsegs_le_dirsize (p : Info) : p.nsegs ≤ p.dirsize := by
  unfold Info.dirsize
  split_ifs with hlt
  · exact Nat.le_refl _
  · exact Nat.le_of_not_lt hlt

theorem l2_lt_nsegs (p : Info) : (2 ^ p.l2 - 1) / sgsize < p.nsegs := by
  have hle := (log2_le_iff ((1 <<< p.l2 - 1) / sgsize + 1)).mp (Nat.le_refl _)
  unfold Info.nsegs
  rw [Nat.one_shiftLeft] at hle ⊢
  rw [Nat.one_shiftLeft]
  exact hle

theorem grown_init (p : Info) : Grown p 0 (initHtab p) := by
  have hpos : 0 < 2 ^ p.l2 := Nat.pow_pos (by decide)
  have hmax : (initHtab p).maxBucket = 2 ^ p.l2 - 1 := by
    rw [← Nat.one_shiftLeft]
    rfl
  have hlow : (initHtab p).lowMask = 2 ^ p.l2 - 1 := hmax
  have hhigh : (initHtab p).highMask = 2 ^ (p.l2 + 1) - 1 := by
    have hshift : (1 <<< p.l2) <<< 1 = 2 ^ (p.l2 + 1) := by
      rw [Nat.one_shiftLeft, Nat.shiftLeft_eq, Nat.pow_succ]
      rfl
    rw [← hshift]
    rfl
  have hseg := l2_lt_nsegs p
  have hdir := nsegs_le_dirsize p
  refine ⟨⟨p.l2, hlow, hhigh, by omega, ?_⟩, by omega, ?_, Or.inl ⟨?_, rfl, rfl⟩⟩
  · rw [hmax, hhigh, Nat.pow_succ]
    omega
  · rw [hmax, Nat.max_eq_left hseg]
    rfl
  · rw [hmax]
    omega

theorem Masked.linear {k : ℕ} (hm : Masked k h) (hseg : h.maxBucket / sgsize < h.nsegs)
    (hdir : h.maxBucket / sgsize < h.dirents) : Linear h where
  masks := ⟨k, hm.1, hm.2.1⟩
  low_le := hm.2.2.1
  le_high := hm.2.2.2
  call := hm.callHash_le
  segs := by
    rw [Nat.shiftRight_eq_div_pow]
    exact hseg
  dir := by
    rw [Nat.shiftRight_eq_div_pow]
    exact hdir
  moves := hm.moves

theorem Grown.linear (hg : Grown p n h) : Linear h := by
  obtain ⟨k, hm⟩ := hg.masked
  refine hm.linear ?_ ?_
  · rw [hg.nsegs]
    exact Nat.lt_of_lt_of_le (Nat.lt_succ_self _) (Nat.le_max_right _ _)
  · rcases hg.dir with ⟨hlt, -, hdir⟩ | ⟨-, hlt, -, hdir⟩
    · omega
    · omega

theorem Grown.next (hg : Grown p n h) {h' : Htab} (hmax : h'.maxBucket = h.maxBucket + 1)
    (hlow : h'.lowMask = h.lowMask) (hhigh : h'.highMask = h.highMask)
    (hns : h'.nsegs = max p.nsegs ((h.maxBucket + 1) / sgsize + 1))
    (hdir : ((h.maxBucket + 1) / sgsize < p.dirsize ∧ h'.dsize = p.dirsize ∧ h'.dirents = p.dirsize) ∨
      (p.dirsize ≤ (h.maxBucket + 1) / sgsize ∧ (h.maxBucket + 1) / sgsize < 2 * p.dirsize ∧
        h'.dsize = 8 * p.dirsize ∧ h'.dirents = 2 * p.dirsize)) :
    Grown p (n + 1) (newMasks (nextSplit h')) := by
  obtain ⟨k, hm⟩ := hg.masked
  obtain ⟨hmax1, hlow1, hhigh1, hns1, hdsize1, hdir1⟩ := nextSplit_frame h'
  obtain ⟨-, hns2, hdsize2, hdir2⟩ := newMasks_frame (nextSplit h')
  obtain ⟨k', hm', hmax2, -⟩ := newMasks_masked hm (hlow1.trans hlow) (hhigh1.trans hhigh)
    (hmax1.trans hmax)
  have hlast := hg.last
  refine ⟨⟨k', hm'⟩, by omega, ?_, ?_⟩
  · rw [hns2, hns1, hns, hmax2]
  · rw [hmax2, hdsize2, hdsize1, hdir2, hdir1]
    exact hdir

theorem not_linear_of_nsegs {h' : Htab} {b : ℕ} (hmax : h'.maxBucket = b) (hns : h'.nsegs ≤ b / sgsize) :
    ¬Linear h' := by
  intro hl
  have hseg := hl.segs
  rw [Nat.shiftRight_eq_div_pow, hmax] at hseg
  exact absurd hseg (Nat.not_lt.mpr hns)

theorem segment_step (b : ℕ) :
    ((b + 1) / sgsize = b / sgsize ∧ (b + 1) % sgsize ≠ 0) ∨
      ((b + 1) / sgsize = b / sgsize + 1 ∧ (b + 1) % sgsize = 0) := by
  unfold sgsize
  omega

theorem allowed_iff (hlast : h.maxBucket + 1 = 2 ^ p.l2 + n) (m : Memory) : Allowed p n m ↔
    (p.nsegs ≤ (h.maxBucket + 1) / sgsize → (h.maxBucket + 1) % sgsize = 0 → m.seg = true) ∧
      ((h.maxBucket + 1) / sgsize = p.dirsize → (h.maxBucket + 1) % sgsize = 0 → m.dir = true) ∧
        (h.maxBucket + 1) / sgsize < 2 * p.dirsize := by
  have hsize : 0 < sgsize := by decide
  have hexact : h.maxBucket + 1 = p.dirsize * sgsize ↔
      (h.maxBucket + 1) / sgsize = p.dirsize ∧ (h.maxBucket + 1) % sgsize = 0 := by
    constructor
    · intro heq
      rw [heq]
      exact ⟨Nat.mul_div_cancel _ hsize, Nat.mul_mod_left _ _⟩
    · rintro ⟨hdiv, hmod⟩
      rw [← hdiv]
      exact (Nat.div_mul_cancel (Nat.dvd_of_mod_eq_zero hmod)).symm
  unfold Allowed
  rw [← hlast, Nat.div_lt_iff_lt_mul hsize, Nat.le_div_iff_mul_le hsize, hexact]
  exact and_congr_right fun _ => and_congr_left fun _ => and_imp

/-- **One expansion.** When it is allowed the table is good for one more, and otherwise the invariant
fails at once. -/
theorem Grown.expand (hg : Grown p n h) (m : Memory) :
    (Allowed p n m → Grown p (n + 1) (expandTable h m)) ∧
      (¬Allowed p n m → ¬Linear (expandTable h m)) := by
  obtain ⟨h', ok, hnew, hmax, hlow, hhigh, heq⟩ := expandTable_eq h m
  have hshift : (h.maxBucket + 1) >>> sshift = (h.maxBucket + 1) / sgsize :=
    Nat.shiftRight_eq_div_pow _ _
  have hnd := nsegs_le_dirsize p
  have hns := hg.nsegs
  have hdir := hg.dir
  have hpos : 0 < p.dirsize := by
    unfold Info.dirsize defDirsize
    split_ifs with hlt
    · exact Nat.lt_trans (by decide) hlt
    · decide
  have hfail : h'.nsegs = h.nsegs → h.nsegs ≤ (h.maxBucket + 1) / sgsize → ok = false →
      ¬Linear (expandTable h m) := by
    rintro hns' hle rfl
    rw [heq, if_neg (by decide)]
    exact not_linear_of_nsegs hmax (hns'.trans_le hle)
  rw [allowed_iff hg.last]
  rw [hshift] at hnew
  have hstep := segment_step h.maxBucket
  obtain ⟨q, hq⟩ : ∃ q, h.maxBucket / sgsize = q := ⟨_, rfl⟩
  obtain ⟨q', hq'⟩ : ∃ q', (h.maxBucket + 1) / sgsize = q' := ⟨_, rfl⟩
  rw [hq, hq'] at hstep
  rw [hq] at hns hdir
  rw [hq'] at hnew hfail ⊢
  unfold newSegment at hnew
  by_cases hneed : h.nsegs ≤ q'
  · -- the first bucket of a segment
    have hfirst : q' = q + 1 ∧ (h.maxBucket + 1) % sgsize = 0 := by
      rcases hstep with ⟨hsame, -⟩ | hfirst
      · exact absurd hneed (by omega)
      · exact hfirst
    rw [if_pos (show h.next.nsegs ≤ q' from hneed)] at hnew
    unfold growDir at hnew
    by_cases hfull : h.dsize ≤ q'
    · -- the directory is full, for the first time
      have hq'd : q' = p.dirsize ∧ h.dsize = p.dirsize := by omega
      rw [if_pos (show h.next.dsize ≤ q' from hfull)] at hnew
      cases hmd : m.dir with
      | false =>
        rw [hmd] at hnew
        obtain ⟨rfl, rfl⟩ := Prod.mk.inj hnew
        exact ⟨fun ha => absurd (ha.2.1 hq'd.1 hfirst.2) (by decide), fun _ => hfail rfl hneed rfl⟩
      | true =>
        rw [hmd] at hnew
        cases hms : m.seg with
        | false =>
          rw [hms] at hnew
          obtain ⟨rfl, rfl⟩ := Prod.mk.inj hnew
          exact ⟨fun ha => absurd (ha.1 (by omega) hfirst.2) (by decide),
            fun _ => hfail rfl hneed rfl⟩
        | true =>
          rw [hms] at hnew
          obtain ⟨rfl, rfl⟩ := Prod.mk.inj hnew
          rw [heq, if_pos rfl]
          refine ⟨fun _ => hg.next rfl rfl rfl ?_ (Or.inr ?_), fun hnot => absurd ?_ hnot⟩
          · rw [hq']
            change h.nsegs + 1 = _
            omega
          · rw [hq']
            have hgrown : (h.dsize * ptrsize) <<< 1 = 8 * p.dirsize ∧
                (h.dsize * ptrsize) <<< 1 / ptrsize = 2 * p.dirsize := by
              rw [Nat.shiftLeft_eq, hq'd.2]
              unfold ptrsize
              omega
            exact ⟨by omega, by omega, hgrown.1, hgrown.2⟩
          · exact ⟨fun _ _ => rfl, fun _ _ => rfl, by omega⟩
    · rw [if_neg (show ¬ h.next.dsize ≤ q' from hfull)] at hnew
      cases hms : m.seg with
      | false =>
        rw [hms] at hnew
        obtain ⟨rfl, rfl⟩ := Prod.mk.inj hnew
        exact ⟨fun ha => absurd (ha.1 (by omega) hfirst.2) (by decide), fun _ => hfail rfl hneed rfl⟩
      | true =>
        rw [hms] at hnew
        obtain ⟨rfl, rfl⟩ := Prod.mk.inj hnew
        rw [heq, if_pos rfl]
        constructor
        · rintro ⟨-, -, hlt⟩
          refine hg.next rfl rfl rfl ?_ ?_
          · rw [hq']
            change h.nsegs + 1 = _
            omega
          · rw [hq']
            change (_ ∧ h.dsize = _ ∧ h.dirents = _) ∨ _ ∧ _ ∧ h.dsize = _ ∧ h.dirents = _
            omega
        · -- the directory was reallocated once, and the new segment is beyond its end
          intro hnot' hl
          have hlt := hl.dir
          have hdirents : (newMasks (nextSplit
              { h.next with exsegs := h.next.exsegs + 1, nsegs := h.next.nsegs + 1 })).dirents =
              h.dirents := by
            rw [(newMasks_frame _).2.2.2, (nextSplit_frame _).2.2.2.2.2]
            rfl
          have hlast : (newMasks (nextSplit
              { h.next with exsegs := h.next.exsegs + 1, nsegs := h.next.nsegs + 1 })).maxBucket =
              h.maxBucket + 1 := by
            rw [(newMasks_frame _).1, (nextSplit_frame _).1]
            rfl
          rw [hdirents, hlast, hshift, hq'] at hlt
          exact hnot' ⟨fun _ _ => rfl, fun hd _ => absurd hd (by omega), by omega⟩
  · -- the segment is there: that of the last bucket, or one of the first segments
    have hseg : h.nsegs = max p.nsegs (q' + 1) := by
      omega
    have hsame : q' = q ∧ (h.maxBucket + 1) % sgsize ≠ 0 ∨ q' < p.nsegs := by
      omega
    have hdir' : (q' < p.dirsize ∧ h.dsize = p.dirsize ∧ h.dirents = p.dirsize) ∨
        (p.dirsize ≤ q' ∧ q' < 2 * p.dirsize ∧ h.dsize = 8 * p.dirsize ∧
          h.dirents = 2 * p.dirsize) := by
      rcases hdir with ⟨hlo, hsizes⟩ | ⟨hle, hdir⟩
      · left
        refine ⟨?_, hsizes⟩
        omega
      right
      have heq' : q' = q := by
        omega
      rw [heq']
      exact ⟨hle, hdir⟩
    rw [if_neg (show ¬ h.next.nsegs ≤ q' from hneed)] at hnew
    obtain ⟨rfl, rfl⟩ := Prod.mk.inj hnew
    rw [heq, if_pos rfl]
    refine ⟨fun _ => hg.next rfl rfl rfl ?_ ?_, fun hnot => absurd ?_ hnot⟩
    · rw [hq']
      exact hseg
    · rw [hq']
      exact hdir'
    · clear hns hseg hdir
      refine ⟨fun h1 h2 => ?_, fun h1 h2 => ?_, ?_⟩
      · omega
      · omega
      · omega

theorem grown_of_allowed {ms : List Memory}
    (hallow : ∀ pre m post, ms = pre ++ m :: post → Allowed p pre.length m) :
    Grown p ms.length (expansions p ms) := by
  induction ms using reverseRecOn with
  | nil => exact grown_init p
  | append_singleton ms m ih =>
    have hold := ih fun pre m' post heq => hallow pre m' (post ++ [m]) (by
      rw [heq, append_assoc, cons_append])
    unfold expansions at hold ⊢
    rw [foldl_append, length_append]
    exact (hold.expand m).1 (hallow ms m [] rfl)

/-- **Exactly when the invariant holds.** In a run of expansions from a new table the invariant holds in
every state exactly when every expansion is allowed.
Source: __expand_table. Kind: C -/
theorem linear_iff_allowed (p : Info) (ms : List Memory) :
    (∀ pre post, ms = pre ++ post → Linear (expansions p pre)) ↔
      ∀ pre m post, ms = pre ++ m :: post → Allowed p pre.length m := by
  constructor
  · -- by the number of expansions before the one in question
    intro hlin pre
    obtain ⟨d, hd⟩ : ∃ d, pre.length = d := ⟨_, rfl⟩
    induction d using Nat.strong_induction_on generalizing pre with
    | _ d ih =>
      intro m post heq
      have hbefore : ∀ pre' m' post', pre = pre' ++ m' :: post' → Allowed p pre'.length m' := by
        intro pre' m' post' heq'
        refine ih pre'.length ?_ pre' rfl m' (post' ++ m :: post) ?_
        · rw [← hd, heq', length_append, length_cons]
          omega
        · rw [heq, heq', append_assoc, cons_append]
      by_contra hnot
      have hnext := hlin (pre ++ [m]) post (by rw [heq, append_assoc]; rfl)
      unfold expansions at hnext
      rw [foldl_append] at hnext
      exact ((grown_of_allowed hbefore).expand m).2 hnot hnext
  · rintro hallow pre post rfl
    refine (grown_of_allowed ?_).linear
    rintro pre' m post' rfl
    exact hallow pre' m (post' ++ post) (by rw [append_assoc]; rfl)

/-- A table made without hints. Source: init_hash -/
def defaultInfo : Info where
  bshift := 12
  nelem := 1
  ffactor := 65536
  bshift_ge := by decide

theorem defaultInfo_sizes :
    defaultInfo.l2 = 1 ∧ defaultInfo.nsegs = 1 ∧ defaultInfo.dirsize = 256 := by
  have hl2 : defaultInfo.l2 = 1 := by
    unfold Info.l2
    rw [log2_eq]
    decide
  have hnsegs : defaultInfo.nsegs = 1 := by
    unfold Info.nsegs
    rw [hl2, log2_eq]
    decide
  refine ⟨hl2, hnsegs, ?_⟩
  unfold Info.dirsize
  rw [hnsegs]
  decide

/-- With memory for everything, bucket 131072 has a segment for which the directory has no entry.
Source: __expand_table. Kind: C -/
theorem not_linear_131072 :
    ¬Linear (expansions defaultInfo (List.replicate (131070 + 1) ⟨true, true⟩)) := by
  obtain ⟨hl2, hnsegs, hdirsize⟩ := defaultInfo_sizes
  obtain ⟨n, hn⟩ : ∃ n, 131070 = n := ⟨_, rfl⟩
  have hallow : ∀ pre m post, replicate n ⟨true, true⟩ = pre ++ m :: post →
      Allowed defaultInfo pre.length m := by
    intro pre m post heq
    have hlen := congrArg length heq
    rw [length_replicate, length_append, length_cons] at hlen
    have hm : m = ⟨true, true⟩ :=
      eq_of_mem_replicate (heq ▸ mem_append_cons_self)
    subst hm
    refine ⟨fun _ _ => rfl, fun _ => rfl, ?_⟩
    rw [hl2, hdirsize]
    unfold sgsize
    omega
  have hgrown := grown_of_allowed hallow
  have hstep := hgrown.expand ⟨true, true⟩
  unfold expansions at hstep ⊢
  rw [hn, replicate_succ', foldl_append]
  refine hstep.2 fun ha => ?_
  have hlt := ha.2.2
  rw [length_replicate, hl2, hdirsize] at hlt
  unfold sgsize at hlt
  omega

end Bsd386.Db.Hash
