import Bsd386.Ufs.Alloc.Basic

/-!
# The accounts of a cylinder group

What the counts of a group say about its free map (`CgOk`), and of the super block about the groups
(`Consistent`). Every count is a sum over the blocks of the group of what the bits of one block
contribute, so an operation, which changes one block only, has to change each count by the difference
that the block makes: `CgOk.change`.
-/

namespace Bsd386.Ufs.Alloc

open Function Lib Finset

/-- The bits of block `b`. Source: fs.h, cg_blksfree -/
def Fs.block (fs : Fs) (map : FreeMap) (b j : ℕ) : Bool :=
  decide (j < fs.frag) && bit map (b * fs.frag + j)

/-- The number of blocks in a group. -/
def Fs.nblk (fs : Fs) : ℕ := fs.fpg / fs.frag

/-- Is a block of these bits wholly free? Source: isblock -/
def Whole (frag : ℕ) (f : ℕ → Bool) : Prop := ∀ j < frag, f j = true

instance (frag : ℕ) (f : ℕ → Bool) : Decidable (Whole frag f) :=
  inferInstanceAs (Decidable (∀ j < frag, f j = true))

/-- **The accounts of a group.** The number of wholly free blocks, the free fragments in the others, the
maximal free runs in the others by their length, and the wholly free blocks by cylinder and by
rotational position. Nothing is free beyond the group, and the rotor is inside.
Source: fs.h, struct cg -/
structure CgOk (fs : Fs) (cgp : Cg) : Prop where
  nbfree : cgp.cs.nbfree =
    ((Finset.range fs.nblk).filter fun b => Whole fs.frag (fs.block cgp.blksfree b)).card
  nffree : cgp.cs.nffree =
    ∑ b ∈ (Finset.range fs.nblk).filter fun b => ¬Whole fs.frag (fs.block cgp.blksfree b),
      (bitCount (fs.block cgp.blksfree b) fs.frag : ℤ)
  frsum : ∀ k, 1 ≤ k → k < fs.frag → cgp.frsum k =
    ∑ b ∈ (Finset.range fs.nblk).filter fun b => ¬Whole fs.frag (fs.block cgp.blksfree b),
      (runCount (fs.block cgp.blksfree b) fs.frag k : ℤ)
  blktot : ∀ c, cgp.blktot c =
    ((Finset.range fs.nblk).filter fun b =>
      Whole fs.frag (fs.block cgp.blksfree b) ∧ fs.cbtocylno (fs.blkstofrags b) = c).card
  blks : ∀ c r, cgp.blks c r =
    ((Finset.range fs.nblk).filter fun b =>
      Whole fs.frag (fs.block cgp.blksfree b) ∧ fs.cbtocylno (fs.blkstofrags b) = c ∧
        fs.cbtorpos (fs.blkstofrags b) = r).card
  beyond : ∀ i, fs.fpg ≤ i → bit cgp.blksfree i = false
  frotor : cgp.frotor < fs.fpg

/-- **The accounts of a file system.** Every group is in order, the super block has its counts, and the
totals are their sums. Source: fs.h, fs_cs, fs_cstotal -/
structure Consistent (fs : Fs) (st : State) : Prop where
  group : ∀ c < fs.ncg, CgOk fs (st.cg c)
  cgx : ∀ c < fs.ncg, (st.cg c).cgx = c
  cs : ∀ c < fs.ncg, st.sum.cs c = (st.cg c).cs
  nbfree : st.sum.cstotal.nbfree = ∑ c ∈ Finset.range fs.ncg, (st.sum.cs c).nbfree
  nffree : st.sum.cstotal.nffree = ∑ c ∈ Finset.range fs.ncg, (st.sum.cs c).nffree

/-! ## What one block contributes -/

/-- To the number of free blocks. Source: fs.h, cs_nbfree -/
def wholeOf (frag : ℕ) (f : ℕ → Bool) : ℤ := if Whole frag f then 1 else 0

/-- To the number of free fragments. Source: fs.h, cs_nffree -/
def fragsOf (frag : ℕ) (f : ℕ → Bool) : ℤ := if Whole frag f then 0 else bitCount f frag

/-- To the number of runs of length `k`. Source: fs.h, cg_frsum -/
def runsOf (frag k : ℕ) (f : ℕ → Bool) : ℤ := if Whole frag f then 0 else runCount f frag k

section contributions

variable {frag k : ℕ} {f : ℕ → Bool}

theorem runsOf_eq (hk : 1 ≤ k) (hkf : k < frag) : runsOf frag k f = runCount f frag k := by
  unfold runsOf
  split_ifs with h
  · rw [runCount_full h hk, if_neg (Nat.ne_of_lt hkf)]
    rfl
  · rfl

theorem fragsOf_eq : fragsOf frag f = bitCount f frag - frag * wholeOf frag f := by
  unfold fragsOf wholeOf
  split_ifs with h
  · rw [bitCount_full h]
    ring
  · ring

end contributions

section sums

variable {fs : Fs} {cgp cgp' : Cg}

theorem card_filter_eq_sum (s : Finset ℕ) (p : ℕ → Prop) [DecidablePred p] :
    ((s.filter p).card : ℤ) = ∑ b ∈ s, if p b then 1 else 0 := by
  rw [card_filter, Nat.cast_sum]
  apply sum_congr rfl
  intro b _
  exact Nat.cast_ite ..

theorem sum_filter_not (s : Finset ℕ) (p : ℕ → Prop) [DecidablePred p] (F : ℕ → ℤ) :
    ∑ b ∈ s.filter (fun b => ¬p b), F b = ∑ b ∈ s, if p b then 0 else F b := by
  rw [sum_filter]
  apply sum_congr rfl
  intro b _
  exact ite_not ..

theorem cgOk_iff : CgOk fs cgp ↔
    cgp.cs.nbfree = ∑ b ∈ Finset.range fs.nblk, wholeOf fs.frag (fs.block cgp.blksfree b) ∧
    cgp.cs.nffree = ∑ b ∈ Finset.range fs.nblk, fragsOf fs.frag (fs.block cgp.blksfree b) ∧
    (∀ k, 1 ≤ k → k < fs.frag → cgp.frsum k =
      ∑ b ∈ Finset.range fs.nblk, runsOf fs.frag k (fs.block cgp.blksfree b)) ∧
    (∀ c, cgp.blktot c = ∑ b ∈ Finset.range fs.nblk,
      if fs.cbtocylno (fs.blkstofrags b) = c then wholeOf fs.frag (fs.block cgp.blksfree b) else 0) ∧
    (∀ c r, cgp.blks c r = ∑ b ∈ Finset.range fs.nblk,
      if fs.cbtocylno (fs.blkstofrags b) = c ∧ fs.cbtorpos (fs.blkstofrags b) = r then
        wholeOf fs.frag (fs.block cgp.blksfree b)
      else 0) ∧
    (∀ i, fs.fpg ≤ i → bit cgp.blksfree i = false) ∧ cgp.frotor < fs.fpg := by
  have hnb := card_filter_eq_sum (range fs.nblk) fun b =>
    Whole fs.frag (fs.block cgp.blksfree b)
  have hnf := sum_filter_not (range fs.nblk)
    (fun b => Whole fs.frag (fs.block cgp.blksfree b))
    fun b => (bitCount (fs.block cgp.blksfree b) fs.frag : ℤ)
  have hfr := fun k => sum_filter_not (range fs.nblk)
    (fun b => Whole fs.frag (fs.block cgp.blksfree b))
    fun b => (runCount (fs.block cgp.blksfree b) fs.frag k : ℤ)
  have hand : ∀ (p : ℕ → Prop) [DecidablePred p],
      (((range fs.nblk).filter fun b =>
        Whole fs.frag (fs.block cgp.blksfree b) ∧ p b).card : ℤ) =
      ∑ b ∈ range fs.nblk, if p b then wholeOf fs.frag (fs.block cgp.blksfree b) else 0 := by
    intro p _
    rw [card_filter_eq_sum]
    apply sum_congr rfl
    intro b _
    by_cases hp : p b
    · rw [if_pos hp]
      exact if_congr (and_iff_left hp) rfl rfl
    · rw [if_neg hp, if_neg fun h => hp h.2]
  constructor
  · intro h
    refine ⟨h.nbfree.trans hnb, h.nffree.trans hnf, ?_, ?_, ?_, h.beyond, h.frotor⟩
    · exact fun k hk hkf => (h.frsum k hk hkf).trans (hfr k)
    · exact fun c => (h.blktot c).trans (hand _)
    · exact fun c r => (h.blks c r).trans (hand _)
  · rintro ⟨h1, h2, h3, h4, h5, h6, h7⟩
    refine ⟨h1.trans hnb.symm, h2.trans hnf.symm, ?_, ?_, ?_, h6, h7⟩
    · exact fun k hk hkf => (h3 k hk hkf).trans (hfr k).symm
    · exact fun c => (h4 c).trans (hand _).symm
    · exact fun c r => (h5 c r).trans (hand _).symm

theorem sum_range_change {F G : ℕ → ℤ} {n b : ℕ} (hb : b < n) (hne : ∀ b' < n, b' ≠ b → G b' = F b') :
    ∑ b' ∈ Finset.range n, G b' = (∑ b' ∈ Finset.range n, F b') + (G b - F b) := by
  have hmem := mem_range.mpr hb
  have hrest : ∑ b' ∈ (range n).erase b, G b' = ∑ b' ∈ (range n).erase b, F b' := by
    apply sum_congr rfl
    intro b' hb'
    exact hne b' (mem_range.mp (mem_of_mem_erase hb')) (ne_of_mem_erase hb')
  rw [← add_sum_erase _ _ hmem, ← add_sum_erase _ F hmem, hrest]
  ring

/-- **One block changes.** The counts stay in order when each grows by the difference that the block
makes. -/
theorem CgOk.change (h : CgOk fs cgp) {b : ℕ} (hb : b < fs.nblk) {f g : ℕ → Bool}
    (hold : fs.block cgp.blksfree b = f) (hnew : fs.block cgp'.blksfree b = g)
    (hother : ∀ b' ≠ b, fs.block cgp'.blksfree b' = fs.block cgp.blksfree b')
    (hbeyond : ∀ i, fs.fpg ≤ i → bit cgp'.blksfree i = false)
    (hnb : cgp'.cs.nbfree = cgp.cs.nbfree + (wholeOf fs.frag g - wholeOf fs.frag f))
    (hnf : cgp'.cs.nffree = cgp.cs.nffree + (fragsOf fs.frag g - fragsOf fs.frag f))
    (hfr : ∀ k, 1 ≤ k → k < fs.frag →
      cgp'.frsum k = cgp.frsum k + (runsOf fs.frag k g - runsOf fs.frag k f))
    (htot : ∀ c, cgp'.blktot c = cgp.blktot c +
      if fs.cbtocylno (fs.blkstofrags b) = c then wholeOf fs.frag g - wholeOf fs.frag f else 0)
    (hblks : ∀ c r, cgp'.blks c r = cgp.blks c r +
      if fs.cbtocylno (fs.blkstofrags b) = c ∧ fs.cbtorpos (fs.blkstofrags b) = r then
        wholeOf fs.frag g - wholeOf fs.frag f
      else 0)
    (hfrotor : cgp'.frotor < fs.fpg) : CgOk fs cgp' := by
  obtain ⟨h1, h2, h3, h4, h5, -, -⟩ := cgOk_iff.mp h
  subst hold hnew
  have hsum : ∀ F : ℕ → (ℕ → Bool) → ℤ,
      ∑ b' ∈ range fs.nblk, F b' (fs.block cgp'.blksfree b') =
        (∑ b' ∈ range fs.nblk, F b' (fs.block cgp.blksfree b')) +
          (F b (fs.block cgp'.blksfree b) - F b (fs.block cgp.blksfree b)) := fun F =>
    sum_range_change hb fun b' _ hne => by rw [hother b' hne]
  refine cgOk_iff.mpr ⟨?_, ?_, ?_, ?_, ?_, hbeyond, hfrotor⟩
  · rw [hnb, h1, hsum fun _ f => wholeOf fs.frag f]
  · rw [hnf, h2, hsum fun _ f => fragsOf fs.frag f]
  · intro k hk hkf
    rw [hfr k hk hkf, h3 k hk hkf, hsum fun _ f => runsOf fs.frag k f]
  · intro c
    rw [htot, h4, hsum fun b f => if fs.cbtocylno (fs.blkstofrags b) = c then wholeOf fs.frag f else 0]
    split_ifs
    · rfl
    · rfl
  · intro c r
    rw [hblks, h5, hsum fun b f =>
      if fs.cbtocylno (fs.blkstofrags b) = c ∧ fs.cbtorpos (fs.blkstofrags b) = r then wholeOf fs.frag f
      else 0]
    split_ifs
    · rfl
    · rfl

end sums

/-! ## The super block -/

theorem Consistent.change {fs : Fs} {st : State} (h : Consistent fs st) {c : ℕ} (hc : c < fs.ncg)
    {cgp : Cg} {nb nf : ℤ} (hok : CgOk fs cgp) (hcgx : cgp.cgx = c)
    (hcs : cgp.cs = (st.cg c).cs.add nb nf) :
    Consistent fs ⟨st.sum.add c nb nf, update st.cg c cgp⟩ := by
  refine ⟨?_, ?_, ?_, ?_, ?_⟩
  · intro d hd
    by_cases hdc : d = c
    · subst hdc
      dsimp only
      rw [update_self]
      exact hok
    · dsimp only
      rw [update_of_ne hdc]
      exact h.group d hd
  · intro d hd
    by_cases hdc : d = c
    · subst hdc
      dsimp only
      rw [update_self]
      exact hcgx
    · dsimp only
      rw [update_of_ne hdc]
      exact h.cgx d hd
  · intro d hd
    unfold Summary.add
    by_cases hdc : d = c
    · subst hdc
      dsimp only
      rw [update_self, update_self, hcs, h.cs d hd]
    · dsimp only
      rw [update_of_ne hdc, update_of_ne hdc]
      exact h.cs d hd
  · have hsum : ∀ d < fs.ncg, d ≠ c →
        ((st.sum.add c nb nf).cs d).nbfree = (st.sum.cs d).nbfree := by
      intro d _ hdc
      unfold Summary.add
      dsimp only
      rw [update_of_ne hdc]
    rw [sum_range_change hc hsum, ← h.nbfree]
    unfold Summary.add Csum.add
    dsimp only
    rw [update_self]
    ring
  · have hsum : ∀ d < fs.ncg, d ≠ c →
        ((st.sum.add c nb nf).cs d).nffree = (st.sum.cs d).nffree := by
      intro d _ hdc
      unfold Summary.add
      dsimp only
      rw [update_of_ne hdc]
    rw [sum_range_change hc hsum, ← h.nffree]
    unfold Summary.add Csum.add
    dsimp only
    rw [update_self]
    ring

end Bsd386.Ufs.Alloc
