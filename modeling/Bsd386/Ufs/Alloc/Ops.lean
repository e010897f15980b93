import Bsd386.Ufs.Alloc.Search

/-!
# The operations of the allocator

What each operation does to a file system whose accounts are in order: it hands out or takes back one
range of fragments in one block, and the accounts stay in order (`Taken`, `Given`), or it changes nothing.
-/

namespace Bsd386.Ufs.Alloc

open Function Lib List

/-- The fragments from `a` on have been taken out of the map of a group, nothing else has changed, and
the accounts are in order. -/
structure Taken (fs : Fs) (st st' : State) (cg a n : ℕ) : Prop where
  free : ∀ i < n, bit (st.cg cg).blksfree (a + i) = true
  bits : ∀ c j, bit (st'.cg c).blksfree j =
    (bit (st.cg c).blksfree j && !decide (c = cg ∧ a ≤ j ∧ j < a + n))
  le : a + n ≤ fs.fpg
  consistent : Consistent fs st'

/-- The fragments from `a` on have been put into the map. -/
structure Given (fs : Fs) (st st' : State) (cg a n : ℕ) : Prop where
  bits : ∀ c j, bit (st'.cg c).blksfree j =
    (bit (st.cg c).blksfree j || decide (c = cg ∧ a ≤ j ∧ j < a + n))
  consistent : Consistent fs st'

/-! ## Counters -/

theorem frsum_move (frsum : ℕ → ℤ) {k m n : ℕ} (hn : 1 ≤ n) (p : Prop) [Decidable p]
    (hp : p ↔ m ≠ 0) :
    (if p then
      update (update frsum k (frsum k - 1)) m
        (update frsum k (frsum k - 1) m + 1)
    else update frsum k (frsum k - 1)) n =
      frsum n - (if n = k then 1 else 0) + if n = m then 1 else 0 := by
  have hone : update frsum k (frsum k - 1) n = frsum n - if n = k then 1 else 0 := by
    by_cases hnk : n = k
    · rw [hnk, update_self, if_pos rfl]
    · rw [update_of_ne hnk, if_neg hnk, Int.sub_zero]
  by_cases hpm : p
  · rw [if_pos hpm]
    by_cases hnm : n = m
    · rw [if_pos hnm, ← hone, hnm, update_self]
    · rw [if_neg hnm, update_of_ne hnm, hone, Int.add_zero]
  have hm : m = 0 := by
    by_contra hne
    exact hpm (hp.mpr hne)
  have hnm : ¬ n = m := by omega
  rw [if_neg hpm, hone, if_neg hnm, Int.add_zero]

theorem Csum.add_add (c : Csum) (nb nf nb' nf' : ℤ) :
    (c.add nb nf).add nb' nf' = c.add (nb + nb') (nf + nf') := by
  unfold Csum.add
  rw [Int.add_assoc, Int.add_assoc]

theorem Summary.add_add (s : Summary) (cg : ℕ) (nb nf nb' nf' : ℤ) :
    (s.add cg nb nf).add cg nb' nf' = s.add cg (nb + nb') (nf + nf') := by
  unfold Summary.add
  dsimp only
  rw [update_self, update_idem, Csum.add_add, Csum.add_add]

section addBlock

variable (fs : Fs) (cgp : Cg) (bno : ℕ) (n : ℤ)

theorem Cg.blksfree_addBlock : (cgp.addBlock fs bno n).blksfree = cgp.blksfree := rfl

theorem Cg.blktot_addBlock (cyl : ℕ) : (cgp.addBlock fs bno n).blktot cyl =
    cgp.blktot cyl + if fs.cbtocylno bno = cyl then n else 0 := by
  unfold Cg.addBlock
  dsimp only
  by_cases hcyl : cyl = fs.cbtocylno bno
  · subst hcyl
    rw [update_self, if_pos rfl]
  · rw [update_of_ne hcyl, if_neg (Ne.symm hcyl), Int.add_zero]

theorem Cg.blks_addBlock (cyl r : ℕ) : (cgp.addBlock fs bno n).blks cyl r =
    cgp.blks cyl r + if fs.cbtocylno bno = cyl ∧ fs.cbtorpos bno = r then n else 0 := by
  unfold Cg.addBlock
  dsimp only
  by_cases hcyl : cyl = fs.cbtocylno bno
  · subst hcyl
    rw [update_self]
    by_cases hr : r = fs.cbtorpos bno
    · subst hr
      rw [update_self, if_pos ⟨rfl, rfl⟩]
    · rw [update_of_ne hr, if_neg fun h => hr h.2.symm, Int.add_zero]
  · rw [update_of_ne hcyl, if_neg fun h => hcyl h.1.symm, Int.add_zero]

end addBlock

section ops

variable {fs : Fs} {st st' : State} {cg : ℕ}

theorem Taken.of_change (h : Consistent fs st) (hcg : cg < fs.ncg) {cgp : Cg} {nb nf : ℤ} {a n : ℕ}
    (hok : CgOk fs cgp) (hcgx : cgp.cgx = cg) (hcs : cgp.cs = (st.cg cg).cs.add nb nf)
    (hmap : ∀ j, bit cgp.blksfree j =
      (bit (st.cg cg).blksfree j && !decide (a ≤ j ∧ j < a + n)))
    (hfree : ∀ i < n, bit (st.cg cg).blksfree (a + i) = true) (hle : a + n ≤ fs.fpg) :
    Taken fs st ⟨st.sum.add cg nb nf, update st.cg cg cgp⟩ cg a n := by
  refine ⟨hfree, ?_, hle, h.change hcg hok hcgx hcs⟩
  intro c j
  dsimp only
  by_cases hc : c = cg
  · subst hc
    rw [update_self, hmap, decide_eq_decide.mpr (and_iff_right rfl)]
  · rw [update_of_ne hc, decide_eq_false fun hin => hc hin.1, Bool.not_false, Bool.and_true]

theorem Given.of_change (h : Consistent fs st) (hcg : cg < fs.ncg) {cgp : Cg} {nb nf : ℤ} {a n : ℕ}
    (hok : CgOk fs cgp) (hcgx : cgp.cgx = cg) (hcs : cgp.cs = (st.cg cg).cs.add nb nf)
    (hmap : ∀ j, bit cgp.blksfree j =
      (bit (st.cg cg).blksfree j || decide (a ≤ j ∧ j < a + n))) :
    Given fs st ⟨st.sum.add cg nb nf, update st.cg cg cgp⟩ cg a n := by
  refine ⟨?_, h.change hcg hok hcgx hcs⟩
  intro c j
  dsimp only
  by_cases hc : c = cg
  · subst hc
    rw [update_self, hmap, decide_eq_decide.mpr (and_iff_right rfl)]
  · rw [update_of_ne hc, decide_eq_false fun hin => hc hin.1, Bool.or_false]

theorem bits_of_isRun {cgp : Cg} {b p k c : ℕ} (hrun : IsRun (fs.block cgp.blksfree b) fs.frag p k)
    (hck : c ≤ k) : ∀ i < c, bit cgp.blksfree (b * fs.frag + p + i) = true := by
  intro i hi
  have hle := hrun.le
  have hbit := hrun.bits i (by omega)
  rw [block_of_lt (by omega), ← Nat.add_assoc] at hbit
  exact hbit

theorem isRun_of_whole {map : FreeMap} {b : ℕ} (h : Whole fs.frag (fs.block map b)) :
    IsRun (fs.block map b) fs.frag 0 fs.frag := isRun_full h

/-! ## Allocation -/

theorem alloccgblk_spec {sum sum' : Summary} {cgp cgp' : Cg} {bpref r : ℕ}
    (hrotor : cgp.frotor < fs.fpg) (h : alloccgblk fs sum cgp bpref = some (r, sum', cgp')) :
    ∃ b q rot, Whole fs.frag (fs.block cgp.blksfree b) ∧ q < fs.fpg ∧
      r = cgp.cgx * fs.fpg + b * fs.frag ∧ sum' = sum.add cgp.cgx (-1) 0 ∧
      cgp' = Cg.addBlock fs { cgp with
        frotor := q, rotor := rot, blksfree := clrblock fs.frag cgp.blksfree b,
        cs := cgp.cs.add (-1) 0 } (fs.blkstofrags b) (-1) := by
  obtain ⟨⟨bno, cgp1⟩, hchoose, heq⟩ := Option.map_eq_some_iff.mp h
  obtain ⟨b, q, rot, rfl, hwhole, hq, rfl⟩ := choose_spec hrotor hchoose
  obtain ⟨hr, heq⟩ := Prod.mk.inj heq
  obtain ⟨hsum, hcgp⟩ := Prod.mk.inj heq
  have hdiv : fs.fragstoblks (b * fs.frag) = b := Nat.mul_div_cancel b fs.frag_width.pos
  rw [hdiv] at hcgp
  exact ⟨b, q, rot, hwhole, hq, hr.symm, hsum.symm, hcgp.symm⟩

theorem CgOk.takeBlock {cgp cgp' : Cg} (h : CgOk fs cgp) {b c : ℕ}
    (hwhole : Whole fs.frag (fs.block cgp.blksfree b)) (hc : 1 ≤ c) (hcf : c ≤ fs.frag)
    (hmap : ∀ j, bit cgp'.blksfree j =
      (bit cgp.blksfree j && !decide (b * fs.frag ≤ j ∧ j < b * fs.frag + c)))
    (hcs : cgp'.cs = cgp.cs.add (-1) (fs.frag - c))
    (hfr : ∀ n, 1 ≤ n → n < fs.frag → cgp'.frsum n = cgp.frsum n + if n = fs.frag - c then 1 else 0)
    (htot : ∀ cyl, cgp'.blktot cyl = cgp.blktot cyl +
      if fs.cbtocylno (fs.blkstofrags b) = cyl then -1 else 0)
    (hblks : ∀ cyl r, cgp'.blks cyl r = cgp.blks cyl r +
      if fs.cbtocylno (fs.blkstofrags b) = cyl ∧ fs.cbtorpos (fs.blkstofrags b) = r then -1 else 0)
    (hfrotor : cgp'.frotor < fs.fpg) : CgOk fs cgp' := by
  refine h.take (isRun_of_whole hwhole) hc hcf hmap ?_ ?_ ?_ ?_ ?_ hfrotor
  · rw [hcs, if_pos rfl]
    rfl
  · rw [hcs, if_pos rfl]
    unfold Csum.add
    ring
  · intro n hn hnf
    rw [hfr n hn hnf, if_neg (Nat.ne_of_lt hnf), Int.sub_zero]
  · intro cyl
    rw [htot, if_pos (rfl : fs.frag = fs.frag)]
    split_ifs
    · ring
    · ring
  · intro cyl r
    rw [hblks, if_pos (rfl : fs.frag = fs.frag)]
    split_ifs
    · ring
    · ring

theorem Fs.numfrags_bounds {size : ℕ} (hpos : 0 < size) (hle : size ≤ fs.bsize)
    (hoff : fs.fragoff size = 0) :
    1 ≤ fs.numfrags size ∧ fs.numfrags size ≤ fs.frag ∧
      (fs.numfrags size = fs.frag ↔ size = fs.bsize) := by
  unfold Fs.bsize at hle ⊢
  unfold Fs.numfrags
  obtain ⟨n, rfl⟩ := Nat.dvd_of_mod_eq_zero hoff
  have hf := fs.fsize_pos
  rw [Nat.mul_div_cancel_left _ hf, Nat.mul_comm fs.frag]
  refine ⟨?_, ?_, ?_⟩
  · exact Nat.pos_of_ne_zero fun h0 => by rw [h0] at hpos; exact absurd hpos (Nat.lt_irrefl _)
  · rw [Nat.mul_comm fs.frag] at hle
    exact Nat.le_of_mul_le_mul_left hle hf
  · exact ⟨fun h => by rw [h], fun h => Nat.eq_of_mul_eq_mul_left hf h⟩

section

variable (h : Consistent fs st) (hcg : cg < fs.ncg)
include h hcg

theorem taken_block {bpref r : ℕ} {sum : Summary} {cgp : Cg}
    (hblk : alloccgblk fs st.sum (st.cg cg) bpref = some (r, sum, cgp)) :
    ∃ a, r = cg * fs.fpg + a ∧
      Taken fs st ⟨sum, update st.cg cg cgp⟩ cg a fs.frag := by
  have hok := h.group cg hcg
  obtain ⟨b, q, rot, hwhole, hq, hr, hsum, hcgp⟩ := alloccgblk_spec hok.frotor hblk
  rw [h.cgx cg hcg] at hr hsum
  have hb := lt_nblk_of_bit hok (hwhole 0 fs.frag_width.pos)
  have hbits : ∀ j, bit cgp.blksfree j = (bit (st.cg cg).blksfree j &&
      !decide (b * fs.frag ≤ j ∧ j < b * fs.frag + fs.frag)) := by
    intro j
    rw [hcgp]
    exact bit_clrblock fs.frag_width _ b j
  refine ⟨b * fs.frag, hr, ?_⟩
  rw [hsum]
  refine Taken.of_change h hcg ?_ ?_ ?_ hbits ?_ (block_end_le hb)
  · refine hok.takeBlock hwhole fs.frag_width.pos (Nat.le_refl _) hbits ?_ ?_ ?_ ?_ ?_
    · rw [hcgp, Int.sub_self]
      rfl
    · intro n hn _
      rw [hcgp, Nat.sub_self, if_neg (by omega), Int.add_zero]
      rfl
    · intro cyl
      rw [hcgp]
      exact Cg.blktot_addBlock ..
    · intro cyl r
      rw [hcgp]
      exact Cg.blks_addBlock ..
    · rw [hcgp]
      exact hq
  · rw [hcgp]
    exact h.cgx cg hcg
  · rw [hcgp]
    rfl
  · exact bits_of_isRun (p := 0) (isRun_of_whole hwhole) (Nat.le_refl _)

theorem taken_cut {bpref r n : ℕ} {sum : Summary} {cgp : Cg} (hn : 1 ≤ n) (hnf : n < fs.frag)
    (hblk : alloccgblk fs st.sum (st.cg cg) bpref = some (r, sum, cgp)) :
    ∃ a, r = cg * fs.fpg + a ∧
      Taken fs st ⟨sum.add cg 0 ((fs.frag - n : ℕ) : ℤ), update st.cg cg { cgp with
        blksfree := setbits cgp.blksfree (fs.dtogd r + n) (fs.frag - n)
        cs := cgp.cs.add 0 ((fs.frag - n : ℕ) : ℤ)
        frsum := update cgp.frsum (fs.frag - n) (cgp.frsum (fs.frag - n) + 1) }⟩ cg a n := by
  have hok := h.group cg hcg
  obtain ⟨b, q, rot, hwhole, hq, hr, hsum, hcgp⟩ := alloccgblk_spec hok.frotor hblk
  rw [h.cgx cg hcg] at hr hsum
  have hb := lt_nblk_of_bit hok (hwhole 0 fs.frag_width.pos)
  have hend := block_end_le hb
  have hmod : fs.dtogd r = b * fs.frag := by
    unfold Fs.dtogd
    rw [hr, Nat.mul_comm, Nat.mul_add_mod, Nat.mod_eq_of_lt (by omega)]
  have hbits : ∀ j, bit (setbits cgp.blksfree (fs.dtogd r + n) (fs.frag - n)) j =
      (bit (st.cg cg).blksfree j && !decide (b * fs.frag ≤ j ∧ j < b * fs.frag + n)) := by
    intro j
    have hclr : bit cgp.blksfree j = (bit (st.cg cg).blksfree j &&
        !decide (b * fs.frag ≤ j ∧ j < b * fs.frag + fs.frag)) := by
      rw [hcgp]
      exact bit_clrblock fs.frag_width _ b j
    rw [bit_setbits, hclr, hmod]
    by_cases hin : b * fs.frag ≤ j ∧ j < b * fs.frag + fs.frag
    · have hone := bits_of_isRun (p := 0) (isRun_of_whole hwhole) (Nat.le_refl _) (j - b * fs.frag)
        (by omega)
      rw [Nat.add_zero, Nat.add_sub_cancel' hin.1] at hone
      rw [decide_eq_true hin, hone, Bool.true_and, Bool.true_and, Bool.not_true, Bool.false_or,
        ← decide_not]
      exact decide_eq_decide.mpr (by omega)
    · have hout : ¬(b * fs.frag ≤ j ∧ j < b * fs.frag + n) := by omega
      have hout' : ¬(b * fs.frag + n ≤ j ∧ j < b * fs.frag + n + (fs.frag - n)) := by omega
      rw [decide_eq_false hin, decide_eq_false hout, decide_eq_false hout', Bool.or_false]
  refine ⟨b * fs.frag, hr, ?_⟩
  rw [hsum, Summary.add_add]
  refine Taken.of_change h hcg ?_ ?_ ?_ hbits ?_ (by omega)
  · refine hok.takeBlock hwhole hn (Nat.le_of_lt hnf) hbits ?_ ?_ ?_ ?_ ?_
    · rw [hcgp]
      change (Csum.add _ _ _).add _ _ = _
      rw [Csum.add_add, Int.add_zero, Int.zero_add, Nat.cast_sub (Nat.le_of_lt hnf)]
    · intro k _ _
      have hold : cgp.frsum = (st.cg cg).frsum := by
        rw [hcgp]
        rfl
      dsimp only
      rw [hold]
      by_cases hk : k = fs.frag - n
      · rw [hk, update_self, if_pos rfl]
      · rw [update_of_ne hk, if_neg hk, Int.add_zero]
    · intro cyl
      rw [hcgp]
      exact Cg.blktot_addBlock ..
    · intro cyl r
      rw [hcgp]
      exact Cg.blks_addBlock ..
    · rw [hcgp]
      exact hq
  · rw [hcgp]
    exact h.cgx cg hcg
  · rw [hcgp]
    change (Csum.add _ _ _).add _ _ = _
    rw [Csum.add_add]
  · exact bits_of_isRun (p := 0) (isRun_of_whole hwhole) (Nat.le_of_lt hnf)

theorem taken_run {b p k n q : ℕ} (hrun : IsRun (fs.block (st.cg cg).blksfree b) fs.frag p k)
    (hn : 1 ≤ n) (hnk : n ≤ k) (hkf : k < fs.frag) (hq : q < fs.fpg) {map : FreeMap} {frsum : ℕ → ℤ}
    (hmap : map = clrbits (st.cg cg).blksfree (b * fs.frag + p) n)
    (hfr : ∀ m, 1 ≤ m → frsum m = (st.cg cg).frsum m - (if m = k then 1 else 0) + if m =
      k - n then 1 else 0) :
    Taken fs st ⟨st.sum.add cg 0 (-n), update st.cg cg { st.cg cg with
      frotor := q, blksfree := map, cs := (st.cg cg).cs.add 0 (-n), frsum := frsum }⟩
      cg (b * fs.frag + p) n := by
  have hok := h.group cg hcg
  have hle := hrun.le
  have hb := lt_nblk_of_bit hok (hrun.bits 0 (by omega))
  have hend := block_end_le hb
  have hne : ¬ k = fs.frag := Nat.ne_of_lt hkf
  have hbits : ∀ j, bit map j = (bit (st.cg cg).blksfree j &&
      !decide (b * fs.frag + p ≤ j ∧ j < b * fs.frag + p + n)) := by
    intro j
    rw [hmap]
    exact bit_clrbits ..
  refine Taken.of_change h hcg ?_ ?_ ?_ hbits ?_ (by omega)
  · refine hok.take hrun hn hnk hbits ?_ ?_ ?_ ?_ ?_ hq
    · rw [if_neg hne]
      exact (Int.add_zero _).trans (Int.sub_zero _).symm
    · rw [if_neg hne]
      exact (Int.add_zero _).symm
    · exact fun m hm _ => hfr m hm
    · intro cyl
      rw [if_neg hne, ite_self]
      exact (Int.sub_zero _).symm
    · intro cyl r
      rw [if_neg hne, ite_self]
      exact (Int.sub_zero _).symm
  · exact h.cgx cg hcg
  · rfl
  · exact bits_of_isRun hrun hnk

theorem alloccg_spec {bpref size r : ℕ} {error : Bool} (hpos : 0 < size) (hle : size ≤ fs.bsize)
    (hoff : fs.fragoff size = 0) (hrun : alloccg fs st cg bpref size error = some (r, st')) :
    (r = 0 ∧ st' = st) ∨
      ∃ a, r = cg * fs.fpg + a ∧ Taken fs st st' cg a (fs.numfrags size) := by
  obtain ⟨hn, hnf, hfull⟩ := Fs.numfrags_bounds hpos hle hoff
  have hnone : some (0, st) = some (r, st') → (r = 0 ∧ st' = st) ∨
      ∃ a, r = cg * fs.fpg + a ∧ Taken fs st st' cg a (fs.numfrags size) := by
    intro heq
    obtain ⟨hr, hst⟩ := Prod.mk.inj (Option.some.inj heq)
    exact Or.inl ⟨hr.symm, hst.symm⟩
  unfold alloccg at hrun
  dsimp only at hrun
  by_cases h1 : (st.sum.cs cg).nbfree = 0 ∧ size = fs.bsize
  · rw [if_pos h1] at hrun
    exact hnone hrun
  rw [if_neg h1] at hrun
  by_cases h2 : error = true
  · rw [if_pos h2] at hrun
    exact hnone hrun
  rw [if_neg h2] at hrun
  by_cases h3 : (st.cg cg).magic = false ∨ ((st.cg cg).cs.nbfree = 0 ∧ size = fs.bsize)
  · rw [if_pos h3] at hrun
    exact hnone hrun
  rw [if_neg h3] at hrun
  by_cases h4 : size = fs.bsize
  · rw [if_pos h4] at hrun
    right
    obtain ⟨⟨r1, sum, cgp⟩, hblk, heq⟩ := Option.map_eq_some_iff.mp hrun
    obtain ⟨rfl, rfl⟩ := Prod.mk.inj heq
    rw [hfull.mpr h4]
    exact taken_block h hcg hblk
  · rw [if_neg h4] at hrun
    have hlt : fs.numfrags size < fs.frag := Nat.lt_of_le_of_ne hnf fun heq => h4 (hfull.mp heq)
    split at hrun
    · by_cases h5 : (st.cg cg).cs.nbfree = 0
      · rw [if_pos h5] at hrun
        exact hnone hrun
      · rw [if_neg h5] at hrun
        right
        obtain ⟨⟨r1, sum, cgp⟩, hblk, heq⟩ := Option.map_eq_some_iff.mp hrun
        obtain ⟨rfl, rfl⟩ := Prod.mk.inj heq
        exact taken_cut h hcg hn hlt hblk
    · -- a run that is long enough
      rename_i allocsiz hfind
      right
      obtain ⟨⟨bno, cgp⟩, hsearch, heq⟩ := Option.map_eq_some_iff.mp hrun
      have hmem := mem_range'_1.mp (mem_of_find?_eq_some hfind)
      obtain ⟨b, p, q, rfl, hisrun, hq, rfl⟩ :=
        mapsearch_spec (h.group cg hcg).frotor (by omega) (by omega) hsearch
      obtain ⟨rfl, rfl⟩ := Prod.mk.inj heq
      refine ⟨b * fs.frag + p, rfl, ?_⟩
      refine taken_run h hcg hisrun hn hmem.1 (by omega) hq rfl ?_
      intro m hm
      exact frsum_move _ hm _ (by omega)

end

/-! ## Extension -/

theorem extent_end {map : FreeMap} {a first stop i : ℕ} (hle : first ≤ stop)
    (hi : ((List.range' first (stop - first)).find? fun i => isclr map (a + i)).getD
      (max first stop) = i) :
    first ≤ i ∧ i ≤ stop ∧ (∀ j, first ≤ j → j < i → bit map (a + j) = true) ∧
      (i = stop ∨ bit map (a + i) = false) := by
  cases hfind : (range' first (stop - first)).find? fun i => isclr map (a + i) with
  | none =>
    rw [hfind, Option.getD_none, Nat.max_eq_right hle] at hi
    subst hi
    refine ⟨hle, Nat.le_refl _, ?_, Or.inl rfl⟩
    intro j hj hji
    have hnot := find?_eq_none.mp hfind j (mem_range'_1.mpr (by omega))
    rw [isclr_eq, Bool.not_eq_true', Bool.not_eq_false] at hnot
    exact hnot
  | some k =>
    rw [hfind, Option.getD_some] at hi
    subst hi
    obtain ⟨hclr, hmem, hbefore⟩ := find?_range'_eq_some.mp hfind
    have hrange := mem_range'_1.mp hmem
    rw [isclr_eq, Bool.not_eq_true'] at hclr
    refine ⟨hrange.1, by omega, ?_, Or.inr hclr⟩
    intro j hj hji
    have hnot := hbefore j hj hji
    rw [isclr_eq, Bool.not_not] at hnot
    exact hnot

theorem dtogd_eq (fs : Fs) (d : ℕ) : fs.dtogd d = fs.dtogd d / fs.frag * fs.frag + fs.fragnum d := by
  have hmod : fs.fragnum d = fs.dtogd d % fs.frag := (Nat.mod_mod_of_dvd d fs.fpg_dvd).symm
  rw [hmod, Nat.mul_comm]
  exact (Nat.div_add_mod _ _).symm

theorem inside_block {d n : ℕ} (hnf : n ≤ fs.frag)
    (h : ¬ fs.fragnum (d + n - 1) < fs.fragnum d) : fs.fragnum d + n ≤ fs.frag := by
  unfold Fs.fragnum at h ⊢
  have hlt : d % fs.frag < fs.frag := Nat.mod_lt _ fs.frag_width.pos
  by_contra hgt
  apply h
  have hsplit : d + n - 1 = (d % fs.frag + n - 1 - fs.frag) + fs.frag * (d / fs.frag + 1) := by
    have hdiv := Nat.div_add_mod d fs.frag
    rw [Nat.mul_add, Nat.mul_one]
    omega
  rw [hsplit, Nat.add_mul_mod_self_left, Nat.mod_eq_of_lt (by omega)]
  omega

theorem fragextend_spec (h : Consistent fs st) {bprev osize nsize r : ℕ} {error : Bool}
    (hcg : fs.dtog bprev < fs.ncg) (hpos : 0 < osize) (hlt : osize < nsize) (hle : nsize ≤ fs.bsize)
    (hoff : fs.fragoff osize = 0) (hoff' : fs.fragoff nsize = 0)
    (hold : fs.fragnum bprev + fs.numfrags nsize ≤ fs.frag →
      bit (st.cg (fs.dtog bprev)).blksfree (fs.dtogd bprev + fs.numfrags osize - 1) = false)
    (hrun : fragextend fs st (fs.dtog bprev) bprev osize nsize error = (r, st')) :
    (r = 0 ∧ st' = st) ∨ (r = bprev ∧
      Taken fs st st' (fs.dtog bprev) (fs.dtogd bprev + fs.numfrags osize)
        (fs.numfrags nsize - fs.numfrags osize)) := by
  obtain ⟨ho, -, -⟩ := Fs.numfrags_bounds hpos (by omega) hoff
  obtain ⟨hn, hnf, -⟩ := Fs.numfrags_bounds (by omega) hle hoff'
  have hon : fs.numfrags osize < fs.numfrags nsize := by
    exact Nat.div_lt_div_of_lt_of_dvd (Nat.dvd_of_mod_eq_zero hoff') hlt
  have hnone : (0, st) = (r, st') → (r = 0 ∧ st' = st) ∨ (r = bprev ∧
      Taken fs st st' (fs.dtog bprev) (fs.dtogd bprev + fs.numfrags osize)
        (fs.numfrags nsize - fs.numfrags osize)) := by
    intro heq
    obtain ⟨hr, hst⟩ := Prod.mk.inj heq
    exact Or.inl ⟨hr.symm, hst.symm⟩
  unfold fragextend at hrun
  by_cases h1 : (st.sum.cs (fs.dtog bprev)).nffree < (fs.numfrags (nsize - osize) : ℤ)
  · rw [if_pos h1] at hrun
    exact hnone hrun
  rw [if_neg h1] at hrun
  by_cases h2 : fs.fragnum (bprev + fs.numfrags nsize - 1) < fs.fragnum bprev
  · rw [if_pos h2] at hrun
    exact hnone hrun
  rw [if_neg h2] at hrun
  by_cases h3 : error = true
  · rw [if_pos h3] at hrun
    exact hnone hrun
  rw [if_neg h3] at hrun
  by_cases h4 : (st.cg (fs.dtog bprev)).magic = false
  · rw [if_pos h4] at hrun
    exact hnone hrun
  rw [if_neg h4] at hrun
  by_cases h5 : ((range' (fs.numfrags osize) (fs.numfrags nsize - fs.numfrags osize)).any fun i =>
      isclr (st.cg (fs.dtog bprev)).blksfree (fs.dtogd bprev + i)) = true
  · rw [if_pos h5] at hrun
    exact hnone hrun
  rw [if_neg h5] at hrun
  right
  -- the extent is inside its block, and a maximal run begins where it ends
  have hin := inside_block hnf h2
  obtain ⟨i, hi⟩ : ∃ i, ((range' (fs.numfrags nsize)
      (fs.frag - fs.fragnum bprev - fs.numfrags nsize)).find? fun i =>
        isclr (st.cg (fs.dtog bprev)).blksfree (fs.dtogd bprev + i)).getD
          (max (fs.numfrags nsize) (fs.frag - fs.fragnum bprev)) = i := ⟨_, rfl⟩
  obtain ⟨hfi, his, hfree, hstop⟩ := extent_end (by omega) hi
  rw [hi] at hrun
  obtain ⟨hr, hst⟩ := Prod.mk.inj hrun
  have hplace := dtogd_eq fs bprev
  have hbefore : ∀ j, fs.numfrags osize ≤ j → j < i →
      bit (st.cg (fs.dtog bprev)).blksfree (fs.dtogd bprev + j) = true := by
    intro j hj hji
    by_cases hjn : fs.numfrags nsize ≤ j
    · exact hfree j hjn hji
    by_contra hclr
    apply h5
    rw [any_eq_true]
    refine ⟨j, mem_range'_1.mpr (by omega), ?_⟩
    rw [isclr_eq, Bool.not_eq_true']
    exact Bool.eq_false_iff.mpr hclr
  have hisrun : IsRun (fs.block (st.cg (fs.dtog bprev)).blksfree (fs.dtogd bprev / fs.frag)) fs.frag
      (fs.fragnum bprev + fs.numfrags osize) (i - fs.numfrags osize) := by
    refine ⟨by omega, ?_, Or.inr ?_, ?_⟩
    · intro j hj
      have hbit := hbefore (fs.numfrags osize + j) (by omega) (by omega)
      rw [block_of_lt (by omega), ← Nat.add_assoc, ← Nat.add_assoc, ← hplace, Nat.add_assoc]
      exact hbit
    · rw [block_of_lt (by omega), ← Nat.add_sub_assoc (by omega), ← Nat.add_assoc, ← hplace]
      exact hold hin
    · rw [show fs.fragnum bprev + fs.numfrags osize + (i - fs.numfrags osize) =
        fs.fragnum bprev + i by omega]
      by_cases hend : fs.fragnum bprev + i = fs.frag
      · exact Or.inl hend
      · rw [block_of_lt (by omega), ← Nat.add_assoc, ← hplace]
        exact Or.inr (hstop.resolve_left (by omega))
  refine ⟨hr.symm, ?_⟩
  rw [← hst, hplace, Nat.add_assoc]
  refine taken_run h hcg hisrun (by omega) (by omega) (by omega) (h.group _ hcg).frotor ?_ ?_
  · rw [← Nat.add_assoc, ← hplace]
  · intro m hm
    have hmove := frsum_move (st.cg (fs.dtog bprev)).frsum (k := i - fs.numfrags osize)
      (m := i - fs.numfrags nsize) hm (i ≠ fs.numfrags nsize) (by omega)
    rw [show i - fs.numfrags osize - (fs.numfrags nsize - fs.numfrags osize) =
      i - fs.numfrags nsize by omega]
    exact hmove

/-! ## Freeing -/

theorem blkfree_spec (h : Consistent fs st) {bno size : ℕ} {error : Bool}
    (hcg : fs.dtog bno < fs.ncg) (hpos : 0 < size) (hin : fs.fragnum bno + fs.numfrags size ≤ fs.frag)
    (hused : ∀ i < fs.numfrags size,
      bit (st.cg (fs.dtog bno)).blksfree (fs.dtogd bno + i) = false)
    (hrun : blkfree fs st bno size error = some st') :
    st' = st ∨ Given fs st st' (fs.dtog bno) (fs.dtogd bno) (fs.numfrags size) := by
  have hok := h.group _ hcg
  have hcgx := h.cgx _ hcg
  have hplace := dtogd_eq fs bno
  obtain ⟨b, hb⟩ : ∃ b, fs.dtogd bno / fs.frag = b := ⟨_, rfl⟩
  rw [hb] at hplace
  have hbn : b < fs.nblk := by
    rw [← hb]
    exact Nat.div_lt_div_of_lt_of_dvd fs.fpg_dvd (Nat.mod_lt _ fs.fpg_pos)
  unfold blkfree at hrun
  by_cases h₀ : fs.bsize < size ∨ fs.fragoff size ≠ 0
  · rw [if_pos h₀] at hrun
    exact absurd hrun (by simp)
  rw [if_neg h₀] at hrun
  by_cases h1 : fs.size ≤ bno
  · rw [if_pos h1] at hrun
    exact Or.inl (Option.some.inj hrun).symm
  rw [if_neg h1] at hrun
  by_cases h2 : error = true
  · rw [if_pos h2] at hrun
    exact Or.inl (Option.some.inj hrun).symm
  rw [if_neg h2] at hrun
  by_cases h3 : (st.cg (fs.dtog bno)).magic = false
  · rw [if_pos h3] at hrun
    exact Or.inl (Option.some.inj hrun).symm
  rw [if_neg h3] at hrun
  right
  obtain ⟨hn, hnf, hfull⟩ := Fs.numfrags_bounds hpos (show size ≤ fs.bsize by omega)
    (show fs.fragoff size = 0 by omega)
  have hclr : ∀ i < fs.numfrags size, bit (st.cg (fs.dtog bno)).blksfree
      (b * fs.frag + fs.fragnum bno + i) = false := by
    intro i hi
    rw [← hplace]
    exact hused i hi
  by_cases h4 : size = fs.bsize
  · -- a whole block
    rw [if_pos h4] at hrun
    have hnum := hfull.mpr h4
    have h0 : fs.fragnum bno = 0 := by omega
    rw [h0, Nat.add_zero] at hplace
    have hblk : fs.fragstoblks (fs.dtogd bno) = b := hb
    split_ifs at hrun with h5
    rw [← Option.some.inj hrun, hblk, hnum]
    have hbits : ∀ j, bit (setblock fs.frag (st.cg (fs.dtog bno)).blksfree b) j =
        (bit (st.cg (fs.dtog bno)).blksfree j ||
          decide (fs.dtogd bno ≤ j ∧ j < fs.dtogd bno + fs.frag)) := by
      intro j
      rw [hplace]
      exact bit_setblock fs.frag_width _ b j
    refine Given.of_change h hcg ?_ hcgx rfl hbits
    have hwhole : Whole fs.frag
        (fs.block (setblock fs.frag (st.cg (fs.dtog bno)).blksfree b) b) := by
      intro j hj
      rw [block_of_lt hj, hbits, decide_eq_true (by omega), Bool.or_true]
    have hempty : ∀ j < fs.frag, fs.block (st.cg (fs.dtog bno)).blksfree b j = false := by
      intro j hj
      have hbit := hclr j (by omega)
      rw [h0, Nat.add_zero] at hbit
      rw [block_of_lt hj]
      exact hbit
    refine hok.give (p := 0) hbn fs.frag_width.pos (by omega) ?_ ?_ ?_ ?_ ?_ ?_ ?_ hok.frotor
    · intro i hi
      have hbit := hclr i (by omega)
      rwa [h0] at hbit
    · intro j
      rw [Nat.add_zero, ← hplace]
      exact hbits j
    · rw [Cg.blksfree_addBlock, if_pos hwhole]
      rfl
    · rw [Cg.blksfree_addBlock, if_pos hwhole, Int.add_sub_cancel]
      exact Int.add_zero _
    · intro n hn' hnf'
      have hold := runCount_empty hempty hn'
      have hnew := runCount_full hwhole hn'
      rw [if_neg (Nat.ne_of_lt hnf')] at hnew
      rw [hold, Cg.blksfree_addBlock, hnew]
      exact ((Int.add_zero _).trans (Int.sub_zero _)).symm
    · intro cyl
      rw [Cg.blksfree_addBlock, if_pos hwhole, hplace]
      exact Cg.blktot_addBlock ..
    · intro cyl r
      rw [Cg.blksfree_addBlock, if_pos hwhole, hplace]
      exact Cg.blks_addBlock ..
  · -- a part of a block
    rw [if_neg h4] at hrun
    obtain ⟨map, hmap, hst⟩ := Option.map_eq_some_iff.mp hrun
    obtain ⟨hmap, -⟩ := freebits_eq hmap
    have hbase : fs.dtogd bno - fs.fragnum (fs.dtogd bno) = b * fs.frag := by
      have hmod : fs.fragnum (fs.dtogd bno) = fs.fragnum bno := Nat.mod_mod_of_dvd bno fs.fpg_dvd
      omega
    have hblk : fs.fragstoblks (b * fs.frag) = b := Nat.mul_div_cancel b fs.frag_width.pos
    have hbits : ∀ j, bit map j = (bit (st.cg (fs.dtog bno)).blksfree j ||
        decide (fs.dtogd bno ≤ j ∧ j < fs.dtogd bno + fs.numfrags size)) := by
      intro j
      rw [hmap]
      exact bit_setbits ..
    have hruns : ∀ (map : FreeMap) (frsum : ℕ → ℤ) (cnt : ℤ) (n : ℕ), 1 ≤ n → n < fs.frag →
        fragacct fs.frag (blkmap fs.frag map (b * fs.frag)) frsum cnt n =
          frsum n + cnt * runCount (fs.block map b) fs.frag n := by
      intro map frsum cnt n hn' hnf'
      rw [fragacct_apply fs.frag_width map b frsum cnt hn' hnf',
        runCount_congr (fun j hj => block_of_lt hj) hn']
    rw [hbase, hblk] at hst
    have hfr : ∀ n, 1 ≤ n → n < fs.frag →
        fragacct fs.frag (blkmap fs.frag map (b * fs.frag))
          (fragacct fs.frag (blkmap fs.frag (st.cg (fs.dtog bno)).blksfree (b * fs.frag))
            (st.cg (fs.dtog bno)).frsum (-1)) 1 n =
        (st.cg (fs.dtog bno)).frsum n -
          runCount (fs.block (st.cg (fs.dtog bno)).blksfree b) fs.frag n +
            runCount (fs.block map b) fs.frag n := by
      intro n hn' hnf'
      rw [hruns _ _ _ n hn' hnf', hruns _ _ _ n hn' hnf']
      ring
    by_cases h5 : isblock fs.frag map b = true
    · have hwhole := whole_of_isblock.mp h5
      rw [if_pos h5, Summary.add_add] at hst
      rw [← hst]
      refine Given.of_change h hcg ?_ hcgx (Csum.add_add ..) hbits
      refine hok.give hbn hn hin hclr ?_ ?_ ?_ hfr ?_ ?_ hok.frotor
      · intro j
        rw [← hplace]
        exact hbits j
      · rw [Cg.blksfree_addBlock, if_pos hwhole]
        change _ + 0 + 1 = _
        rw [Int.add_zero]
      · rw [Cg.blksfree_addBlock, if_pos hwhole]
        change _ + _ + -_ = _
        rw [← Int.sub_eq_add_neg]
      · intro cyl
        rw [Cg.blksfree_addBlock, if_pos hwhole]
        exact Cg.blktot_addBlock ..
      · intro cyl r
        rw [Cg.blksfree_addBlock, if_pos hwhole]
        exact Cg.blks_addBlock ..
    · have hwhole : ¬Whole fs.frag (fs.block map b) := fun hw => h5 (whole_of_isblock.mpr hw)
      rw [if_neg h5] at hst
      rw [← hst]
      refine Given.of_change h hcg ?_ hcgx rfl hbits
      refine hok.give hbn hn hin hclr ?_ ?_ ?_ hfr ?_ ?_ hok.frotor
      · intro j
        rw [← hplace]
        exact hbits j
      · rw [if_neg hwhole]
        rfl
      · rw [if_neg hwhole, Nat.cast_zero, Int.sub_zero]
        rfl
      · intro cyl
        rw [if_neg hwhole, ite_self, Int.add_zero]
      · intro cyl r
        rw [if_neg hwhole, ite_self, Int.add_zero]

end ops

end Bsd386.Ufs.Alloc
