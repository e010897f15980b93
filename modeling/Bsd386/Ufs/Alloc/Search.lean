import Bsd386.Ufs.Alloc.Account

/-!
# Taking bits out of the map and putting them back

What an operation does to the accounts depends only on the bits: `CgOk.take` for the front of a maximal
run that is taken out of the map, be it a block, a part of a block or the fragments behind an extent, and
`CgOk.give` for bits that are put back.
-/

namespace Bsd386.Ufs.Alloc

open Lib Option

/-! ## Bits by block -/

section bits

variable (fs : Fs) {map map' : FreeMap} {b p n : ℕ}

theorem bit_clrbits (map : FreeMap) (first n j : ℕ) :
    bit (clrbits map first n) j = (bit map j && !decide (first ≤ j ∧ j < first + n)) := by
  induction n with
  | zero =>
    rw [decide_eq_false (show ¬(first ≤ j ∧ j < first + 0) by omega), Bool.not_false, Bool.and_true]
    rfl
  | succ n ih =>
    unfold clrbits
    rw [bit_clrbit, ih, Bool.and_assoc, ← Bool.not_or, ← Bool.decide_or]
    congr 2
    exact decide_eq_decide.mpr (by omega)

theorem bit_setbits (map : FreeMap) (first n j : ℕ) :
    bit (setbits map first n) j = (bit map j || decide (first ≤ j ∧ j < first + n)) := by
  induction n with
  | zero =>
    rw [decide_eq_false (show ¬(first ≤ j ∧ j < first + 0) by omega), Bool.or_false]
    rfl
  | succ n ih =>
    unfold setbits
    rw [bit_setbit, ih, Bool.or_assoc, ← Bool.decide_or]
    congr 1
    exact decide_eq_decide.mpr (by omega)

theorem freebits_eq (h : freebits map p n = some map') :
    map' = setbits map p n ∧ ∀ i < n, bit map (p + i) = false := by
  induction n generalizing map' with
  | zero =>
    exact ⟨(some.inj h).symm, fun i hi => absurd hi (Nat.not_lt_zero i)⟩
  | succ n ih =>
    obtain ⟨mid, hmid, hlast⟩ := bind_eq_some_iff.mp h
    obtain ⟨hset, hclr⟩ := ih hmid
    split_ifs at hlast with hbit
    refine ⟨?_, ?_⟩
    · rw [← some.inj hlast, hset]
      rfl
    · intro i hi
      rcases Nat.lt_succ_iff_lt_or_eq.mp hi with hlt | rfl
      · exact hclr i hlt
      · rw [isclr_eq, Bool.not_eq_true', hset, bit_setbits, Bool.or_eq_false_iff] at hbit
        exact hbit.1

variable {fs}

theorem block_of_lt {j : ℕ} (hj : j < fs.frag) : fs.block map b j = bit map (b * fs.frag + j) := by
  unfold Fs.block
  rw [decide_eq_true hj, Bool.true_and]

theorem block_clear (hmap : ∀ j, bit map' j =
      (bit map j && !decide (b * fs.frag + p ≤ j ∧ j < b * fs.frag + p + n)))
    (hpn : p + n ≤ fs.frag) :
    fs.block map' b = clearFrom (fs.block map b) p n ∧
      ∀ b' ≠ b, fs.block map' b' = fs.block map b' := by
  constructor
  · funext j
    by_cases hj : p ≤ j ∧ j < p + n
    · rw [clearFrom_of_mem hj, block_of_lt (by omega), hmap, decide_eq_true (by omega),
        Bool.not_true, Bool.and_false]
    have hout : ¬(b * fs.frag + p ≤ b * fs.frag + j ∧ b * fs.frag + j < b * fs.frag + p + n) := by
      omega
    rw [clearFrom_of_notMem hj]
    unfold Fs.block
    rw [hmap, decide_eq_false hout, Bool.not_false, Bool.and_true]
  · intro b' hb'
    funext j
    unfold Fs.block
    by_cases hj : j < fs.frag
    · have hout : ¬(b * fs.frag + p ≤ b' * fs.frag + j ∧ b' * fs.frag + j < b * fs.frag + p + n) := by
        rcases Nat.lt_or_gt_of_ne hb' with hlt | hgt
        · have hle := Nat.mul_le_mul_right fs.frag (show b' + 1 ≤ b from hlt)
          rw [Nat.succ_mul] at hle
          omega
        · have hle := Nat.mul_le_mul_right fs.frag (show b + 1 ≤ b' from hgt)
          rw [Nat.succ_mul] at hle
          omega
      rw [hmap, decide_eq_false hout, Bool.not_false, Bool.and_true]
    · rw [decide_eq_false hj, Bool.false_and, Bool.false_and]

theorem lt_nblk_of_beyond (hbeyond : ∀ i, fs.fpg ≤ i → bit map i = false) {j : ℕ}
    (hbit : fs.block map b j = true) : b < fs.nblk := by
  unfold Fs.block at hbit
  rw [Bool.and_eq_true] at hbit
  by_contra hge
  have hmul : fs.nblk * fs.frag ≤ b * fs.frag := Nat.mul_le_mul_right _ (Nat.le_of_not_lt hge)
  have hfpg : fs.nblk * fs.frag = fs.fpg := Nat.div_mul_cancel fs.fpg_dvd
  rw [hbeyond _ (by omega)] at hbit
  exact absurd hbit.2 (by decide)

theorem lt_nblk_of_bit {cgp : Cg} (h : CgOk fs cgp) {j : ℕ}
    (hbit : fs.block cgp.blksfree b j = true) : b < fs.nblk := lt_nblk_of_beyond h.beyond hbit

theorem block_end_le (hb : b < fs.nblk) : b * fs.frag + fs.frag ≤ fs.fpg := by
  have hmul : (b + 1) * fs.frag ≤ fs.nblk * fs.frag := Nat.mul_le_mul_right _ hb
  have hfpg : fs.nblk * fs.frag = fs.fpg := Nat.div_mul_cancel fs.fpg_dvd
  rw [Nat.succ_mul] at hmul
  omega

theorem whole_iff_of_isRun {frag k : ℕ} {f : ℕ → Bool} (h : IsRun f frag p k) (hk : 1 ≤ k) :
    Whole frag f ↔ k = frag := by
  have hle := h.le
  constructor
  · intro hw
    by_contra hne
    rcases h.left with h0 | hl
    · rcases h.right with hend | hr
      · omega
      · rw [hw _ (by omega)] at hr
        exact absurd hr (by decide)
    · rw [hw _ (by omega)] at hl
      exact absurd hl (by decide)
  · intro heq j hj
    have hbit := h.bits j (by omega)
    rwa [show p + j = j by omega] at hbit

end bits

/-! ## The accounts when bits are taken or given -/

section changes

variable {fs : Fs} {cgp cgp' : Cg} {b p k c : ℕ}

/-- **The front of a run is taken.** `k = frag` is a wholly free block, which is no longer one. -/
theorem CgOk.take (h : CgOk fs cgp) (hrun : IsRun (fs.block cgp.blksfree b) fs.frag p k) (hc : 1 ≤ c)
    (hck : c ≤ k)
    (hmap : ∀ j, bit cgp'.blksfree j =
      (bit cgp.blksfree j && !decide (b * fs.frag + p ≤ j ∧ j < b * fs.frag + p + c)))
    (hnb : cgp'.cs.nbfree = cgp.cs.nbfree - if k = fs.frag then 1 else 0)
    (hnf : cgp'.cs.nffree = cgp.cs.nffree - c + if k = fs.frag then fs.frag else 0)
    (hfr : ∀ n, 1 ≤ n → n < fs.frag → cgp'.frsum n =
      cgp.frsum n - (if n = k then 1 else 0) + if n = k - c then 1 else 0)
    (htot : ∀ cyl, cgp'.blktot cyl = cgp.blktot cyl -
      if fs.cbtocylno (fs.blkstofrags b) = cyl then if k = fs.frag then 1 else 0 else 0)
    (hblks : ∀ cyl r, cgp'.blks cyl r = cgp.blks cyl r -
      if fs.cbtocylno (fs.blkstofrags b) = cyl ∧ fs.cbtorpos (fs.blkstofrags b) = r then
        if k = fs.frag then 1 else 0
      else 0)
    (hfrotor : cgp'.frotor < fs.fpg) : CgOk fs cgp' := by
  have hle := hrun.le
  have hfirst : fs.block cgp.blksfree b p = true := hrun.bits 0 (by omega)
  have hb := lt_nblk_of_bit h hfirst
  obtain ⟨hnew, hother⟩ := block_clear hmap (by omega)
  have hwf : wholeOf fs.frag (fs.block cgp.blksfree b) = if k = fs.frag then 1 else 0 :=
    if_congr (whole_iff_of_isRun hrun (by omega)) rfl rfl
  have hnot : ¬Whole fs.frag (clearFrom (fs.block cgp.blksfree b) p c) := by
    intro hwhole
    have hbit := hwhole p (by omega)
    rw [clearFrom_of_mem (by omega)] at hbit
    exact absurd hbit (by decide)
  have hwg : wholeOf fs.frag (clearFrom (fs.block cgp.blksfree b) p c) = 0 := if_neg hnot
  have hcount := bitCount_clear (f := fs.block cgp.blksfree b)
    (fun i hi => hrun.bits i (Nat.lt_of_lt_of_le hi hck)) (show p + c ≤ fs.frag by omega)
  refine h.change hb rfl hnew hother ?_ ?_ ?_ ?_ ?_ ?_ hfrotor
  · intro i hi
    rw [hmap, h.beyond i hi, Bool.false_and]
  · rw [hnb, hwf, hwg]
    ring
  · rw [hnf, fragsOf_eq, fragsOf_eq, hwf, hwg, ← hcount]
    split_ifs
    · push_cast
      ring
    · push_cast
      ring
  · intro n hn hnf
    rw [hfr n hn hnf, runsOf_eq hn hnf, runsOf_eq hn hnf, runCount_clear hrun hc hck hn]
    ring
  · intro cyl
    rw [htot, hwf, hwg]
    split_ifs
    · ring
    · ring
    · ring
  · intro cyl r
    rw [hblks, hwf, hwg]
    split_ifs
    · ring
    · ring
    · ring

theorem CgOk.give (h : CgOk fs cgp) (hb : b < fs.nblk) (hc : 1 ≤ c) (hpc : p + c ≤ fs.frag)
    (hclr : ∀ i < c, bit cgp.blksfree (b * fs.frag + p + i) = false)
    (hmap : ∀ j, bit cgp'.blksfree j =
      (bit cgp.blksfree j || decide (b * fs.frag + p ≤ j ∧ j < b * fs.frag + p + c)))
    (hnb : cgp'.cs.nbfree = cgp.cs.nbfree +
      if Whole fs.frag (fs.block cgp'.blksfree b) then 1 else 0)
    (hnf : cgp'.cs.nffree = cgp.cs.nffree + c -
      if Whole fs.frag (fs.block cgp'.blksfree b) then fs.frag else 0)
    (hfr : ∀ n, 1 ≤ n → n < fs.frag → cgp'.frsum n = cgp.frsum n -
      runCount (fs.block cgp.blksfree b) fs.frag n + runCount (fs.block cgp'.blksfree b) fs.frag n)
    (htot : ∀ cyl, cgp'.blktot cyl = cgp.blktot cyl +
      if fs.cbtocylno (fs.blkstofrags b) = cyl then
        if Whole fs.frag (fs.block cgp'.blksfree b) then 1 else 0
      else 0)
    (hblks : ∀ cyl r, cgp'.blks cyl r = cgp.blks cyl r +
      if fs.cbtocylno (fs.blkstofrags b) = cyl ∧ fs.cbtorpos (fs.blkstofrags b) = r then
        if Whole fs.frag (fs.block cgp'.blksfree b) then 1 else 0
      else 0)
    (hfrotor : cgp'.frotor < fs.fpg) : CgOk fs cgp' := by
  -- seen from the new map, the old one has the bits cleared
  have hback : ∀ j, bit cgp.blksfree j =
      (bit cgp'.blksfree j && !decide (b * fs.frag + p ≤ j ∧ j < b * fs.frag + p + c)) := by
    intro j
    rw [hmap]
    by_cases hj : b * fs.frag + p ≤ j ∧ j < b * fs.frag + p + c
    · have hbit := hclr (j - (b * fs.frag + p)) (by omega)
      rw [Nat.add_sub_cancel' hj.1] at hbit
      rw [decide_eq_true hj, Bool.not_true, Bool.and_false]
      exact hbit
    · rw [decide_eq_false hj, Bool.or_false, Bool.not_false, Bool.and_true]
  obtain ⟨hold, hother⟩ := block_clear hback hpc
  have hset : ∀ i < c, fs.block cgp'.blksfree b (p + i) = true := by
    intro i hi
    rw [block_of_lt (by omega), hmap, decide_eq_true (by omega), Bool.or_true]
  have hcount := bitCount_clear hset hpc
  rw [← hold] at hcount
  have hnot : ¬Whole fs.frag (fs.block cgp.blksfree b) := by
    intro hwhole
    have hbit := hwhole p (by omega)
    rw [hold, clearFrom_of_mem (by omega)] at hbit
    exact absurd hbit (by decide)
  have hwf : wholeOf fs.frag (fs.block cgp.blksfree b) = 0 := if_neg hnot
  have hwg : wholeOf fs.frag (fs.block cgp'.blksfree b) =
      if Whole fs.frag (fs.block cgp'.blksfree b) then 1 else 0 := rfl
  refine h.change hb rfl rfl (fun b' hb' => (hother b' hb').symm) ?_ ?_ ?_ ?_ ?_ ?_ hfrotor
  · intro i hi
    have hend := block_end_le hb
    rw [hmap, h.beyond i hi, decide_eq_false (by omega), Bool.or_false]
  · rw [hnb, hwf, hwg]
    ring
  · rw [hnf, fragsOf_eq, fragsOf_eq, hwf, hwg, ← hcount]
    split_ifs
    · push_cast
      ring
    · push_cast
      ring
  · intro n hn hnf
    rw [hfr n hn hnf, runsOf_eq hn hnf, runsOf_eq hn hnf]
    ring
  · intro cyl
    rw [htot, hwf, hwg, Int.sub_zero]
  · intro cyl r
    rw [hblks, hwf, hwg, Int.sub_zero]

end changes

/-! ## The search of the map -/

theorem sift_spec {fs : Fs} {map : FreeMap} {n byte bno : ℕ} (hn : 1 ≤ n) (hnf : n ≤ fs.frag)
    (h : sift fs.frag map n (byte * 8) = some bno) :
    ∃ b p, bno = b * fs.frag + p ∧ IsRun (fs.block map b) fs.frag p n := by
  have hw := fs.frag_width
  obtain ⟨j, -, hj⟩ := List.exists_of_findSome?_eq_some h
  obtain ⟨p, hp, hbno⟩ := map_eq_some_iff.mp hj
  have hfits := List.find?_some hp
  have hstart : byte * 8 + j * fs.frag = (byte * (8 / fs.frag) + j) * fs.frag := by
    have hdvd : fs.frag ∣ 8 := by
      rcases hw with hf | hf | hf | hf
      · rw [hf]
      · rw [hf]
        decide
      · rw [hf]
        decide
      · rw [hf]
        decide
    rw [Nat.add_mul, Nat.mul_assoc, Nat.div_mul_cancel hdvd]
  rw [hstart] at hfits hbno
  refine ⟨_, p, hbno.symm, ?_⟩
  have hrun := isRun_of_fits hw map _ hn (Nat.le_trans hnf hw.le) hfits
  exact hrun.congr (fun j hj => block_of_lt hj) hn

theorem mapsearch_spec {fs : Fs} {cgp cgp' : Cg} {bpref n bno : ℕ} (hrotor : cgp.frotor < fs.fpg)
    (hn : 1 ≤ n) (hnf : n ≤ fs.frag) (h : mapsearch fs cgp bpref n = some (bno, cgp')) :
    ∃ b p q, bno = b * fs.frag + p ∧ IsRun (fs.block cgp.blksfree b) fs.frag p n ∧ q < fs.fpg ∧
      cgp' = { cgp with frotor := q } := by
  have hstart : (if bpref ≠ 0 then fs.dtogd bpref / 8 else cgp.frotor / 8) * 8 < fs.fpg := by
    have hmod : fs.dtogd bpref < fs.fpg := Nat.mod_lt _ fs.fpg_pos
    split_ifs
    · omega
    · omega
  unfold mapsearch at h
  dsimp only at h
  generalize (if bpref ≠ 0 then fs.dtogd bpref / 8 else cgp.frotor / 8) = start at h hstart
  generalize hmask : 1 <<< (n - 1 + fs.frag % 8) % 256 = mask at h
  have hfound : ∀ q, q * 8 < fs.fpg →
      ((sift fs.frag cgp.blksfree n (q * 8)).map fun pos => (pos, { cgp with frotor := q * 8 })) =
        some (bno, cgp') →
      ∃ b p q, bno = b * fs.frag + p ∧ IsRun (fs.block cgp.blksfree b) fs.frag p n ∧ q < fs.fpg ∧
        cgp' = { cgp with frotor := q } := by
    intro q hq hmap
    obtain ⟨pos, hpos, heq⟩ := map_eq_some_iff.mp hmap
    obtain ⟨b, p, hbp, hrun⟩ := sift_spec hn hnf hpos
    obtain ⟨rfl, rfl⟩ := Prod.mk.inj heq
    exact ⟨b, p, _, hbp, hrun, hq, rfl⟩
  split_ifs at h with hloc1 hloc2
  · exact hfound _ (by omega) h
  · exact hfound _ (by omega) h

theorem rotLoop_spec {fs : Fs} {map : FreeMap} {base i bno : ℕ} (h : rotLoop fs map base i = some bno) :
    ∃ b, bno = b * fs.frag ∧ isblock fs.frag map b = true := by
  fun_induction rotLoop fs map base i with
  | case1 i hblock => exact ⟨base + i, (some.inj h).symm, hblock⟩
  | case2 i hblock hend => exact absurd h (by simp)
  | case3 i hblock hend ih => exact ih h

theorem whole_of_isblock {fs : Fs} {map : FreeMap} {b : ℕ} :
    isblock fs.frag map b = true ↔ Whole fs.frag (fs.block map b) := by
  rw [isblock_iff fs.frag_width]
  constructor
  · intro h j hj
    rw [block_of_lt hj]
    exact h j hj
  · intro h j hj
    rw [← block_of_lt hj]
    exact h j hj

theorem norot_spec {fs : Fs} {cgp cgp' : Cg} {bpref bno : ℕ} (hrotor : cgp.frotor < fs.fpg)
    (h : norot fs cgp bpref = some (bno, cgp')) :
    ∃ b q r, bno = b * fs.frag ∧ Whole fs.frag (fs.block cgp.blksfree b) ∧ q < fs.fpg ∧
      cgp' = { cgp with frotor := q, rotor := r } := by
  obtain ⟨⟨pos, cgp1⟩, hsearch, heq⟩ := map_eq_some_iff.mp h
  obtain ⟨rfl, rfl⟩ := Prod.mk.inj heq
  obtain ⟨b, p, q, hbp, hrun, hq, rfl⟩ :=
    mapsearch_spec hrotor fs.frag_width.pos (Nat.le_refl _) hsearch
  have hle := hrun.le
  have hp : p = 0 := by omega
  subst hp
  exact ⟨b, q, _, hbp, (whole_iff_of_isRun hrun fs.frag_width.pos).mpr rfl, hq, rfl⟩

theorem choose_spec {fs : Fs} {cgp cgp' : Cg} {bpref bno : ℕ} (hrotor : cgp.frotor < fs.fpg)
    (h : choose fs cgp bpref = some (bno, cgp')) :
    ∃ b q r, bno = b * fs.frag ∧ Whole fs.frag (fs.block cgp.blksfree b) ∧ q < fs.fpg ∧
      cgp' = { cgp with frotor := q, rotor := r } := by
  unfold choose at h
  by_cases h0 : bpref = 0
  · rw [if_pos h0] at h
    exact norot_spec hrotor h
  rw [if_neg h0] at h
  dsimp only at h
  by_cases hblock : isblock fs.frag cgp.blksfree (fs.fragstoblks (fs.dtogd (fs.blknum bpref))) = true
  · -- the preferred block
    rw [if_pos hblock] at h
    obtain ⟨rfl, rfl⟩ := Prod.mk.inj (some.inj h)
    refine ⟨_, cgp.frotor, cgp.rotor, ?_, whole_of_isblock.mp hblock, hrotor, rfl⟩
    have hdvd : fs.frag ∣ fs.dtogd (fs.blknum bpref) :=
      (Nat.dvd_mod_iff fs.fpg_dvd).mpr (Nat.dvd_sub_mod bpref)
    exact (Nat.div_mul_cancel hdvd).symm
  · rw [if_neg hblock] at h
    split_ifs at h
    · exact norot_spec hrotor h
    · exact norot_spec hrotor h
    · split at h
      · exact norot_spec hrotor h
      · split at h
        · exact absurd h (by simp)
        · obtain ⟨pos, hpos, heq⟩ := map_eq_some_iff.mp h
          obtain ⟨rfl, rfl⟩ := Prod.mk.inj heq
          obtain ⟨b, hb, hblock⟩ := rotLoop_spec hpos
          exact ⟨b, cgp.frotor, cgp.rotor, hb, whole_of_isblock.mp hblock, hrotor, rfl⟩

end Bsd386.Ufs.Alloc
