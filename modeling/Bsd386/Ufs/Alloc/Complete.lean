import Bsd386.Ufs.Alloc.Invariant

/-!
# The search of the free map is complete

`mapsearch_complete`: when the histogram promises a run of the length asked for, or a block is wholly free,
`mapsearch` finds one, from any preferred block and any place of the rotor.

The tables say of a whole byte whether one of its blocks has a run of the length (`fragtbl_hit`); the two
scans together see every byte of the map (`scanc_spec`).
-/

namespace Bsd386.Ufs.Alloc

open Lib List

/-! ## A byte of the map -/

/-- One of the blocks of a byte has a run of `k` fragments. -/
def byteHas (frag k byte : ℕ) : Bool :=
  (List.range (8 / frag)).any fun j => (List.range (frag - k + 1)).any fun pos =>
    fits (byte >>> (j * frag) &&& 0xff >>> (8 - frag)) k pos

/-- The mask that `mapsearch` scans with. Source: mapsearch -/
def maskOf (frag k : ℕ) : ℕ := 1 <<< (k - 1 + frag % 8) % 256

theorem fragtbl_hit {frag : ℕ} (hw : IsWidth frag) {k : ℕ} (hk : 1 ≤ k) (hkf : k ≤ frag) {byte : ℕ}
    (hbyte : byte < 256) : ((fragtbl frag).getD byte 0 &&& maskOf frag k == 0) = !byteHas frag k byte := by
  have hall : ((fragtbl frag).zipIdx.all fun x => (range' 1 frag).all fun k =>
      (x.1 &&& maskOf frag k == 0) == !byteHas frag k x.2) = true := by
    rcases hw with rfl | rfl | rfl | rfl
    · decide +kernel
    · decide +kernel
    · decide +kernel
    · decide +kernel
  have hlt : byte < (fragtbl frag).length := length_fragtbl hw ▸ hbyte
  have hmem : ((fragtbl frag)[byte], byte) ∈ (fragtbl frag).zipIdx :=
    mk_mem_zipIdx_iff_getElem?.mpr (getElem?_eq_getElem hlt)
  have hrow := all_eq_true.mp (all_eq_true.mp hall _ hmem) k
    (mem_range'_1.mpr (by omega))
  rw [getD_eq_getElem?_getD, getElem?_eq_getElem hlt, Option.getD_some]
  exact eq_of_beq hrow

section byte

variable {frag : ℕ} {map : FreeMap} {k byte : ℕ}

theorem blkmap_byte (hw : IsWidth frag) (map : FreeMap) (byte : ℕ) {j : ℕ} (hj : j < 8 / frag) :
    blkmap frag map (byte * 8 + j * frag) = (map byte).toNat >>> (j * frag) &&& 0xff >>> (8 - frag) := by
  have hin : j * frag < 8 := by
    have hmul : (j + 1) * frag ≤ 8 / frag * frag := Nat.mul_le_mul_right _ hj
    have hle := Nat.div_mul_le_self 8 frag
    have hpos := hw.pos
    rw [Nat.succ_mul] at hmul
    omega
  have hdiv : (byte * 8 + j * frag) / 8 = byte := by omega
  have hmod : (byte * 8 + j * frag) % 8 = j * frag := by omega
  unfold blkmap
  rw [hdiv, hmod]

theorem sift_isSome (hw : IsWidth frag) (h : byteHas frag k (map byte).toNat = true) :
    (sift frag map k (byte * 8)).isSome = true := by
  obtain ⟨j, hj, hpos⟩ := any_eq_true.mp h
  obtain ⟨pos, hmem, hfits⟩ := any_eq_true.mp hpos
  rw [← blkmap_byte hw map byte (mem_range.mp hj)] at hfits
  unfold sift
  rw [findSome?_isSome_iff]
  refine ⟨j, hj, ?_⟩
  rw [Option.isSome_map, find?_isSome]
  exact ⟨pos, hmem, hfits⟩

theorem byteHas_of_run {fs : Fs} {b p n : ℕ} (hn : 1 ≤ n) (hrun : IsRun (fs.block map b) fs.frag p n) :
    byteHas fs.frag n (map (b / (8 / fs.frag))).toNat = true := by
  have hw := fs.frag_width
  have hle := hrun.le
  obtain ⟨j, hj⟩ : ∃ j, j = b % (8 / fs.frag) := ⟨_, rfl⟩
  have hjlt : j < 8 / fs.frag := by
    rw [hj]
    exact hw.mod_lt b
  have hplace : b * fs.frag = b / (8 / fs.frag) * 8 + j * fs.frag := by
    obtain ⟨hdiv, hmod⟩ := hw.place b hw.pos
    rw [← hj] at hmod
    omega
  refine any_eq_true.mpr ⟨j, mem_range.mpr hjlt,
    any_eq_true.mpr ⟨p, mem_range.mpr (by omega), ?_⟩⟩
  rw [← blkmap_byte hw map _ hjlt, ← hplace]
  refine (fits_iff (blkmap_lt hw map _) hn (Nat.le_trans (by omega) hw.le)).mpr ?_
  exact hrun.congr (fun i hi => by rw [testBit_blkmap hw map b hi, block_of_lt hi]) hn

end byte

/-! ## The two scans -/

theorem scanc_spec (cp : FreeMap) (table : List ℕ) (mask size first : ℕ) :
    (scanc cp table mask size first = 0 →
      ∀ i < size, (table.getD (cp (first + i)).toNat 0 &&& mask == 0) = true) ∧
    (scanc cp table mask size first ≠ 0 →
      (table.getD (cp (first + size - scanc cp table mask size first)).toNat 0 &&& mask == 0) = false) := by
  induction size generalizing first with
  | zero => exact ⟨fun _ i hi => absurd hi (Nat.not_lt_zero i), fun h => absurd rfl h⟩
  | succ size ih =>
    unfold scanc
    by_cases hit : (table.getD (cp first).toNat 0 &&& mask == 0) = true
    · rw [if_pos hit]
      obtain ⟨hnone, hsome⟩ := ih (first + 1)
      refine ⟨fun h i hi => ?_, fun h => ?_⟩
      · rcases Nat.eq_zero_or_pos i with rfl | hpos
        · exact hit
        · have := hnone h (i - 1) (by omega)
          rwa [show first + 1 + (i - 1) = first + i by omega] at this
      · have := hsome h
        rwa [show first + 1 + size = first + (size + 1) by omega] at this
    · rw [if_neg hit]
      refine ⟨fun h => absurd h (Nat.succ_ne_zero _), fun _ => ?_⟩
      rw [Nat.add_sub_cancel]
      exact Bool.eq_false_iff.mpr hit

/-- What `mapsearch` relies on: the histogram counts the maximal runs of every length below a block, no bit
behind the group is set (`newfs` clears the map and sets bits of the group only), and the rotor is inside it.
Source: fs.h, struct cg -/
structure Searchable (fs : Fs) (cgp : Cg) : Prop where
  frsum : ∀ n, 1 ≤ n → n < fs.frag →
    cgp.frsum n = ∑ b ∈ Finset.range fs.nblk, (runCount (fs.block cgp.blksfree b) fs.frag n : ℤ)
  beyond : ∀ i, fs.fpg ≤ i → bit cgp.blksfree i = false
  frotor : cgp.frotor < fs.fpg

theorem CgOk.searchable {fs : Fs} {cgp : Cg} (h : CgOk fs cgp) : Searchable fs cgp where
  frsum n hn hnf := by
    have hwhole : ∀ b ∈ Finset.range fs.nblk, b ∉ (Finset.range fs.nblk).filter
        (fun b => ¬ Whole fs.frag (fs.block cgp.blksfree b)) →
        (runCount (fs.block cgp.blksfree b) fs.frag n : ℤ) = 0 := by
      intro b hb hout
      have hw : Whole fs.frag (fs.block cgp.blksfree b) := by
        by_contra hnot
        exact hout (Finset.mem_filter.mpr ⟨hb, hnot⟩)
      rw [runCount_full hw hn, if_neg (Nat.ne_of_lt hnf)]
      rfl
    rw [h.frsum n hn hnf]
    exact Finset.sum_subset (Finset.filter_subset _ _) hwhole
  beyond := h.beyond
  frotor := h.frotor

section complete

variable {fs : Fs} {cgp : Cg} {n : ℕ}

theorem Searchable.exists_run (h : Searchable fs cgp)
    (hn : (1 ≤ n ∧ n < fs.frag ∧ 0 < cgp.frsum n) ∨
      (n = fs.frag ∧ ∃ b < fs.nblk, Whole fs.frag (fs.block cgp.blksfree b))) :
    ∃ b < fs.nblk, ∃ p, IsRun (fs.block cgp.blksfree b) fs.frag p n := by
  rcases hn with ⟨hn, hnf, hpos⟩ | ⟨rfl, b, hb, hwhole⟩
  · rw [h.frsum n hn hnf] at hpos
    obtain ⟨b, hb, hcount⟩ : ∃ b ∈ Finset.range fs.nblk, runCount (fs.block cgp.blksfree b) fs.frag n ≠ 0 := by
      by_contra hno
      have hzero : ∀ b ∈ Finset.range fs.nblk, (runCount (fs.block cgp.blksfree b) fs.frag n : ℤ) = 0 :=
        fun b hb => by
          by_contra hne
          exact hno ⟨b, hb, fun h0 => hne (by rw [h0]; rfl)⟩
      rw [Finset.sum_eq_zero hzero] at hpos
      exact absurd hpos (by decide)
    obtain ⟨p, hp⟩ := Finset.card_pos.mp (Nat.pos_of_ne_zero hcount)
    exact ⟨b, Finset.mem_range.mp hb, p, (Finset.mem_filter.mp hp).2⟩
  · exact ⟨b, hb, 0, isRun_full hwhole⟩

theorem mapsearch_isSome (hrotor : cgp.frotor < fs.fpg) (hn : 1 ≤ n) (hnf : n ≤ fs.frag) {b p : ℕ}
    (hb : b < fs.nblk) (hrun : IsRun (fs.block cgp.blksfree b) fs.frag p n) (bpref : ℕ) :
    (mapsearch fs cgp bpref n).isSome = true := by
  have hw := fs.frag_width
  have hhas := byteHas_of_run hn hrun
  obtain ⟨byte, hbyte⟩ : ∃ byte, byte = b / (8 / fs.frag) := ⟨_, rfl⟩
  rw [← hbyte] at hhas
  have hlt : byte * 8 < fs.fpg := by
    have hplace := (hw.place b hw.pos).1
    have hend := block_end_le hb
    omega
  have hstart : (if bpref ≠ 0 then fs.dtogd bpref / 8 else cgp.frotor / 8) * 8 < fs.fpg := by
    have hmod : fs.dtogd bpref < fs.fpg := Nat.mod_lt _ fs.fpg_pos
    split_ifs
    · omega
    · omega
  have hsift : ∀ byte, ((fragtbl fs.frag).getD (cgp.blksfree byte).toNat 0 &&& maskOf fs.frag n == 0) = false →
      (sift fs.frag cgp.blksfree n (byte * 8)).isSome = true := by
    intro byte hhit
    rw [fragtbl_hit hw hn hnf (cgp.blksfree byte).isLt, Bool.not_eq_false'] at hhit
    exact sift_isSome hw hhit
  have hhit : ((fragtbl fs.frag).getD (cgp.blksfree byte).toNat 0 &&& maskOf fs.frag n == 0) = false := by
    rw [fragtbl_hit hw hn hnf (cgp.blksfree byte).isLt, hhas]
    rfl
  unfold mapsearch
  dsimp only
  generalize (if bpref ≠ 0 then fs.dtogd bpref / 8 else cgp.frotor / 8) = start at hstart ⊢
  obtain ⟨hnone, hsome⟩ := scanc_spec cgp.blksfree (fragtbl fs.frag) (maskOf fs.frag n)
    ((fs.fpg + 7) / 8 - start) start
  obtain ⟨hnone', hsome'⟩ := scanc_spec cgp.blksfree (fragtbl fs.frag) (maskOf fs.frag n) (start + 1) 0
  change Option.isSome (if scanc cgp.blksfree (fragtbl fs.frag) (maskOf fs.frag n) ((fs.fpg + 7) / 8 - start)
    start ≠ 0 then _ else _) = true
  split_ifs with hloc hloc'
  · rw [Option.isSome_map]
    exact hsift _ (hsome hloc)
  · rw [Option.isSome_map]
    exact hsift _ (hsome' hloc')
  · -- neither scan has stopped, though one of them passed the byte of the run
    have hzero := not_not.mp hloc
    have hzero' := not_not.mp hloc'
    rcases Nat.lt_or_ge byte (start + 1) with hlo | hhi
    · have hno := hnone' hzero' byte hlo
      rw [Nat.zero_add, hhit] at hno
      exact absurd hno (by decide)
    · have hno := hnone hzero (byte - start) (by omega)
      rw [Nat.add_sub_cancel' (by omega), hhit] at hno
      exact absurd hno (by decide)

/-- **The search is complete.** For every preferred block and every place of the rotor, a run of exactly the
length asked for is found inside one block of the group, if the histogram counts one or, for a whole block,
there is a free one. Kind: P. -/
theorem mapsearch_complete (h : Searchable fs cgp)
    (hn : (1 ≤ n ∧ n < fs.frag ∧ 0 < cgp.frsum n) ∨
      (n = fs.frag ∧ ∃ b < fs.nblk, Whole fs.frag (fs.block cgp.blksfree b))) (bpref : ℕ) :
    ∃ b p q, mapsearch fs cgp bpref n = some (b * fs.frag + p, { cgp with frotor := q }) ∧
      b * fs.frag + p < fs.fpg ∧ IsRun (fs.block cgp.blksfree b) fs.frag p n := by
  have hone : 1 ≤ n ∧ n ≤ fs.frag := by
    have := fs.frag_width.pos
    omega
  obtain ⟨b0, hb0, p0, hrun0⟩ := h.exists_run hn
  obtain ⟨⟨bno, cgp'⟩, hsearch⟩ :=
    Option.isSome_iff_exists.mp (mapsearch_isSome h.frotor hone.1 hone.2 hb0 hrun0 bpref)
  obtain ⟨b, p, q, rfl, hrun, -, rfl⟩ := mapsearch_spec h.frotor hone.1 hone.2 hsearch
  have hb := lt_nblk_of_beyond h.beyond (hrun.bits 0 (by omega))
  have hend := block_end_le hb
  have hle := hrun.le
  exact ⟨b, p, q, hsearch, by omega, hrun⟩

end complete

/-- A free block in a group of four. Source: mapsearch. Kind: C -/
theorem mapsearch_complete_threeFree :
    ∃ b p q, mapsearch fourBlocks (threeFree.cg 0) 0 8 =
        some (b * fourBlocks.frag + p, { threeFree.cg 0 with frotor := q }) ∧
      b * fourBlocks.frag + p < fourBlocks.fpg ∧
      IsRun (fourBlocks.block (threeFree.cg 0).blksfree b) fourBlocks.frag p 8 :=
  mapsearch_complete (threeFree_start.1.group 0 (by decide)).searchable
    (.inr ⟨rfl, 1, by decide, by unfold Whole; decide +kernel⟩) 0

end Bsd386.Ufs.Alloc
