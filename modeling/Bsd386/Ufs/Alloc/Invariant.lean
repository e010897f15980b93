import Bsd386.Lib.Transition
import Bsd386.Ufs.Alloc.Ops
import Mathlib.Order.CompletePartialOrder

/-!
# The accounts over whole runs

A run of allocations, extensions and frees, on any groups and in any order, with any preferences and
with reads that fail at will. The fragments in use are tracked beside the file system: what is handed out
is added, what is freed is removed. An extension is of an extent in use, and so is a free, which also
lies within one block.

`accounts_of_reach`: in every state reached the accounts of all groups and of the super block are in
order, and whatever the next operation hands out is free, not in use, and free no more afterwards.
-/

namespace Bsd386.Ufs.Alloc

open Lib Lib.Transition

/-- An operation, with the outcome of its read. -/
inductive Op where
  | alloc (cg bpref size : ℕ) (error : Bool)
  | extend (bprev osize nsize : ℕ) (error : Bool)
  | free (bno size : ℕ) (error : Bool)

/-- Run an operation; `realloccg` extends in the group of the extent. The result of a free is 0. -/
def Op.run (fs : Fs) (st : State) : Op → Option (ℕ × State)
  | .alloc cg bpref size error => alloccg fs st cg bpref size error
  | .extend bprev osize nsize error => some (fragextend fs st (fs.dtog bprev) bprev osize nsize error)
  | .free bno size error => (blkfree fs st bno size error).map fun st => (0, st)

/-- The fragments that an operation with result `r` hands out. -/
def Op.handedOut (fs : Fs) (r : ℕ) : Op → Set ℕ
  | .alloc _ _ size _ => if r = 0 then ∅ else Set.Ico r (r + fs.numfrags size)
  | .extend bprev osize nsize _ =>
    if r = 0 then ∅ else Set.Ico (bprev + fs.numfrags osize) (bprev + fs.numfrags nsize)
  | .free .. => ∅

/-- The fragments that an operation frees. -/
def Op.released (fs : Fs) : Op → Set ℕ
  | .free bno size _ => Set.Ico bno (bno + fs.numfrags size)
  | _ => ∅

/-- What the callers promise: sizes are those of extents, what is extended or freed is in use, and what
is freed lies within one block. Source: alloc, realloccg, blkfree -/
def Op.Ok (fs : Fs) (used : Set ℕ) : Op → Prop
  | .alloc cg _ size _ => cg < fs.ncg ∧ 0 < size ∧ size ≤ fs.bsize ∧ fs.fragoff size = 0
  | .extend bprev osize nsize _ =>
    0 < osize ∧ osize < nsize ∧ nsize ≤ fs.bsize ∧ fs.fragoff osize = 0 ∧ fs.fragoff nsize = 0 ∧
      Set.Ico bprev (bprev + fs.numfrags osize) ⊆ used
  | .free bno size _ =>
    0 < size ∧ size ≤ fs.bsize ∧ fs.fragoff size = 0 ∧
      fs.fragnum bno + fs.numfrags size ≤ fs.frag ∧ Set.Ico bno (bno + fs.numfrags size) ⊆ used

/-- A file system and the fragments in use. -/
structure Sys where
  st : State
  used : Set ℕ

/-- Is a fragment of the file system free? -/
def FreeFrag (fs : Fs) (st : State) (d : ℕ) : Prop :=
  bit (st.cg (fs.dtog d)).blksfree (fs.dtogd d) = true

/-- At the start the accounts are in order, and what is in use is inside the file system and not free. -/
def Sys.Start (fs : Fs) (s : Sys) : Prop :=
  Consistent fs s.st ∧ ∀ d ∈ s.used, fs.dtog d < fs.ncg ∧ ¬FreeFrag fs s.st d

def Sys.Next (fs : Fs) (s t : Sys) : Prop :=
  ∃ (op : Op) (r : ℕ) (st : State), op.Ok fs s.used ∧ op.run fs s.st = some (r, st) ∧
    t = ⟨st, (s.used ∪ op.handedOut fs r) \ op.released fs⟩

variable {fs : Fs} {st st' : State} {cg a n : ℕ}

theorem Op.handedOut_zero (fs : Fs) (op : Op) : op.handedOut fs 0 = ∅ := by
  unfold Op.handedOut
  cases op with
  | alloc cg bpref size error => exact if_pos rfl
  | extend bprev osize nsize error => exact if_pos rfl
  | free bno size error => rfl

theorem place_add (d : ℕ) {i : ℕ} (h : fs.dtogd d + i < fs.fpg) :
    fs.dtog (d + i) = fs.dtog d ∧ fs.dtogd (d + i) = fs.dtogd d + i := by
  unfold Fs.dtog Fs.dtogd at *
  have hdiv := Nat.div_add_mod d fs.fpg
  have hsplit : d + i = d % fs.fpg + i + fs.fpg * (d / fs.fpg) := by omega
  constructor
  · rw [hsplit, Nat.add_mul_div_left _ _ fs.fpg_pos, Nat.div_eq_of_lt h, Nat.zero_add]
  · rw [hsplit, Nat.add_mul_mod_self_left, Nat.mod_eq_of_lt h]

theorem place_of_group (cg : ℕ) {i : ℕ} (h : i < fs.fpg) :
    fs.dtog (cg * fs.fpg + i) = cg ∧ fs.dtogd (cg * fs.fpg + i) = i := by
  unfold Fs.dtog Fs.dtogd
  rw [Nat.add_comm, Nat.mul_comm]
  constructor
  · rw [Nat.add_mul_div_left _ _ fs.fpg_pos, Nat.div_eq_of_lt h, Nat.zero_add]
  · rw [Nat.add_mul_mod_self_left, Nat.mod_eq_of_lt h]

theorem Taken.freeFrag_iff (h : Taken fs st st' cg a n) (d : ℕ) :
    FreeFrag fs st' d ↔
      FreeFrag fs st d ∧ d ∉ Set.Ico (cg * fs.fpg + a) (cg * fs.fpg + a + n) := by
  unfold FreeFrag
  have hle := h.le
  have hdiv := Nat.div_add_mod d fs.fpg
  have hiff : (fs.dtog d = cg ∧ a ≤ fs.dtogd d ∧ fs.dtogd d < a + n) ↔
      d ∈ Set.Ico (cg * fs.fpg + a) (cg * fs.fpg + a + n) := by
    rw [Set.mem_Ico]
    constructor
    · rintro ⟨hc, hin⟩
      unfold Fs.dtog Fs.dtogd at *
      rw [hc, Nat.mul_comm] at hdiv
      omega
    · intro hin
      have hsplit : d = cg * fs.fpg + (d - cg * fs.fpg) := by omega
      have hplace := place_of_group cg (show d - cg * fs.fpg < fs.fpg by omega)
      rw [hsplit, hplace.1, hplace.2]
      omega
  rw [h.bits, Bool.and_eq_true, Bool.not_eq_true', decide_eq_false_iff_not, hiff]

theorem Given.freeFrag_imp (h : Given fs st st' cg a n) {d : ℕ} (hd : FreeFrag fs st' d) :
    FreeFrag fs st d ∨ d ∈ Set.Ico (cg * fs.fpg + a) (cg * fs.fpg + a + n) := by
  unfold FreeFrag at *
  rw [h.bits, Bool.or_eq_true, decide_eq_true_iff] at hd
  refine hd.imp_right fun hin => ?_
  have hdiv := Nat.div_add_mod d fs.fpg
  unfold Fs.dtog Fs.dtogd at *
  rw [hin.1, Nat.mul_comm] at hdiv
  rw [Set.mem_Ico]
  omega

theorem group_add (fs : Fs) (d : ℕ) : fs.dtog d * fs.fpg + fs.dtogd d = d := by
  rw [Nat.mul_comm]
  exact Nat.div_add_mod d fs.fpg

theorem dtogd_add_le {d n : ℕ} (h : fs.fragnum d + n ≤ fs.frag) : fs.dtogd d + n ≤ fs.fpg := by
  have hplace := dtogd_eq fs d
  have hb : fs.dtogd d / fs.frag < fs.nblk :=
    Nat.div_lt_div_of_lt_of_dvd fs.fpg_dvd (Nat.mod_lt _ fs.fpg_pos)
  have hend := block_end_le hb
  omega

/-- **One operation.** The accounts stay in order, what is handed out was free and is not any more, and
only what is released becomes free. -/
theorem run_spec {used : Set ℕ} {op : Op} {r : ℕ} (h : Consistent fs st)
    (hused : ∀ d ∈ used, fs.dtog d < fs.ncg ∧ ¬FreeFrag fs st d) (hop : op.Ok fs used)
    (hrun : op.run fs st = some (r, st')) :
    Consistent fs st' ∧
      (∀ d ∈ op.handedOut fs r, fs.dtog d < fs.ncg ∧ FreeFrag fs st d ∧ ¬FreeFrag fs st' d) ∧
      ∀ d, FreeFrag fs st' d → FreeFrag fs st d ∨ d ∈ op.released fs := by
  have hsame : st' = st → op.handedOut fs r = ∅ → Consistent fs st' ∧
      (∀ d ∈ op.handedOut fs r, fs.dtog d < fs.ncg ∧ FreeFrag fs st d ∧ ¬FreeFrag fs st' d) ∧
      ∀ d, FreeFrag fs st' d → FreeFrag fs st d ∨ d ∈ op.released fs := by
    rintro rfl hout
    rw [hout]
    exact ⟨h, fun d hd => hd.elim, fun d hd => Or.inl hd⟩
  -- a range that was taken, of which a part is reported
  have htaken : ∀ {cg a n : ℕ}, cg < fs.ncg → Taken fs st st' cg a n →
      op.handedOut fs r ⊆ Set.Ico (cg * fs.fpg + a) (cg * fs.fpg + a + n) → Consistent fs st' ∧
      (∀ d ∈ op.handedOut fs r, fs.dtog d < fs.ncg ∧ FreeFrag fs st d ∧ ¬FreeFrag fs st' d) ∧
      ∀ d, FreeFrag fs st' d → FreeFrag fs st d ∨ d ∈ op.released fs := by
    intro cg a n hcg ht hsub
    have hle := ht.le
    refine ⟨ht.consistent, ?_, fun d hd => Or.inl ((ht.freeFrag_iff d).mp hd).1⟩
    intro d hd
    have hin := Set.mem_Ico.mp (hsub hd)
    have hsplit : d = cg * fs.fpg + (a + (d - (cg * fs.fpg + a))) := by omega
    have hplace := place_of_group cg (show a + (d - (cg * fs.fpg + a)) < fs.fpg by omega)
    have hbit := ht.free (d - (cg * fs.fpg + a)) (by omega)
    refine ⟨?_, ?_, fun hfree => ((ht.freeFrag_iff d).mp hfree).2 (hsub hd)⟩
    · rw [hsplit, hplace.1]
      exact hcg
    · unfold FreeFrag
      rw [hsplit, hplace.1, hplace.2]
      exact hbit
  cases op with
  | alloc cg bpref size error =>
    obtain ⟨hcg, hpos, hle, hoff⟩ := hop
    rcases alloccg_spec h hcg hpos hle hoff hrun with ⟨rfl, hst⟩ | ⟨a, hr, ht⟩
    · exact hsame hst (Op.handedOut_zero fs _)
    refine htaken hcg ht ?_
    unfold Op.handedOut
    split_ifs
    · exact Set.empty_subset _
    · rw [hr]
  | extend bprev osize nsize error =>
    obtain ⟨hpos, hlt, hle, hoff, hoff', hsub⟩ := hop
    obtain ⟨ho, -, -⟩ := Fs.numfrags_bounds hpos (show osize ≤ fs.bsize by omega) hoff
    have hon : fs.numfrags osize ≤ fs.numfrags nsize := Nat.div_le_div_right (Nat.le_of_lt hlt)
    have hfirst := hused bprev (hsub (Set.mem_Ico.mpr (by omega)))
    have hold : fs.fragnum bprev + fs.numfrags nsize ≤ fs.frag →
        bit (st.cg (fs.dtog bprev)).blksfree (fs.dtogd bprev + fs.numfrags osize - 1) = false := by
      intro hin
      have hend := dtogd_add_le hin
      have hlast := (hused (bprev + (fs.numfrags osize - 1)) (hsub (Set.mem_Ico.mpr (by omega)))).2
      have hplace := place_add bprev
        (show fs.dtogd bprev + (fs.numfrags osize - 1) < fs.fpg by omega)
      unfold FreeFrag at hlast
      rw [hplace.1, hplace.2, ← Nat.add_sub_assoc ho] at hlast
      exact Bool.eq_false_iff.mpr hlast
    rcases fragextend_spec h hfirst.1 hpos hlt hle hoff hoff' hold (Option.some.inj hrun) with
      ⟨rfl, hst⟩ | ⟨hr, ht⟩
    · exact hsame hst (Op.handedOut_zero fs _)
    refine htaken hfirst.1 ht ?_
    unfold Op.handedOut
    split_ifs
    · exact Set.empty_subset _
    have hplace := group_add fs bprev
    intro d hd
    rw [Set.mem_Ico] at hd ⊢
    omega
  | free bno size error =>
    obtain ⟨hpos, hle, hoff, hin, hsub⟩ := hop
    obtain ⟨hn, -, -⟩ := Fs.numfrags_bounds hpos hle hoff
    obtain ⟨st1, hfree, heq⟩ := Option.map_eq_some_iff.mp hrun
    obtain ⟨rfl, rfl⟩ := Prod.mk.inj heq
    have hend := dtogd_add_le hin
    have hclr : ∀ i < fs.numfrags size,
        bit (st.cg (fs.dtog bno)).blksfree (fs.dtogd bno + i) = false := by
      intro i hi
      have hnot := (hused (bno + i) (hsub (Set.mem_Ico.mpr (by omega)))).2
      have hplace := place_add bno (show fs.dtogd bno + i < fs.fpg by omega)
      unfold FreeFrag at hnot
      rw [hplace.1, hplace.2] at hnot
      exact Bool.eq_false_iff.mpr hnot
    have hcg := (hused bno (hsub (Set.mem_Ico.mpr (by omega)))).1
    rcases blkfree_spec h hcg hpos hin hclr hfree with hst | hg
    · exact hsame hst (Op.handedOut_zero fs _)
    refine ⟨hg.consistent, fun d hd => hd.elim, fun d hd => ?_⟩
    have hback := hg.freeFrag_imp hd
    rw [group_add] at hback
    exact hback

theorem start_of_reach {s : Sys} (h : Reach (Sys.Start fs) (Sys.Next fs) s) : s.Start fs := by
  refine h.invariant (fun _ hs => hs) ?_
  rintro s t - ⟨hc, hused⟩ ⟨op, r, st, hop, hrun, rfl⟩
  obtain ⟨hc', hout, hfree⟩ := run_spec hc hused hop hrun
  refine ⟨hc', ?_⟩
  rintro d ⟨hd | hd, hnot⟩
  · refine ⟨(hused d hd).1, fun hf => ?_⟩
    rcases hfree d hf with hf | hf
    · exact (hused d hd).2 hf
    · exact hnot hf
  · exact ⟨(hout d hd).1, (hout d hd).2.2⟩

/-- A group whose counts are those of its map. Source: fs.h, struct cg -/
def Cg.ofMap (fs : Fs) (cgx : ℕ) (map : FreeMap) : Cg where
  magic := true
  cgx := cgx
  cs := ⟨((Finset.range fs.nblk).filter fun b => Whole fs.frag (fs.block map b)).card,
    ∑ b ∈ (Finset.range fs.nblk).filter fun b => ¬Whole fs.frag (fs.block map b),
      (bitCount (fs.block map b) fs.frag : ℤ)⟩
  rotor := 0
  frotor := 0
  frsum := fun k => ∑ b ∈ (Finset.range fs.nblk).filter fun b => ¬Whole fs.frag (fs.block map b),
    (runCount (fs.block map b) fs.frag k : ℤ)
  blktot := fun c => ((Finset.range fs.nblk).filter fun b =>
    Whole fs.frag (fs.block map b) ∧ fs.cbtocylno (fs.blkstofrags b) = c).card
  blks := fun c r => ((Finset.range fs.nblk).filter fun b =>
    Whole fs.frag (fs.block map b) ∧ fs.cbtocylno (fs.blkstofrags b) = c ∧
      fs.cbtorpos (fs.blkstofrags b) = r).card
  blksfree := map

theorem cgOk_ofMap {map : FreeMap} (cgx : ℕ) (hbeyond : ∀ i, fs.fpg ≤ i → bit map i = false) :
    CgOk fs (Cg.ofMap fs cgx map) where
  nbfree := rfl
  nffree := rfl
  frsum := fun _ _ _ => rfl
  blktot := fun _ => rfl
  blks := fun _ _ => rfl
  beyond := hbeyond
  frotor := fs.fpg_pos

/-- A file system of one group of four blocks. Source: fs.h, struct fs -/
def fourBlocks : Fs where
  size := 32
  ncg := 1
  fsize := 1024
  frag := 8
  fpg := 32
  nspf := 2
  spc := 64
  nsect := 32
  npsect := 32
  trackskew := 0
  interleave := 1
  nrpos := 8
  cpc := 0
  postbl := fun _ _ => none
  rotbl := fun _ => 0
  frag_width := Or.inl rfl
  fsize_pos := by decide
  fpg_pos := by decide
  fpg_dvd := by decide

/-- The first block holds the super block, the others are free.
Source: fs.h, cg_blksfree -/
def threeFree : State :=
  let cg := Cg.ofMap fourBlocks 0 fun i => if 1 ≤ i ∧ i < 4 then 0xff else 0
  ⟨⟨cg.cs, fun _ => cg.cs⟩, fun _ => cg⟩

theorem threeFree_start : Sys.Start fourBlocks ⟨threeFree, Set.Ico 0 8⟩ := by
  have hzero : ∀ i, i < 8 ∨ 32 ≤ i → bit (fun i => if 1 ≤ i ∧ i < 4 then 0xff else 0) i = false := by
    intro i hi
    have hbyte : ¬(1 ≤ i / 8 ∧ i / 8 < 4) := by omega
    unfold bit
    dsimp only
    rw [if_neg hbyte]
    exact BitVec.getLsbD_zero
  refine ⟨⟨?_, ?_, fun _ _ => rfl, ?_, ?_⟩, ?_⟩
  · exact fun _ _ => cgOk_ofMap 0 fun i hi => hzero i (Or.inr hi)
  · intro c hc
    exact (Nat.lt_one_iff.mp hc).symm
  · exact (Finset.sum_range_one fun c => (threeFree.sum.cs c).nbfree).symm
  · exact (Finset.sum_range_one fun c => (threeFree.sum.cs c).nffree).symm
  · intro d hd
    have hd8 : d < 8 := (Set.mem_Ico.mp hd).2
    refine ⟨Nat.div_lt_of_lt_mul (show d < 32 * 1 by omega), ?_⟩
    have hmod : fourBlocks.dtogd d = d := Nat.mod_eq_of_lt (show d < 32 by omega)
    unfold FreeFrag
    rw [hmod]
    exact Bool.eq_false_iff.mp (hzero d (Or.inl hd8))

end Bsd386.Ufs.Alloc
