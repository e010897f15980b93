import Bsd386.Lib.Transition
import Bsd386.Ufs.Inode.Basic

/-!
# The counts of inodes over whole runs

What the counts of free inodes and of directories say about the maps and the modes of the inodes in use
(`Consistent`). The modes are tracked beside the file system: an inode has the mode it was allocated with,
and it is freed with it.

Each count is a sum over the inodes of a group of what one inode contributes, so an operation, which
changes one inode only, has to change it by the difference: `Consistent.change`.

`inode_counts`: an allocation in a group that has a free inode marks one, and in every state reached by
allocations and frees the counts are right and no operation panics.
-/

namespace Bsd386.Ufs.Inode

open Function Lib Lib.Transition Finset
open Alloc (setbit clrbit isclr)

/-! ## What the counts say -/

/-- What an inode contributes to the free ones. Source: fs.h, cs_nifree -/
def freeOf (used : Bool) : ℤ := if used = false then 1 else 0

/-- What an inode contributes to the directories. Source: fs.h, cs_ndir -/
def dirOf (used : Bool) (mode : ℕ) : ℤ := if used = true ∧ isDir mode = true then 1 else 0

@[simp] theorem dirOf_false (mode : ℕ) : dirOf false mode = 0 := if_neg fun h => Bool.false_ne_true h.1

@[simp] theorem dirOf_true (mode : ℕ) : dirOf true mode = if isDir mode then 1 else 0 :=
  if_congr (and_iff_right rfl) rfl rfl

/-- The number of clear bits of a map. Source: fs.h, cs_nifree -/
def freeInodes (fs : Fs) (map : InodeMap) : ℕ :=
  ((Finset.range fs.ipg).filter fun i => bit map i = false).card

/-- The number of directories of group `cg` with this map. Source: fs.h, cs_ndir -/
def dirs (fs : Fs) (modes : ℕ → ℕ) (cg : ℕ) (map : InodeMap) : ℕ :=
  ((Finset.range fs.ipg).filter fun i =>
    bit map i = true ∧ isDir (modes (cg * fs.ipg + i)) = true).card

/-- **The counts of inodes.** In every group they are those of the map and of the modes, and the rotor is
inside; the super block has the same counts for the group, and their sums.
Source: fs.h, struct cg, fs_cs, fs_cstotal -/
structure Consistent (fs : Fs) (st : State) (modes : ℕ → ℕ) : Prop where
  nifree : ∀ c < fs.ncg, (st.cg c).cs.nifree = freeInodes fs (st.cg c).inosused
  ndir : ∀ c < fs.ncg, (st.cg c).cs.ndir = dirs fs modes c (st.cg c).inosused
  irotor : ∀ c < fs.ncg, (st.cg c).irotor < fs.ipg
  cs : ∀ c < fs.ncg, st.cs c = (st.cg c).cs
  totalNifree : st.cstotal.nifree = ∑ c ∈ Finset.range fs.ncg, (st.cs c).nifree
  totalNdir : st.cstotal.ndir = ∑ c ∈ Finset.range fs.ncg, (st.cs c).ndir

section counts

variable {fs : Fs} {st st' : State} {modes modes' : ℕ → ℕ} {c cg i : ℕ} {map map' : InodeMap}

theorem freeInodes_eq_sum : (freeInodes fs map : ℤ) = ∑ i ∈ Finset.range fs.ipg, freeOf (bit map i) :=
  Alloc.card_filter_eq_sum ..

theorem dirs_eq_sum : (dirs fs modes c map : ℤ) =
    ∑ i ∈ Finset.range fs.ipg, dirOf (bit map i) (modes (c * fs.ipg + i)) :=
  Alloc.card_filter_eq_sum ..

theorem exists_free (h : freeInodes fs map ≠ 0) : ∃ i < fs.ipg, bit map i = false := by
  obtain ⟨i, hi⟩ := card_pos.mp (Nat.pos_of_ne_zero h)
  obtain ⟨hmem, hclr⟩ := mem_filter.mp hi
  exact ⟨i, mem_range.mp hmem, hclr⟩

theorem inode_ne {d j : ℕ} (hi : i < fs.ipg) (hj : j < fs.ipg) (hne : ¬(d = c ∧ j = i)) :
    d * fs.ipg + j ≠ c * fs.ipg + i := by
  intro heq
  have hdiv : (d * fs.ipg + j) / fs.ipg = (c * fs.ipg + i) / fs.ipg := by rw [heq]
  have hmod : (d * fs.ipg + j) % fs.ipg = (c * fs.ipg + i) % fs.ipg := by rw [heq]
  rw [Nat.mul_comm, Nat.mul_comm c, Nat.mul_add_div fs.ipg_pos, Nat.mul_add_div fs.ipg_pos,
    Nat.div_eq_of_lt hi, Nat.div_eq_of_lt hj] at hdiv
  rw [Nat.mul_comm, Nat.mul_comm c, Nat.mul_add_mod, Nat.mul_add_mod, Nat.mod_eq_of_lt hi,
    Nat.mod_eq_of_lt hj] at hmod
  exact hne ⟨hdiv, hmod⟩

/-- **One inode changes.** The counts stay right when they grow in all three places by the difference
that the inode makes. -/
theorem Consistent.change (h : Consistent fs st modes) (hc : c < fs.ncg) (hi : i < fs.ipg) {cgp : Cg}
    {n d : ℤ} (hother : ∀ j ≠ i, bit cgp.inosused j = bit (st.cg c).inosused j)
    (hmodes : ∀ e ≠ c * fs.ipg + i, modes' e = modes e) (hcs : cgp.cs = (st.cg c).cs)
    (hrotor : cgp.irotor < fs.ipg)
    (hn : n = freeOf (bit cgp.inosused i) - freeOf (bit (st.cg c).inosused i))
    (hd : d = dirOf (bit cgp.inosused i) (modes' (c * fs.ipg + i)) -
      dirOf (bit (st.cg c).inosused i) (modes (c * fs.ipg + i))) :
    Consistent fs (st.count c cgp n d) modes' := by
  have hself : (st.count c cgp n d).cg c = { cgp with cs := cgp.cs.add n d } := update_self ..
  have hrest : ∀ c' ≠ c, (st.count c cgp n d).cg c' = st.cg c' := fun c' hne =>
    update_of_ne hne ..
  have hcsself : (st.count c cgp n d).cs c = (st.cs c).add n d := update_self ..
  have hcsrest : ∀ c' ≠ c, (st.count c cgp n d).cs c' = st.cs c' := fun c' hne =>
    update_of_ne hne ..
  refine ⟨?_, ?_, ?_, ?_, ?_, ?_⟩
  · intro c' hc'
    by_cases hne : c' = c
    · subst hne
      rw [hself]
      change cgp.cs.nifree + n = _
      rw [freeInodes_eq_sum, Alloc.sum_range_change hi fun j _ hj => by rw [hother j hj],
        ← freeInodes_eq_sum, ← h.nifree c' hc', ← hn, hcs]
    · rw [hrest c' hne]
      exact h.nifree c' hc'
  · intro c' hc'
    by_cases hne : c' = c
    · subst hne
      rw [hself]
      change cgp.cs.ndir + d = _
      have hsum := Alloc.sum_range_change (F := fun j =>
          dirOf (bit (st.cg c').inosused j) (modes (c' * fs.ipg + j)))
        (G := fun j => dirOf (bit cgp.inosused j) (modes' (c' * fs.ipg + j))) hi fun j _ hj => by
          rw [hother j hj, hmodes _ fun heq => hj (Nat.add_left_cancel heq)]
      rw [dirs_eq_sum, hsum, ← dirs_eq_sum, ← h.ndir c' hc', ← hd, hcs]
    · rw [hrest c' hne, h.ndir c' hc', dirs_eq_sum, dirs_eq_sum]
      apply sum_congr rfl
      intro j hj
      rw [hmodes _ (inode_ne hi (mem_range.mp hj) fun heq => hne heq.1)]
  · intro c' hc'
    by_cases hne : c' = c
    · subst hne
      rw [hself]
      exact hrotor
    · rw [hrest c' hne]
      exact h.irotor c' hc'
  · intro c' hc'
    by_cases hne : c' = c
    · subst hne
      rw [hself, hcsself, h.cs c' hc', ← hcs]
    · rw [hrest c' hne, hcsrest c' hne]
      exact h.cs c' hc'
  · change st.cstotal.nifree + n = _
    rw [Alloc.sum_range_change hc fun c' _ hne => by rw [hcsrest c' hne], ← h.totalNifree, hcsself]
    change _ = _ + ((st.cs c).nifree + n - (st.cs c).nifree)
    ring
  · change st.cstotal.ndir + d = _
    rw [Alloc.sum_range_change hc fun c' _ hne => by rw [hcsrest c' hne], ← h.totalNdir, hcsself]
    change _ = _ + ((st.cs c).ndir + d - (st.cs c).ndir)
    ring

end counts

/-! ## The calls -/

section calls

variable {fs : Fs} {st st' : State} {modes : ℕ → ℕ} {cg ino ipref mode : ℕ}

theorem ialloccg_of_free (hmagic : (st.cg cg).magic = true) (hrotor : (st.cg cg).irotor < fs.ipg)
    (hnifree : (st.cg cg).cs.nifree = freeInodes fs (st.cg cg).inosused)
    (hcs : st.cs cg = (st.cg cg).cs) (hfree : (st.cg cg).cs.nifree ≠ 0) (ipref mode : ℕ) :
    ∃ i r, i < fs.ipg ∧ r < fs.ipg ∧ bit (st.cg cg).inosused i = false ∧
      ialloccg fs st cg ipref mode false = some (cg * fs.ipg + i, st.count cg
        { st.cg cg with irotor := r, inosused := setbit (st.cg cg).inosused i } (-1)
        (if isDir mode then 1 else 0)) := by
  have hone : ∃ i < fs.ipg, bit (st.cg cg).inosused i = false :=
    exists_free fun h => hfree (hnifree.trans (congrArg Nat.cast h))
  obtain ⟨i, r, hfind, hi, hr, hclr⟩ := findInode_spec hrotor hone ipref
  refine ⟨i, r, hi, hr, hclr, ?_⟩
  unfold ialloccg
  rw [if_neg (by rwa [hcs]), if_neg Bool.false_ne_true]
  rw [if_neg (by rw [hmagic, not_or]; exact ⟨Bool.true_eq_false.mp, hfree⟩), hfind]
  rfl

theorem ialloccg_spec (h : Consistent fs st modes) (hcg : cg < fs.ncg) (ipref mode : ℕ) (error : Bool) :
    ialloccg fs st cg ipref mode error = some (0, st) ∨
      ∃ i r, i < fs.ipg ∧ r < fs.ipg ∧ bit (st.cg cg).inosused i = false ∧
        ialloccg fs st cg ipref mode error = some (cg * fs.ipg + i, st.count cg
          { st.cg cg with irotor := r, inosused := setbit (st.cg cg).inosused i } (-1)
          (if isDir mode then 1 else 0)) := by
  by_cases hsb : (st.cs cg).nifree = 0
  · left
    unfold ialloccg
    rw [if_pos hsb]
  cases error with
  | true =>
    left
    unfold ialloccg
    rw [if_neg hsb, if_pos rfl]
  | false =>
    by_cases hbad : (st.cg cg).magic = false ∨ (st.cg cg).cs.nifree = 0
    · left
      unfold ialloccg
      rw [if_neg hsb, if_neg Bool.false_ne_true]
      exact if_pos hbad
    · right
      rw [not_or, Bool.not_eq_false] at hbad
      exact ialloccg_of_free hbad.1 (h.irotor cg hcg) (h.nifree cg hcg) (h.cs cg hcg) hbad.2 ipref mode

theorem ifree_spec (hino : ino < fs.ipg * fs.ncg)
    (hused : bit (st.cg (ino / fs.ipg)).inosused (ino % fs.ipg) = true) (mode : ℕ) (error : Bool) :
    ifree fs st ino mode error = some st ∨
      ifree fs st ino mode error = some (st.count (ino / fs.ipg)
        { st.cg (ino / fs.ipg) with
          irotor := if ino % fs.ipg < (st.cg (ino / fs.ipg)).irotor then ino % fs.ipg
            else (st.cg (ino / fs.ipg)).irotor
          inosused := clrbit (st.cg (ino / fs.ipg)).inosused (ino % fs.ipg) } 1
        (if isDir mode then -1 else 0)) := by
  unfold ifree
  rw [if_neg (Nat.not_le.mpr hino)]
  cases error with
  | true =>
    left
    rw [if_pos rfl]
  | false =>
    rw [if_neg Bool.false_ne_true]
    by_cases hmagic : (st.cg (ino / fs.ipg)).magic = false
    · left
      rw [if_pos hmagic]
    right
    rw [if_neg hmagic, if_neg]
    rintro ⟨hclr, -⟩
    rw [Alloc.isclr_eq, hused] at hclr
    exact absurd hclr (by decide)

end calls

/-! ## Runs -/

/-- An operation, with the outcome of its read. -/
inductive Op where
  | alloc (cg ipref mode : ℕ) (error : Bool)
  | free (ino mode : ℕ) (error : Bool)

/-- A file system and the modes of its inodes. -/
structure Sys where
  st : State
  modes : ℕ → ℕ

/-- Is an inode of the file system in use? -/
def InUse (fs : Fs) (st : State) (ino : ℕ) : Prop :=
  bit (st.cg (ino / fs.ipg)).inosused (ino % fs.ipg) = true

instance (fs : Fs) (st : State) (ino : ℕ) : Decidable (InUse fs st ino) :=
  inferInstanceAs (Decidable (_ = true))

/-- Run an operation; a `none` is a panic. -/
def Op.run (fs : Fs) (st : State) : Op → Option State
  | .alloc cg ipref mode error => (ialloccg fs st cg ipref mode error).map Prod.snd
  | .free ino mode error => ifree fs st ino mode error

/-- The mode an operation is given. -/
def Op.mode : Op → ℕ
  | .alloc _ _ mode _ => mode
  | .free _ mode _ => mode

/-- What the callers promise: the group is one of the file system, and an inode that is freed is in use
and has the mode given. -/
def Op.Ok (fs : Fs) (s : Sys) : Op → Prop
  | .alloc cg _ _ _ => cg < fs.ncg
  | .free ino mode _ => ino < fs.ipg * fs.ncg ∧ InUse fs s.st ino ∧ mode = s.modes ino

/-- The modes after an operation: an inode that comes into use gets the mode of the call. -/
def Sys.modesAfter (fs : Fs) (s : Sys) (op : Op) (st : State) (ino : ℕ) : ℕ :=
  if InUse fs st ino ∧ ¬InUse fs s.st ino then op.mode else s.modes ino

/-- At the start the counts are right. -/
def Sys.Start (fs : Fs) (s : Sys) : Prop := Consistent fs s.st s.modes

def Sys.Next (fs : Fs) (s t : Sys) : Prop :=
  ∃ (op : Op) (st : State), op.Ok fs s ∧ op.run fs s.st = some st ∧ t = ⟨st, s.modesAfter fs op st⟩

section runs

variable {fs : Fs} {s : Sys}

theorem place_of_inode (cg : ℕ) {i : ℕ} (hi : i < fs.ipg) :
    (cg * fs.ipg + i) / fs.ipg = cg ∧ (cg * fs.ipg + i) % fs.ipg = i := by
  rw [Nat.mul_comm]
  constructor
  · rw [Nat.mul_add_div fs.ipg_pos, Nat.div_eq_of_lt hi, Nat.add_zero]
  · rw [Nat.mul_add_mod, Nat.mod_eq_of_lt hi]

theorem modesAfter_of_ne {op : Op} {c i : ℕ} {cgp : Cg} {n d : ℤ}
    (hother : ∀ j ≠ i, bit cgp.inosused j = bit (s.st.cg c).inosused j) {e : ℕ}
    (he : e ≠ c * fs.ipg + i) : s.modesAfter fs op (s.st.count c cgp n d) e = s.modes e := by
  unfold Sys.modesAfter
  rw [if_neg]
  rintro ⟨hnew, hold⟩
  apply hold
  unfold InUse at *
  unfold State.count at hnew
  dsimp only at hnew
  by_cases hc : e / fs.ipg = c
  · rw [hc, update_self] at hnew
    rwa [hother, ← hc] at hnew
    intro hi
    apply he
    rw [← hc, ← hi, Nat.mul_comm]
    exact (Nat.div_add_mod e fs.ipg).symm
  · rwa [update_of_ne hc] at hnew

theorem modesAfter_self (op : Op) : s.modesAfter fs op s.st = s.modes := by
  funext e
  exact if_neg fun h => h.2 h.1

theorem Consistent.run (h : Consistent fs s.st s.modes) {op : Op} (hop : op.Ok fs s) :
    ∃ st, op.run fs s.st = some st ∧ Consistent fs st (s.modesAfter fs op st) := by
  have hsame : op.run fs s.st = some s.st →
      ∃ st, op.run fs s.st = some st ∧ Consistent fs st (s.modesAfter fs op st) := by
    intro hrun
    refine ⟨s.st, hrun, ?_⟩
    rw [modesAfter_self]
    exact h
  cases op with
  | alloc cg ipref mode error =>
    rcases ialloccg_spec h hop ipref mode error with hnone | ⟨i, r, hi, hr, hclr, hsome⟩
    · exact hsame (congrArg (Option.map Prod.snd) hnone)
    refine ⟨_, congrArg (Option.map Prod.snd) hsome, ?_⟩
    have hset : bit (setbit (s.st.cg cg).inosused i) i = true := by
      rw [Alloc.bit_setbit, decide_eq_true rfl, Bool.or_true]
    have hplace := place_of_inode cg hi
    have hother : ∀ j ≠ i, bit (setbit (s.st.cg cg).inosused i) j = bit (s.st.cg cg).inosused j := by
      intro j hj
      rw [Alloc.bit_setbit, decide_eq_false hj, Bool.or_false]
    -- the new inode has the mode of the call
    have hmode : ∀ (cgp : Cg) (n d : ℤ), bit cgp.inosused i = true →
        s.modesAfter fs (.alloc cg ipref mode error) (s.st.count cg cgp n d) (cg * fs.ipg + i) =
          mode := by
      intro cgp n d hnew
      refine if_pos ?_
      unfold InUse State.count
      dsimp only
      rw [hplace.1, hplace.2, update_self, hclr]
      exact ⟨hnew, Bool.false_ne_true⟩
    refine h.change hop hi hother (fun e he => modesAfter_of_ne hother he) rfl hr ?_ ?_
    · dsimp only
      rw [hset, hclr]
      rfl
    · dsimp only
      rw [hmode _ _ _ hset, hset, hclr, dirOf_true, dirOf_false, sub_zero]
  | free ino mode error =>
    obtain ⟨hino, hused, rfl⟩ := hop
    rcases ifree_spec hino hused (s.modes ino) error with hnone | hsome
    · exact hsame hnone
    refine ⟨_, hsome, ?_⟩
    have hc : ino / fs.ipg < fs.ncg := Nat.div_lt_of_lt_mul hino
    have hi : ino % fs.ipg < fs.ipg := Nat.mod_lt _ fs.ipg_pos
    have hself : ino / fs.ipg * fs.ipg + ino % fs.ipg = ino := by
      rw [Nat.mul_comm]
      exact Nat.div_add_mod ino fs.ipg
    have hclr : bit (clrbit (s.st.cg (ino / fs.ipg)).inosused (ino % fs.ipg)) (ino % fs.ipg) =
        false := by
      rw [Alloc.bit_clrbit, decide_eq_true rfl, Bool.not_true, Bool.and_false]
    have hother : ∀ j ≠ ino % fs.ipg,
        bit (clrbit (s.st.cg (ino / fs.ipg)).inosused (ino % fs.ipg)) j =
          bit (s.st.cg (ino / fs.ipg)).inosused j := by
      intro j hj
      rw [Alloc.bit_clrbit, decide_eq_false hj, Bool.not_false, Bool.and_true]
    refine h.change hc hi hother (fun e he => modesAfter_of_ne hother he) rfl ?_ ?_ ?_
    · dsimp only
      split_ifs
      · exact hi
      · exact h.irotor _ hc
    · dsimp only
      rw [hclr, hused]
      rfl
    · dsimp only
      rw [hclr, hused, hself, dirOf_true, dirOf_false, zero_sub, neg_ite, neg_zero]

/-- **The counts of inodes.** In a group whose count of free inodes is right and not zero, with any
preferred inode and any rotor, an allocation returns an inode of the group that was free and sets its bit
and no other. In every state reached by allocations and frees the counts are right in all places, and no
operation panics. Source: ialloccg, ifree. Kind: C -/
theorem inode_counts (fs : Fs) :
    (∀ (st : State) (cg ipref mode : ℕ), (st.cg cg).magic = true → (st.cg cg).irotor < fs.ipg →
      (st.cg cg).cs.nifree = freeInodes fs (st.cg cg).inosused → st.cs cg = (st.cg cg).cs →
      0 < (st.cg cg).cs.nifree →
        ∃ i < fs.ipg, bit (st.cg cg).inosused i = false ∧
          ∃ st', ialloccg fs st cg ipref mode false = some (cg * fs.ipg + i, st') ∧
            ∀ d j, bit (st'.cg d).inosused j =
              (bit (st.cg d).inosused j || decide (d = cg ∧ j = i))) ∧
    ∀ s, Reach (Sys.Start fs) (Sys.Next fs) s → Consistent fs s.st s.modes ∧
      ∀ op : Op, op.Ok fs s → op.run fs s.st ≠ none := by
  constructor
  · intro st cg ipref mode hmagic hrotor hnifree hcs hpos
    obtain ⟨i, r, hi, -, hclr, hrun⟩ :=
      ialloccg_of_free hmagic hrotor hnifree hcs (ne_of_gt hpos) ipref mode
    refine ⟨i, hi, hclr, _, hrun, fun d j => ?_⟩
    unfold State.count
    dsimp only
    by_cases hd : d = cg
    · subst hd
      rw [update_self]
      rw [Alloc.bit_setbit, decide_eq_decide.mpr (and_iff_right rfl).symm]
    · rw [update_of_ne hd, decide_eq_false fun h => hd h.1, Bool.or_false]
  · intro s hs
    have hinv : Consistent fs s.st s.modes := by
      refine hs.invariant (fun _ h => h) ?_
      rintro s t - h ⟨op, st, hop, hrun, rfl⟩
      obtain ⟨st', hrun', hnext⟩ := h.run hop
      obtain rfl := Option.some.inj (hrun.symm.trans hrun')
      exact hnext
    refine ⟨hinv, fun op hop hnone => ?_⟩
    obtain ⟨st, hrun, -⟩ := hinv.run hop
    rw [hnone] at hrun
    exact absurd hrun (Option.some_ne_none st).symm

end runs

/-! ## A new file system -/

/-- One group of eight inodes. Source: fs.h, struct fs -/
def eightInodes : Fs where
  ncg := 1
  ipg := 8
  ronly := false
  ipg_pos := by decide
  ipg_dvd := by decide

/-- Inodes 0 and 1 are not handed out, and inode 2 is the root.
Source: fs.h, ROOTINO -/
def rootOnly : Sys where
  st := ⟨⟨5, 1⟩, fun _ => ⟨5, 1⟩, fun _ => ⟨true, ⟨5, 1⟩, 0, fun _ => 7⟩⟩
  modes := fun ino => if ino = 2 then 0o040755 else 0

theorem start_rootOnly : rootOnly.Start eightInodes where
  nifree := by decide
  ndir := by decide
  irotor := by decide
  cs := fun _ _ => rfl
  totalNifree := rfl
  totalNdir := rfl

/-- An inode beside the root, and the counts when it has been taken. Kind: C -/
theorem inode_counts_rootOnly :
    (∃ i < 8, bit (fun _ => 7) i = false ∧
      ∃ st', ialloccg eightInodes rootOnly.st 0 2 0o040755 false = some (0 * 8 + i, st')) ∧
    (Op.alloc 0 2 0o040755 false).run eightInodes rootOnly.st ≠ none := by
  constructor
  · obtain ⟨i, hi, hclr, st', hrun, -⟩ :=
      (inode_counts eightInodes).1 rootOnly.st 0 2 0o040755 rfl (by decide) (by decide) rfl (by decide)
    exact ⟨i, hi, hclr, st', hrun⟩
  · exact ((inode_counts eightInodes).2 rootOnly (.start start_rootOnly)).2 _ Nat.zero_lt_one

/-! ## There and back -/

theorem magic_of_ialloccg {fs : Fs} {st st' : State} {cg ipref mode ino : ℕ} {error : Bool}
    (hrun : ialloccg fs st cg ipref mode error = some (ino, st')) (hino : ino ≠ 0) :
    (st.cg cg).magic = true := by
  by_contra hbad
  have hnull : ialloccg fs st cg ipref mode error = some (0, st) := by
    unfold ialloccg
    dsimp only
    rw [if_pos (c := (st.cg cg).magic = false ∨ _) (.inl (Bool.eq_false_of_not_eq_true hbad)), ite_self,
      ite_self]
  cases hrun.symm.trans hnull
  exact hino rfl

/-- **An inode that is allocated and given back** leaves the file system with the same inodes in use and the
same counts. Source: ialloccg, ifree. Kind: C -/
theorem ifree_ialloccg {fs : Fs} {modes : ℕ → ℕ} {cg ipref mode ino : ℕ} {st st' : State}
    (h : Consistent fs st modes) (hcg : cg < fs.ncg)
    (hrun : ialloccg fs st cg ipref mode false = some (ino, st')) (hino : ino ≠ 0) :
    ∃ st'', ifree fs st' ino mode false = some st'' ∧ st''.cstotal = st.cstotal ∧ st''.cs = st.cs ∧
      ∀ c, (st''.cg c).cs = (st.cg c).cs ∧
        ∀ j, bit (st''.cg c).inosused j = bit (st.cg c).inosused j := by
  have hmagic := magic_of_ialloccg hrun hino
  have hadd (c : Csum) (d : ℤ) : (c.add (-1) d).add 1 (-d) = c := by
    simp [Csum.add]
  have hdir : (if isDir mode then -1 else 0 : ℤ) = -(if isDir mode then 1 else 0) := by
    split_ifs <;> rfl
  rcases ialloccg_spec h hcg ipref mode false with h0 | ⟨i, r, hi, -, hclr, heq⟩
  · cases hrun.symm.trans h0
    exact absurd rfl hino
  cases hrun.symm.trans heq
  obtain ⟨hdiv, hmod⟩ := place_of_inode cg hi
  have hlt : ¬ fs.ipg * fs.ncg ≤ cg * fs.ipg + i := by
    rw [Nat.not_le, Nat.mul_comm fs.ipg, ← Nat.div_lt_iff_lt_mul fs.ipg_pos, hdiv]
    exact hcg
  have hused : isclr (setbit (st.cg cg).inosused i) i = false := by
    rw [Alloc.isclr_eq, Alloc.bit_setbit, decide_eq_true rfl, Bool.or_true, Bool.not_true]
  have hback : ∀ j, bit (clrbit (setbit (st.cg cg).inosused i) i) j = bit (st.cg cg).inosused j := by
    intro j
    rw [Alloc.bit_clrbit, Alloc.bit_setbit]
    by_cases hj : j = i
    · rw [hj, hclr, decide_eq_true rfl, Bool.not_true, Bool.and_false]
    · rw [decide_eq_false hj, Bool.or_false, Bool.not_false, Bool.and_true]
  refine ⟨⟨st.cstotal, st.cs, update st.cg cg
    ⟨true, (st.cg cg).cs, if i < r then i else r, clrbit (setbit (st.cg cg).inosused i) i⟩⟩, ?_, ?_⟩
  · rw [ifree, if_neg hlt]
    simp only [State.count, hdiv, hmod, update_self, hmagic, hused, Bool.false_eq_true, if_false,
      Bool.true_eq_false, false_and, update_idem, hdir, hadd, update_eq_self]
  · refine ⟨rfl, rfl, fun c => ?_⟩
    dsimp only
    by_cases hc : c = cg
    · subst hc
      rw [update_self]
      exact ⟨rfl, hback⟩
    · rw [update_of_ne hc]
      exact ⟨rfl, fun _ => rfl⟩

/-- A directory beside the root, made and removed. Kind: C -/
theorem ifree_ialloccg_rootOnly :
    ∃ st', ialloccg eightInodes rootOnly.st 0 2 0o040755 false = some (3, st') ∧
      ∃ st'', ifree eightInodes st' 3 0o040755 false = some st'' ∧ st''.cstotal = ⟨5, 1⟩ := by
  have hrun : ialloccg eightInodes rootOnly.st 0 2 0o040755 false = some (3, _) := rfl
  obtain ⟨st'', hfree, htotal, -⟩ := ifree_ialloccg start_rootOnly Nat.zero_lt_one hrun (by decide)
  exact ⟨_, hrun, st'', hfree, htotal⟩

end Bsd386.Ufs.Inode
