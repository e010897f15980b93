import Bsd386.Kern.Descrip.Count

/-!
# The system calls keep the invariant

One lemma for each call: under the invariant, and what the call needs, it does not `panic` and the
invariant holds afterwards (`Inv.dup`, `Inv.dup2`, `Inv.dupfd`, `Inv.close`, `Inv.falloc`, `Inv.pair`,
`Inv.fdcopy`, `Inv.fdfree`).

`pair` is the common part of `pipe` and `socketpair`. It needs that it does not fail once it has its
second descriptor (`PairMeets`): then it would clear the two slots without lowering `fd_freefile`.
-/

namespace Bsd386.Kern.Descrip

open Lib.Bytes Kernel Filedesc

variable {k : Kernel} {r : Ptr → ℕ} {fp fq rf wf : Ptr} {p : Pid} {fdp : Filedesc} {want lim : ℤ}
  {i : ℕ}

/-- A limit that `u_short` numbers can meet. Source: filedesc.h (filedesc) -/
def LimitOk (lim : ℤ) : Prop := 0 ≤ lim ∧ lim ≤ 65536

/-- The count of a file can go up. Source: file.h (f_count) -/
def CountOk (k : Kernel) (fp : Ptr) : Prop := (k.fCount fp).toInt < 32767

/-- When two descriptors are free below the limit, both files can be had and the sockets connected.
Source: pipe, socketpair -/
def PairMeets (k : Kernel) (p : Pid) (lim : ℤ) (created connected : Bool) : Prop :=
  created = true → k.nfiles < k.maxfiles →
    (∃ i j : ℕ, i < j ∧ j < lim ∧ (k.fd p).file i = none ∧ (k.fd p).file j = none) →
      k.nfiles + 1 < k.maxfiles ∧ connected = true

/-! ## Replacing a table -/

@[simp] theorem Kernel.setFd_setFd (k : Kernel) (p : Pid) (fdp fdp' : Filedesc) :
    (k.setFd p fdp).setFd p fdp' = k.setFd p fdp' := by
  simp only [setFd, Function.update_idem]

theorem wellFormed_setFd (h : ∀ q ∈ k.procs, (k.fd q).WellFormed) (hwf : fdp.WellFormed) {q : Pid}
    (hq : q ∈ k.procs) : ((k.setFd p fdp).fd q).WellFormed := by
  by_cases hqp : q = p
  · subst hqp
    rw [setFd_fd_self]
    exact hwf
  · rw [setFd_fd_of_ne k fdp hqp]
    exact h q hq

theorem Inv.setFd (h : Inv k) (hp : p ∈ k.procs) (hwf : fdp.WellFormed)
    (hsame : (k.fd p).SameFiles fdp) : Inv (k.setFd p fdp) := by
  refine ⟨wellFormed_setFd (fun _ hq => h.table hq) hwf, h.counted.congr fun fx => ?_⟩
  have hrefs := refs_setFd hp fdp fx
  rw [hsame.count] at hrefs
  omega

section

variable (htable : ∀ q ∈ k.procs, (k.fd q).WellFormed) (hc : Counted k.files k.fCount r)
  (hwf : fdp.WellFormed)
include htable hc hwf

theorem inv_incr (hpos : 0 < r fp) (hmax : r fp < 32767)
    (hrefs : ∀ fx, (k.setFd p fdp).refs fx = r fx + if fx = fp then 1 else 0) :
    Inv ((k.setFd p fdp).incr fp) :=
  ⟨wellFormed_setFd htable hwf, (hc.incr hpos hmax).congr hrefs⟩

theorem inv_ffree (hone : r fp = 1)
    (hrefs : ∀ fx, (k.setFd p fdp).refs fx = r fx - if fx = fp then 1 else 0) :
    Inv ((k.setFd p fdp).ffree fp) :=
  ⟨wellFormed_setFd htable hwf, (hc.erase hone).congr hrefs⟩

end

theorem refs_pos (hp : p ∈ k.procs) (hfile : (k.fd p).file i = some fp) : 0 < k.refs fp :=
  Nat.lt_of_lt_of_le (count_pos hfile) (count_le_refs hp fp)

section

variable (h : Inv k) (hp : p ∈ k.procs)
include h hp

theorem Inv.refs_lt (hfile : (k.fd p).file i = some fp) (hmax : CountOk k fp) : k.refs fp < 32767 := by
  have hc := h.counted.count (h.counted.mem.mpr (refs_pos hp hfile))
  rw [CountOk, hc] at hmax
  omega

/-! ## New references -/

theorem Inv.dupAt (hfile : (k.fd p).file i = some fp) (hwant : 0 ≤ want) (hlim : LimitOk lim)
    (hmax : CountOk k fp) (flag : Filedesc → Byte) :
    Inv (k.dupAt p fp want lim flag).2 := by
  obtain ⟨a, t, hfd, hwf, hsame, hspec⟩ :=
    fdalloc_spec (h.table hp) hwant hlim.1 hlim.2
  rw [Kernel.dupAt, hfd]
  cases a with
  | none => exact h.setFd hp hwf hsame
  | some a =>
    obtain ⟨-, hlt, ha, -, -, hnone, -⟩ := hspec
    have hle := hlim.2
    refine inv_incr (fun _ hq => h.table hq) h.counted
      (hwf.store ha (by omega) fp _) (refs_pos hp hfile) (h.refs_lt hp hfile hmax) fun fx => ?_
    have hrefs := refs_setFd hp (t.store a fp (flag t &&& ~~~ufExclose)) fx
    have hcount := count_set t ha (some fp) fx
    rw [hsame.file, hnone, hsame.count, slotRefs_none, slotRefs_some] at hcount
    have hstore : (t.store a fp (flag t &&& ~~~ufExclose)).ofiles = t.ofiles.set a (some fp) := rfl
    rw [hstore] at hrefs
    omega

/-- **`dup2`** does not come to its `panic`: beyond the table `fdalloc` finds the descriptor asked for. -/
theorem Inv.dup2 {old new : ℕ} (hlim : LimitOk lim)
    (hmax : ∀ fp, (k.fd p).file old = some fp → CountOk k fp) :
    ∃ res k', k.dup2 p old new lim = some (res, k') ∧ Inv k' := by
  rw [Kernel.dup2]
  cases hfile : (k.fd p).file old with
  | none => exact ⟨_, _, rfl, h⟩
  | some fp =>
    have hlt := h.refs_lt hp hfile (hmax fp hfile)
    have hpos := refs_pos hp hfile
    dsimp only
    rw [ulong_eq hlim.1 hlim.2]
    have hle := hlim.2
    by_cases hbig : new ≥ lim.toNat
    · rw [if_pos hbig]
      exact ⟨_, _, rfl, h⟩
    rw [if_neg hbig]
    by_cases hsame : old = new
    · rw [if_pos hsame]
      exact ⟨_, _, rfl, h⟩
    rw [if_neg hsame]
    by_cases hbeyond : new ≥ (k.fd p).nfiles
    · rw [if_pos hbeyond]
      obtain ⟨a, t, hfd, hwf, hfiles, hspec⟩ :=
        fdalloc_spec (h.table hp) (Int.natCast_nonneg new) hlim.1 hlim.2
      have hnew : (k.fd p).file new = none := file_eq_none_of_le hbeyond
      rw [hfd]
      cases a with
      | none => exact absurd hnew (hspec.2 new (Int.le_refl _) (by omega))
      | some a =>
        obtain ⟨hge, -, ha, -, -, -, hbefore⟩ := hspec
        obtain rfl : new = a := by
          by_contra hne
          exact hbefore new (Int.le_refl _) (by omega) hnew
        dsimp only
        rw [if_neg (by simp)]
        refine ⟨_, _, rfl, inv_incr (fun _ hq => h.table hq) h.counted
          (hwf.store ha (by omega) fp _) hpos hlt fun fx => ?_⟩
        have hrefs := refs_setFd hp (t.store new fp (t.flags old &&& ~~~ufExclose)) fx
        have hcount := count_set t ha (some fp) fx
        rw [hfiles.file, hnew, hfiles.count, slotRefs_none, slotRefs_some] at hcount
        have hstore : (t.store new fp (t.flags old &&& ~~~ufExclose)).ofiles =
          t.ofiles.set new (some fp) := rfl
        rw [hstore] at hrefs
        omega
    · rw [if_neg hbeyond]
      have ha : new < (k.fd p).nfiles := Nat.lt_of_not_le hbeyond
      have hwf := (h.table hp).store ha (by omega) fp ((k.fd p).flags old &&& ~~~ufExclose)
      have hrefs := refs_setFd hp ((k.fd p).store new fp ((k.fd p).flags old &&& ~~~ufExclose))
      have hcount := count_set (k.fd p) ha (some fp)
      simp only [slotRefs_some] at hcount
      have hstore : ((k.fd p).store new fp ((k.fd p).flags old &&& ~~~ufExclose)).ofiles =
        (k.fd p).ofiles.set new (some fp) := rfl
      rw [hstore] at hrefs
      cases hnew : (k.fd p).file new with
      | none =>
        refine ⟨_, _, rfl, inv_incr (fun _ hq => h.table hq) h.counted hwf hpos hlt fun fx => ?_⟩
        have hr := hrefs fx
        have hc := hcount fx
        rw [hnew, slotRefs_none] at hc
        omega
      | some fq =>
        have hposq := refs_pos hp hnew
        obtain ⟨k1, hclose, hprocs, hfd, hcounted⟩ := h.counted.closef hposq
        rw [Option.elim_some, hclose, Option.map_some]
        -- the slot `old` is left when the file closed is the one duplicated
        have htwo : fp = fq → 1 < k.refs fp := by
          rintro rfl
          have hclear := count_set (k.fd p) ha none fp
          rw [hnew, slotRefs_none, slotRefs_some, if_pos rfl] at hclear
          have hold : ((k.fd p).assign new none).file old = some fp := by
            rw [file_assign ha, if_neg hsame, hfile]
          have hleft : 0 < ((k.fd p).ofiles.set new none).count (some fp) := count_pos hold
          have hle' := count_le_refs hp fp
          omega
        refine ⟨_, _, rfl, ?_⟩
        rw [hfd]
        refine inv_incr (fun q hq => ?_) hcounted hwf ?_ ?_ fun fx => ?_
        · rw [hfd]
          exact h.table (hprocs ▸ hq)
        · split_ifs with heq
          · have := htwo heq
            omega
          · exact hpos
        · omega
        · have hsetrefs : (k1.setFd p ((k.fd p).store new fp
              ((k.fd p).flags old &&& ~~~ufExclose))).refs fx =
            (k.setFd p ((k.fd p).store new fp ((k.fd p).flags old &&& ~~~ufExclose))).refs fx := by
            simp only [Kernel.refs, Kernel.setFd, hprocs, hfd]
          have hr := hrefs fx
          have hc := hcount fx
          rw [hnew, slotRefs_some] at hc
          rw [hsetrefs]
          by_cases hx : fx = fq
          · subst hx
            rw [if_pos rfl] at hc ⊢
            omega
          · rw [if_neg hx] at hc ⊢
            omega

theorem Inv.dup {new : ℕ} (hlim : LimitOk lim)
    (hmax : ∀ fp, (k.fd p).file (if i ≥ 64 then i % 64 else i) = some fp → CountOk k fp) :
    ∃ res k', k.dup p i new lim = some (res, k') ∧ Inv k' := by
  rw [Kernel.dup]
  by_cases hi : i ≥ 64
  · rw [if_pos hi] at hmax ⊢
    exact h.dup2 hp hlim hmax
  rw [if_neg hi] at hmax ⊢
  cases hfile : (k.fd p).file i with
  | none => exact ⟨_, _, rfl, h⟩
  | some fp => exact ⟨_, _, rfl, h.dupAt hp hfile (Int.le_refl 0) hlim (hmax fp hfile) _⟩

theorem Inv.dupfd {fd arg : ℕ} (hlim : LimitOk lim) (junk : Byte)
    (hmax : ∀ fp, (k.fd p).file fd = some fp → CountOk k fp) :
    ∃ res k', k.dupfd p fd arg lim junk = some (res, k') ∧ Inv k' := by
  rw [Kernel.dupfd]
  cases hfile : (k.fd p).file fd with
  | none => exact ⟨_, _, rfl, h⟩
  | some fp =>
    split_ifs
    · exact ⟨_, _, rfl, h⟩
    · exact ⟨_, _, rfl, h.dupAt hp hfile (Int.natCast_nonneg arg) hlim (hmax fp hfile) _⟩

/-! ## References that go -/

theorem Inv.close (fd : ℕ) :
    ∃ res k', k.close p fd = some (res, k') ∧ Inv k' := by
  rw [Kernel.close]
  cases hfile : (k.fd p).file fd with
  | none => exact ⟨_, _, rfl, h⟩
  | some fp =>
    have hopen : (k.fd p).file fd ≠ none := by rw [hfile]; exact Option.some_ne_none fp
    have hcounted : Counted (k.setFd p ((k.fd p).release fd)).files
      (k.setFd p ((k.fd p).release fd)).fCount k.refs := h.counted
    obtain ⟨k', hclose, hprocs, hfd, hc⟩ := hcounted.closef (refs_pos hp hfile)
    dsimp only
    rw [hclose, Option.map_some]
    refine ⟨_, _, rfl, fun {q} hq => ?_, hc.congr fun fx => ?_⟩
    · rw [hfd]
      exact wellFormed_setFd (fun _ hq => h.table hq) ((h.table hp).release hopen) (hprocs ▸ hq)
    · have hrefs := refs_setFd hp ((k.fd p).release fd) fx
      have hcount := count_set (k.fd p) (lt_of_file_ne_none hopen) none fx
      rw [hfile, slotRefs_none, slotRefs_some] at hcount
      have hrelease : ((k.fd p).release fd).ofiles = (k.fd p).ofiles.set fd none := rfl
      have heq : k'.refs fx = (k.setFd p ((k.fd p).release fd)).refs fx := by
        simp only [refs, hprocs, hfd]
      rw [hrelease] at hrefs
      rw [heq]
      omega

theorem Inv.fdfree : ∃ k', k.fdfree p = some k' ∧ Inv k' := by
  have hvisited := (h.table hp).count_take (Nat.lt_succ_self (k.fd p).lastfile)
  obtain ⟨k1, hclose, hprocs, hfd, hc⟩ :=
    h.counted.closeAll fun fx => by rw [hvisited]; exact count_le_refs hp fx
  rw [Kernel.fdfree, hclose, Option.map_some]
  refine ⟨_, rfl, fun {q} hq => ?_, hc.congr fun fx => ?_⟩
  · dsimp only at hq ⊢
    rw [hfd]
    rw [hprocs] at hq
    exact h.table (Finset.mem_of_mem_erase hq)
  · have hsum := Finset.sum_erase_add k.procs (fun q => (k.fd q).ofiles.count (some fx)) hp
    rw [hvisited, refs, refs]
    dsimp only
    rw [hprocs, hfd]
    omega

/-! ## New files -/

theorem Inv.falloc (hlim : LimitOk lim) (hfp : fp ∉ k.files) :
    (∃ t, k.falloc p lim fp = (.error .emfile, k.setFd p t) ∧ t.WellFormed ∧
        (k.fd p).SameFiles t ∧ t.freefile = (k.fd p).freefile) ∨
      ∃ i t, (k.fd p).file i = none ∧ i < lim ∧ t.WellFormed ∧ (k.fd p).SameFiles t ∧
        i ≤ t.lastfile ∧ t.freefile ≤ i ∧
        (k.maxfiles ≤ k.nfiles ∧ k.falloc p lim fp = (.error .enfile, k.setFd p t) ∨
          k.nfiles < k.maxfiles ∧ ∃ k', k.falloc p lim fp = (.ok i, k') ∧ Inv k' ∧
            k'.procs = k.procs ∧ k'.files = insert fp k.files ∧ k'.nfiles = k.nfiles + 1 ∧
            k'.maxfiles = k.maxfiles ∧ k'.fd p = t.assign i (some fp) ∧ k'.refs fp = 1) := by
  obtain ⟨a, t, hfd, hwf, hsame, hspec⟩ :=
    fdalloc_spec (h.table hp) (Int.le_refl 0) hlim.1 hlim.2
  rw [Kernel.falloc, hfd]
  cases a with
  | none => exact .inl ⟨t, rfl, hwf, hsame, hspec.1⟩
  | some i =>
    obtain ⟨-, hlt, hi, hlast, hfree, hnone, -⟩ := hspec
    refine .inr ⟨i, t, hnone, hlt, hwf, hsame, hlast, hfree, ?_⟩
    dsimp only
    by_cases hfull : k.nfiles ≥ k.maxfiles
    · rw [if_pos hfull]
      exact .inl ⟨hfull, rfl⟩
    rw [if_neg hfull]
    have hwf' : (t.assign i (some fp)).WellFormed := hwf.assign hlast nofun
    have hrefs (fx : Ptr) : (k.setFd p (t.assign i (some fp))).refs fx =
        k.refs fx + if fx = fp then 1 else 0 := by
      have hset := refs_setFd hp (t.assign i (some fp)) fx
      have hcount := count_set t hi (some fp) fx
      rw [hsame.file, hnone, hsame.count, slotRefs_none, slotRefs_some] at hcount
      have hassign : (t.assign i (some fp)).ofiles = t.ofiles.set i (some fp) := rfl
      rw [hassign] at hset
      omega
    have hzero : k.refs fp = 0 := by
      by_contra hne
      exact hfp (h.counted.mem.mpr (Nat.pos_of_ne_zero hne))
    refine .inr ⟨Nat.lt_of_not_le hfull, _, rfl, ⟨fun {q} hq => ?_, ?_⟩, rfl, rfl, rfl, rfl, ?_, ?_⟩
    · exact wellFormed_setFd (fun _ hq => h.table hq) hwf' hq
    · exact (h.counted.insert hfp).congr hrefs
    · exact setFd_fd_self k p _
    · refine (hrefs fp).trans ?_
      rw [hzero, if_pos rfl]

theorem Inv.pair (hlim : LimitOk lim) (hrf : rf ∉ k.files) (hwf : wf ∉ insert rf k.files)
    {created connected : Bool} (hmeets : PairMeets k p lim created connected) :
    Inv (k.pair p lim rf wf created connected).2 := by
  rw [Kernel.pair]
  by_cases hcreated : created = true
  swap
  · rw [if_pos (by simpa using hcreated)]
    exact h
  rw [if_neg (by simpa using hcreated)]
  rcases h.falloc hp hlim hrf with ⟨t, hfalloc, ht, hsame, -⟩ |
    ⟨i, t, hnone, hlt, ht, hsame, hlast, hfree, hfull | ⟨hroom, k1, hfalloc, h1, hprocs, hfiles, hnf, hmf,
      hfd, hone⟩⟩
  · rw [hfalloc]
    exact h.setFd hp ht hsame
  · rw [hfull.2]
    exact h.setFd hp ht hsame
  rw [hfalloc]
  have hp1 : p ∈ k1.procs := hprocs ▸ hp
  have hi : i < t.nfiles := Nat.lt_of_le_of_lt hlast ht.last_lt
  have hopen : (k1.fd p).file i = some rf := by rw [hfd, file_assign hi, if_pos rfl]
  -- a second descriptor would be free in the old table too
  have hsecond : ∀ j : ℕ, (k1.fd p).file j = none → j < lim →
      k.nfiles + 1 < k.maxfiles ∧ connected = true := by
    intro j hj hjl
    have hne : j ≠ i := by
      rintro rfl
      rw [hopen] at hj
      exact absurd hj nofun
    rw [hfd, file_assign hi, if_neg hne, hsame.file] at hj
    refine hmeets hcreated hroom ?_
    rcases Nat.lt_or_gt_of_ne hne with hlt' | hgt
    · exact ⟨j, i, hlt', hlt, hj, hnone⟩
    · exact ⟨i, j, hgt, hjl, hnone, hj⟩
  dsimp only
  rcases h1.falloc hp1 hlim (by rw [hfiles]; exact hwf) with ⟨t', hfalloc', ht', hsame', hfree'⟩ |
    ⟨j, t', hnone', hlt', ht', hsame', -, -, hfull | ⟨-, k2, hfalloc', h2, -⟩⟩
  · -- the first slot is cleared; it is where `fd_freefile` points
    have hopen' : t'.file i = some rf := (hsame'.file i).trans hopen
    have hi' : i ≤ t'.lastfile := by
      by_contra hgt
      rw [ht'.above (by omega)] at hopen'
      exact absurd hopen' nofun
    have hfree'' : t'.freefile ≤ i := by
      rw [hfree', hfd]
      exact hfree
    have hlt' : i < t'.nfiles := Nat.lt_of_le_of_lt hi' ht'.last_lt
    have hshape : ((k1.setFd p t').ffree rf).setFd p (((k1.setFd p t').fd p).assign i none) =
        (k1.setFd p (t'.assign i none)).ffree rf := by
      rw [setFd_fd_self]
      exact congrArg (ffree · rf) (setFd_setFd k1 p t' _)
    rw [hfalloc']
    dsimp only
    rw [hshape]
    refine inv_ffree (fun _ hq => h1.table hq) h1.counted (ht'.assign hi' fun _ => hfree'') hone
      fun fx => ?_
    have hset := refs_setFd hp1 (t'.assign i none) fx
    have hcount := count_set t' hlt' none fx
    rw [hopen', hsame'.count, slotRefs_none, slotRefs_some] at hcount
    have hassign : (t'.assign i none).ofiles = t'.ofiles.set i none := rfl
    rw [hassign] at hset
    omega
  · have := (hsecond j hnone' hlt').1
    omega
  · rw [hfalloc']
    dsimp only
    rw [if_pos (hsecond j hnone' hlt').2]
    exact h2

end

/-! ## `fork1` -/

/-- The references of a file can be doubled by a copy of the table.
Source: file.h (f_count) -/
def CopyOk (k : Kernel) (p : Pid) : Prop :=
  ∀ fp ∈ k.files, (k.fCount fp).toInt + (k.fd p).ofiles.count (some fp) ≤ 32767

theorem Inv.fdcopy (h : Inv k) (hp : p ∈ k.procs) {p2 : Pid} (hnew : p2 ∉ k.procs)
    (hmax : CopyOk k p) : Inv (k.fdcopy p p2) := by
  obtain ⟨hwf, hsame, -⟩ := (h.table hp).copy
  obtain ⟨k1, hk1⟩ : ∃ k1 : Kernel,
      k1 = { k.setFd p2 (k.fd p).copy with procs := insert p2 k.procs } := ⟨_, rfl⟩
  have hvisited (fx : Ptr) : ((k.fd p).copy.ofiles.take ((k.fd p).copy.lastfile + 1)).count (some fx) =
      (k.fd p).ofiles.count (some fx) :=
    (hwf.count_take (Nat.lt_succ_self _) fx).trans (hsame.count fx)
  have hcounted : Counted k1.files k1.fCount k.refs := by
    rw [hk1]
    exact h.counted
  have hsum (fx : Ptr) : k1.refs fx = k.refs fx + (k.fd p).ofiles.count (some fx) := by
    have hrest : ∑ q ∈ k.procs, ((k.setFd p2 (k.fd p).copy).fd q).ofiles.count (some fx) =
        ∑ q ∈ k.procs, (k.fd q).ofiles.count (some fx) := by
      refine Finset.sum_congr rfl fun q hq => ?_
      rw [setFd_fd_of_ne k _ (ne_of_mem_of_not_mem hq hnew)]
    rw [hk1, refs]
    rw [Finset.sum_insert hnew, hrest, setFd_fd_self, hsame.count, Nat.add_comm]
    rfl
  obtain ⟨c', heq, hc'⟩ := hcounted.incrAll
    (l := (k.fd p).copy.ofiles.take ((k.fd p).copy.lastfile + 1))
    (fun fx hfx => by
      have hpos := List.count_pos_iff.mpr hfx
      rw [hvisited] at hpos
      exact Nat.lt_of_lt_of_le hpos (count_le_refs hp fx))
    (fun fx => by
      rw [hvisited]
      by_cases hfx : fx ∈ k.files
      · have hle := hmax fx hfx
        rw [h.counted.count hfx] at hle
        omega
      have hzero : k.refs fx = 0 := by
        by_contra hne
        exact hfx (h.counted.mem.mpr (Nat.pos_of_ne_zero hne))
      have hle := count_le_refs hp fx
      omega)
  have hshape : k.fdcopy p p2 = { k1 with fCount := c' } := by
    rw [← heq, hk1]
    rfl
  rw [hshape]
  refine ⟨fun {q} hq => ?_, hc'.congr fun fx => ?_⟩
  · have hq' : q ∈ insert p2 k.procs := by
      rw [hk1] at hq
      exact hq
    have hfd : k1.fd = (k.setFd p2 (k.fd p).copy).fd := by rw [hk1]
    rw [hfd]
    rcases Finset.mem_insert.mp hq' with rfl | hq'
    · rw [setFd_fd_self]
      exact hwf
    · rw [setFd_fd_of_ne k _ (ne_of_mem_of_not_mem hq' hnew)]
      exact h.table hq'
  · rw [hvisited, ← hsum]
    rfl

end Bsd386.Kern.Descrip
