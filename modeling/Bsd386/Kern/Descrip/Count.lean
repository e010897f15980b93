import Bsd386.Kern.Descrip.Table
import Mathlib.Algebra.BigOperators.Group.Finset.Basic

/-!
# Reference counts of files

`k.refs fp` is the number of slots, in the tables of all processes, that refer to the file. `Counted`
relates counts to any numbers of references, so that it can be followed through the middle of a call.

`Inv` is the invariant of the kernel: every table is well formed, and `f_count` counts the references.
-/

namespace Bsd386.Kern.Descrip

open Function Lib.Bytes List Finset

/-- The slots that refer to the file. -/
def Kernel.refs (k : Kernel) (fp : Ptr) : ℕ := ∑ p ∈ k.procs, (k.fd p).ofiles.count (some fp)

/-- The counts of the allocated files are the numbers `r`, which are not 0.
Source: file.h (f_count) -/
structure Counted (files : Finset Ptr) (fCount : Ptr → BitVec 16) (r : Ptr → ℕ) : Prop where
  count {fp : Ptr} : fp ∈ files → (fCount fp).toInt = r fp
  mem {fp : Ptr} : fp ∈ files ↔ 0 < r fp

/-- The invariant. -/
structure Inv (k : Kernel) : Prop where
  table {p : Pid} : p ∈ k.procs → (k.fd p).WellFormed
  counted : Counted k.files k.fCount k.refs

variable {k : Kernel} {files : Finset Ptr} {c : Ptr → BitVec 16} {r r' : Ptr → ℕ} {fp fq : Ptr}
  {p : Pid} {fdp : Filedesc}

/-! ## References -/

theorem refs_setFd (hp : p ∈ k.procs) (fdp : Filedesc) (fp : Ptr) :
    (k.setFd p fdp).refs fp + (k.fd p).ofiles.count (some fp) =
      k.refs fp + fdp.ofiles.count (some fp) := by
  have hold := sum_erase_add k.procs (fun q => (k.fd q).ofiles.count (some fp)) hp
  have hnew := sum_erase_add k.procs
    (fun q => ((k.setFd p fdp).fd q).ofiles.count (some fp)) hp
  have hrest : ∑ q ∈ k.procs.erase p, ((k.setFd p fdp).fd q).ofiles.count (some fp) =
      ∑ q ∈ k.procs.erase p, (k.fd q).ofiles.count (some fp) := by
    refine sum_congr rfl fun q hq => ?_
    rw [Kernel.setFd_fd_of_ne k fdp (ne_of_mem_erase hq)]
  rw [hrest, Kernel.setFd_fd_self] at hnew
  rw [Kernel.refs, Kernel.refs]
  have hprocs : (k.setFd p fdp).procs = k.procs := rfl
  rw [hprocs]
  omega

theorem count_none_cons (l : List (Option Ptr)) (fx : Ptr) :
    (none :: l).count (some fx) = l.count (some fx) := by
  rw [count_cons]
  rfl

theorem count_some_cons (fp : Ptr) (l : List (Option Ptr)) (fx : Ptr) :
    (some fp :: l).count (some fx) = l.count (some fx) + if fx = fp then 1 else 0 := by
  rw [count_cons]
  by_cases hx : fx = fp
  · simp [hx]
  · simp [hx, Ne.symm hx]

theorem count_pos {i : ℕ} (hopen : fdp.file i = some fp) : 0 < fdp.ofiles.count (some fp) := by
  rw [count_pos_iff, mem_iff_getElem?]
  exact ⟨i, Filedesc.file_eq_some.mp hopen⟩

theorem count_le_refs (hp : p ∈ k.procs) (fp : Ptr) :
    (k.fd p).ofiles.count (some fp) ≤ k.refs fp := by
  rw [Kernel.refs, ← sum_erase_add k.procs (fun q => (k.fd q).ofiles.count (some fp)) hp]
  exact Nat.le_add_left _ _

/-! ## Counts -/

namespace Counted

theorem congr (h : Counted files c r) (hr : ∀ fx, r' fx = r fx) : Counted files c r' := by
  obtain rfl : r' = r := funext hr
  exact h

theorem insert (h : Counted files c r) (hfp : fp ∉ files) :
    Counted (insert fp files) (update c fp 1) fun fx => r fx + if fx = fp then 1 else 0 := by
  have hzero : r fp = 0 := by
    by_contra hne
    exact hfp (h.mem.mpr (Nat.pos_of_ne_zero hne))
  constructor
  · intro fx hfx
    by_cases hx : fx = fp
    · subst hx
      rw [update_self, if_pos rfl, hzero]
      rfl
    · rw [update_of_ne hx, if_neg hx]
      exact h.count ((mem_insert.mp hfx).resolve_left hx)
  · intro fx
    by_cases hx : fx = fp
    · subst hx
      simp
    · rw [mem_insert, if_neg hx, Nat.add_zero, ← h.mem]
      simp [hx]

theorem incr (h : Counted files c r) (hpos : 0 < r fp) (hmax : r fp < 32767) :
    Counted files (update c fp (c fp + 1)) fun fx => r fx + if fx = fp then 1 else 0 := by
  constructor
  · intro fx hfx
    by_cases hx : fx = fp
    · subst hx
      have hc := h.count hfx
      have hone : (1 : BitVec 16).toInt = 1 := rfl
      rw [update_self, if_pos rfl, BitVec.toInt_add, hc, hone, Int.bmod_eq_of_le]
      · rfl
      · omega
      · omega
    · rw [update_of_ne hx, if_neg hx]
      exact h.count hfx
  · intro fx
    by_cases hx : fx = fp
    · subst hx
      rw [h.mem, if_pos rfl]
      omega
    · rw [h.mem, if_neg hx, Nat.add_zero]

theorem erase (h : Counted files c r) (hone : r fp = 1) :
    Counted (files.erase fp) c fun fx => r fx - if fx = fp then 1 else 0 := by
  constructor
  · intro fx hfx
    rw [if_neg (ne_of_mem_erase hfx), Nat.sub_zero]
    exact h.count (mem_of_mem_erase hfx)
  · intro fx
    by_cases hx : fx = fp
    · subst hx
      simp [hone]
    · rw [mem_erase, if_neg hx, Nat.sub_zero, h.mem]
      exact ⟨fun hm => hm.2, fun hm => ⟨hx, hm⟩⟩

theorem closef (h : Counted k.files k.fCount r) (hpos : 0 < r fp) :
    ∃ k', k.closef fp = some k' ∧ k'.procs = k.procs ∧ k'.fd = k.fd ∧
      Counted k'.files k'.fCount fun fx => r fx - if fx = fp then 1 else 0 := by
  have hc := h.count (h.mem.mpr hpos)
  have hsub : (k.fCount fp - 1).toInt = (r fp : ℤ) - 1 := by
    have hone : (1 : BitVec 16).toInt = 1 := rfl
    have hlt := BitVec.toInt_lt (x := k.fCount fp)
    rw [BitVec.toInt_sub, hone, Int.bmod_eq_of_le, hc]
    · omega
    · omega
  have hother : ∀ {fx}, fx ≠ fp → fx ∈ k.files →
      (update k.fCount fp (k.fCount fp - 1) fx).toInt = r fx := by
    intro fx hx hfx
    rw [update_of_ne hx]
    exact h.count hfx
  rw [Kernel.closef, hsub]
  by_cases hlast : r fp = 1
  · rw [if_neg (by omega), if_neg (by omega)]
    refine ⟨_, rfl, rfl, rfl, ?_⟩
    constructor
    · intro fx hfx
      have hx := ne_of_mem_erase hfx
      rw [if_neg hx, Nat.sub_zero]
      exact hother hx (mem_of_mem_erase hfx)
    · exact (h.erase hlast).mem
  · rw [if_pos (by omega)]
    refine ⟨_, rfl, rfl, rfl, ?_⟩
    constructor
    · intro fx hfx
      by_cases hx : fx = fp
      · subst hx
        dsimp only
        rw [update_self, if_pos rfl, hsub]
        omega
      · rw [if_neg hx, Nat.sub_zero]
        exact hother hx hfx
    · intro fx
      rw [h.mem]
      split_ifs with hx
      · subst hx
        omega
      · rfl

theorem incrAll {l : List (Option Ptr)} (h : Counted k.files k.fCount r)
    (hin : ∀ fx, some fx ∈ l → 0 < r fx) (hmax : ∀ fx, r fx + l.count (some fx) ≤ 32767) :
    ∃ c', k.incrAll l = { k with fCount := c' } ∧
      Counted k.files c' fun fx => r fx + l.count (some fx) := by
  induction l generalizing k r with
  | nil => exact ⟨_, rfl, h.congr fun fx => by rw [count_nil, Nat.add_zero]⟩
  | cons f l ih =>
    cases f with
    | none =>
      have hcount := count_none_cons l
      obtain ⟨c', heq, hc'⟩ := ih h (fun fx hfx => hin fx (mem_cons_of_mem _ hfx))
        fun fx => by rw [← hcount]; exact hmax fx
      exact ⟨c', heq, hc'.congr fun fx => by rw [hcount]⟩
    | some fp =>
      have hcount := count_some_cons fp l
      have hself := hmax fp
      rw [hcount, if_pos rfl] at hself
      obtain ⟨c', heq, hc'⟩ := ih (k := k.incr fp)
        (h.incr (hin fp mem_cons_self) (by omega))
        (fun fx hfx => Nat.add_pos_left (hin fx (mem_cons_of_mem _ hfx)) _)
        (fun fx => by have := hmax fx; rw [hcount] at this; omega)
      refine ⟨c', heq, hc'.congr fun fx => ?_⟩
      rw [hcount]
      omega

theorem closeAll {l : List (Option Ptr)} (h : Counted k.files k.fCount r)
    (hle : ∀ fx, l.count (some fx) ≤ r fx) :
    ∃ k', k.closeAll l = some k' ∧ k'.procs = k.procs ∧ k'.fd = k.fd ∧
      Counted k'.files k'.fCount fun fx => r fx - l.count (some fx) := by
  induction l generalizing k r with
  | nil => exact ⟨_, rfl, rfl, rfl, h.congr fun fx => by rw [count_nil, Nat.sub_zero]⟩
  | cons f l ih =>
    cases f with
    | none =>
      have hcount := count_none_cons l
      obtain ⟨k', heq, hprocs, hfd, hc'⟩ := ih h fun fx => by rw [← hcount]; exact hle fx
      exact ⟨k', heq, hprocs, hfd, hc'.congr fun fx => by rw [hcount]⟩
    | some fp =>
      have hcount := count_some_cons fp l
      have hself := hle fp
      rw [hcount, if_pos rfl] at hself
      have hpos : 0 < r fp := by omega
      obtain ⟨k1, hclose, hprocs1, hfd1, h1⟩ := h.closef hpos
      obtain ⟨k', heq, hprocs, hfd, hc'⟩ := ih h1 fun fx => by
        have := hle fx
        rw [hcount] at this
        omega
      refine ⟨k', ?_, hprocs.trans hprocs1, hfd.trans hfd1, hc'.congr fun fx => ?_⟩
      · rw [Kernel.closeAll, foldlM_cons, Option.elim_some, hclose]
        exact heq
      · rw [hcount]
        omega

end Counted

end Bsd386.Kern.Descrip
