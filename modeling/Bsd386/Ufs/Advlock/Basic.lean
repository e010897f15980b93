import Mathlib.Data.Finset.Basic
import Mathlib.Algebra.Ring.Nat
import Mathlib.Algebra.Ring.Int.Defs

/-!
# Advisory byte-range locks: the data and the searches

The data of `sys/ufs/ufs_lockf.c`. A `struct lockf` is either a held lock, linked on its inode's
`i_lockf` list through `lf_next`, or the request of a process that is inside `lf_setlock`; a
request that waits is linked on the `lf_block` list of the lock it waits for, and its own
`lf_next` names that lock. The two linked lists are kept as lists of addresses (`iLockf`,
`lfBlock`), the `lf_next` of a request as a pointer (`lfNext`). Addresses are kept explicitly,
with the set of allocated ones, because the code frees and reuses lock structures while other
structures point to them.

`off_t` is a `long` of 32 bits: offsets are integers, and the two places where the code computes
one (`lf_end + 1`, `lf_start - 1`) wrap (`offSucc`, `offPred`). The end `-1` stands for infinity.
-/

namespace Bsd386.Ufs.Advlock

open List

variable {l rest skip : List Addr} {lock : Lockf} {k : Kernel} {w : Whose} {c : OvCase} {n : ℕ}

/-- The address of a `struct lockf`. -/
abbrev Addr := ℕ

abbrev Ino := ℕ

abbrev Pid := ℕ

/-- A lock owner (`lf_id`): the process of a POSIX lock, the open file of an `flock` lock.
Source: lockf.h, lf_id; fcntl, flock -/
inductive Id where
  | proc (p : Pid)
  | file (f : ℕ)
deriving DecidableEq

/-- `lf_type`. Source: fcntl.h, F_RDLCK, F_WRLCK, F_UNLCK -/
inductive LfType where
  | rdlck
  | wrlck
  | unlck
deriving DecidableEq

/-- `struct lockf` without its links.
Source: lockf.h, struct lockf -/
structure Lockf where
  /-- `F_POSIX` in `lf_flags`. -/
  posix : Bool
  /-- `F_FLOCK` in `lf_flags`. -/
  flock : Bool
  /-- `F_WAIT` in `lf_flags`. -/
  wait : Bool
  /-- `lf_type`. -/
  type : LfType
  /-- `lf_start`. -/
  start : ℤ
  /-- `lf_end`; `-1` is end of file. -/
  stop : ℤ
  /-- `lf_id`. -/
  id : Id
  /-- `lf_inode`. -/
  inode : Ino
deriving DecidableEq

/-- The largest `off_t`. Source: types.h, off_t -/
def maxOff : ℤ := 2 ^ 31 - 1

/-- `x + 1` as an `off_t`. Source: types.h, off_t -/
def offSucc (x : ℤ) : ℤ := (x + 1).bmod (2 ^ 32)

/-- `x - 1` as an `off_t`. Source: types.h, off_t -/
def offPred (x : ℤ) : ℤ := (x - 1).bmod (2 ^ 32)

/-- Where a process is with respect to the lock code.
Source: lf_setlock, lf_split -/
inductive PState where
  /-- Not inside `lf_setlock` or `lf_clearlock`. -/
  | running
  /-- In `tsleep` on the request `a`: `p_wchan` is `a`, `p_wmesg` is `lockstr`. -/
  | asleep (a : Addr)
  /-- In `tsleep` on the request `a`, made runnable by `wakeup`; `p_wchan` is 0. -/
  | woken (a : Addr)
  /-- In `tsleep` on the request `a`, made runnable by a signal; `p_wchan` is 0. -/
  | signalled (a : Addr)
  /-- In the `MALLOC` of `lf_split(x, a)`, called by `lf_setlock`. -/
  | mallocSet (a x : Addr)
  /-- In the `MALLOC` of `lf_split(x, a)`, called by `lf_clearlock`. -/
  | mallocClear (a x : Addr)
deriving DecidableEq

/-- The lock structures, the lists they are on, and the processes.
Source: ufs_lockf.c; lockf.h, struct lockf -/
@[ext]
structure Kernel where
  /-- The contents of the structure at an address; freed memory keeps what it held. -/
  lock : Addr → Lockf
  /-- The addresses handed out by `MALLOC` and not freed. -/
  live : Finset Addr
  /-- `i_lockf`: the locks held on an inode, in list order. -/
  iLockf : Ino → List Addr
  /-- The requests linked on `lf_block`, in list order. -/
  lfBlock : Addr → List Addr
  /-- `lf_next` of a request. -/
  lfNext : Addr → Option Addr
  /-- The processes. -/
  proc : Pid → PState

/-! ## Overlap -/

/-- The range of a lock covers byte `b`. Source: lockf.h, lf_start, lf_end -/
def Lockf.Covers (l : Lockf) (b : ℤ) : Prop := l.start ≤ b ∧ (l.stop = -1 ∨ b ≤ l.stop)

def Overlap (l m : Lockf) : Prop := ∃ b, l.Covers b ∧ m.Covers b

/-- A range as the callers pass it: a byte number, then `-1` or a byte number not before it.
Source: lockf.h, lf_start, lf_end -/
def Lockf.RangeOk (l : Lockf) : Prop :=
  0 ≤ l.start ∧ l.start ≤ maxOff ∧ (l.stop = -1 ∨ l.start ≤ l.stop ∧ l.stop ≤ maxOff)

instance (l : Lockf) : Decidable l.RangeOk := inferInstanceAs (Decidable (_ ∧ _ ∧ _))

/-- The test for case 0. Source: lf_findoverlap -/
def noOverlap (lf lock : Lockf) : Bool :=
  (decide (lf.stop ≠ -1) && decide (lf.stop < lock.start)) ||
    (decide (lock.stop ≠ -1) && decide (lock.stop < lf.start))

/-- The cases of an overlap between a lock of the list and the lock looked for.
Source: lf_findoverlap -/
inductive OvCase where
  /-- 0) no overlap. -/
  | none
  /-- 1) overlap == lock. -/
  | equal
  /-- 2) overlap contains lock. -/
  | contains
  /-- 3) lock contains overlap. -/
  | within
  /-- 4) overlap starts before lock. -/
  | startsBefore
  /-- 5) overlap ends after lock. -/
  | endsAfter
  /-- `panic("lf_findoverlap: default")`. -/
  | panic
deriving DecidableEq

/-- The tests on one lock of the list.
Source: lf_findoverlap -/
def ovcase (lf lock : Lockf) : OvCase :=
  if noOverlap lf lock then .none
  else if lf.start = lock.start ∧ lf.stop = lock.stop then .equal
  else if lf.start ≤ lock.start ∧ lock.stop ≠ -1 ∧ (lock.stop ≤ lf.stop ∨ lf.stop = -1) then
    .contains
  else if lock.start ≤ lf.start ∧ (lock.stop = -1 ∨ lf.stop ≠ -1 ∧ lf.stop ≤ lock.stop) then
    .within
  else if lf.start < lock.start ∧ (lock.start ≤ lf.stop ∨ lf.stop = -1) then .startsBefore
  else if lock.start < lf.start ∧ lock.stop ≠ -1 ∧ (lock.stop < lf.stop ∨ lf.stop = -1) then
    .endsAfter
  else .panic

/-- Whose locks `lf_findoverlap` looks at. Source: SELF, OTHERS -/
inductive Whose where
  | self
  | others
deriving DecidableEq

/-- A lock of the list is of the owners looked at.
Source: lf_findoverlap -/
def Whose.wants (w : Whose) (lf lock : Lockf) : Bool :=
  match w with
  | .self => decide (lf.id = lock.id)
  | .others => decide (lf.id ≠ lock.id)

/-- `lf_findoverlap(lf, lock, type, prev, overlap)`: the case, the locks passed over (`prev` is the
link after them) and the rest of the list (`overlap` is its head).
Source: lf_findoverlap -/
def lfFindoverlap (k : Kernel) (w : Whose) (lock : Lockf) :
    List Addr → OvCase × List Addr × List Addr
  | [] => (.none, [], [])
  | x :: xs =>
    let lf := k.lock x
    let skip := fun (r : OvCase × List Addr × List Addr) => (r.1, x :: r.2.1, r.2.2)
    if !w.wants lf lock then skip (lfFindoverlap k w lock xs)
    else if noOverlap lf lock then
      -- the owner's locks are in order of their start: none further on can overlap
      if w = .self ∧ lock.stop ≠ -1 ∧ lock.stop < lf.start then (.none, [], x :: xs)
      else skip (lfFindoverlap k w lock xs)
    else (ovcase lf lock, [], x :: xs)

/-- The loop of `lf_getblock`; `n` bounds the number of its turns, and the callers pass more than
the length of the list.
Source: lf_getblock -/
def lfGetblockFrom (k : Kernel) (lock : Lockf) : ℕ → List Addr → Option Addr
  | 0, _ => none
  | n + 1, lf =>
    match lfFindoverlap k .others lock lf with
    | (.none, _, _) => none
    | (_, _, []) => none
    | (_, _, overlap :: rest) =>
      if lock.type = .wrlck ∨ (k.lock overlap).type = .wrlck then some overlap
      else lfGetblockFrom k lock n rest

/-- Source: lf_getblock -/
def lfGetblock (k : Kernel) (lock : Lockf) : Option Addr :=
  lfGetblockFrom k lock ((k.iLockf lock.inode).length + 1) (k.iLockf lock.inode)

/-! ## What the searches find -/

theorem noOverlap_eq_false_iff {l m : Lockf} (hl : l.stop = -1 ∨ l.start ≤ l.stop)
    (hm : m.stop = -1 ∨ m.start ≤ m.stop) : noOverlap l m = false ↔ Overlap l m := by
  simp only [noOverlap, Bool.or_eq_false_iff, Bool.and_eq_false_iff, decide_eq_false_iff_not,
    not_not, not_lt, Overlap, Lockf.Covers]
  constructor
  · rintro ⟨h1, h2⟩
    refine ⟨max l.start m.start, ⟨le_max_left _ _, ?_⟩, ⟨le_max_right _ _, ?_⟩⟩
    · omega
    · omega
  · rintro ⟨b, ⟨hl1, hl2⟩, ⟨hm1, hm2⟩⟩
    omega

theorem ovcase_eq_none_iff {lf : Lockf} :
    ovcase lf lock = .none ↔ noOverlap lf lock = true := by
  unfold ovcase
  constructor
  · intro h
    split_ifs at h with hno
    exact hno
  · intro h
    rw [if_pos h]

theorem lfFindoverlap_append
    (h : lfFindoverlap k w lock l = (c, skip, rest)) : l = skip ++ rest := by
  induction l generalizing skip with
  | nil =>
    obtain ⟨-, rfl, rfl⟩ := h
    rfl
  | cons x xs ih =>
    rcases hr : lfFindoverlap k w lock xs with ⟨c', skip', rest'⟩
    simp only [lfFindoverlap, hr] at h
    split_ifs at h <;>
      (simp only [Prod.mk.injEq] at h
       obtain ⟨rfl, rfl, rfl⟩ := h)
    · rw [cons_append, ← ih hr]
    · rfl
    · rw [cons_append, ← ih hr]
    · rfl

theorem lfFindoverlap_found
    (h : lfFindoverlap k w lock l = (c, skip, rest)) (hc : c ≠ .none) :
    ∃ x rest', rest = x :: rest' ∧ w.wants (k.lock x) lock = true ∧
      ovcase (k.lock x) lock = c := by
  induction l generalizing skip with
  | nil =>
    simp only [lfFindoverlap, Prod.mk.injEq] at h
    exact absurd h.1.symm hc
  | cons x xs ih =>
    rcases hr : lfFindoverlap k w lock xs with ⟨c', skip', rest'⟩
    simp only [lfFindoverlap, hr] at h
    split_ifs at h with hw hno hstop <;>
      (simp only [Prod.mk.injEq] at h
       obtain ⟨rfl, rfl, rfl⟩ := h)
    · exact ih hr
    · exact absurd rfl hc
    · exact ih hr
    · exact ⟨x, xs, rfl, by simpa using hw, rfl⟩

theorem lfFindoverlap_others_skip
    (h : lfFindoverlap k .others lock l = (c, skip, rest)) :
    (∀ x ∈ skip, (k.lock x).id ≠ lock.id → noOverlap (k.lock x) lock = true) ∧
      (c = .none → rest = []) := by
  induction l generalizing skip with
  | nil =>
    obtain ⟨-, rfl, rfl⟩ := h
    exact ⟨by simp, fun _ => rfl⟩
  | cons x xs ih =>
    rcases hr : lfFindoverlap k .others lock xs with ⟨c', skip', rest'⟩
    simp only [lfFindoverlap, hr] at h
    split_ifs at h with hw hno hstop <;>
      (simp only [Prod.mk.injEq] at h
       obtain ⟨rfl, rfl, rfl⟩ := h)
    · obtain ⟨hskip, hrest⟩ := ih hr
      refine ⟨?_, hrest⟩
      intro y hy hid
      rcases mem_cons.mp hy with rfl | hy
      · simp [Whose.wants, hid] at hw
      · exact hskip y hy hid
    · exact absurd hstop.1 (by decide)
    · obtain ⟨hskip, hrest⟩ := ih hr
      refine ⟨?_, hrest⟩
      intro y hy hid
      rcases mem_cons.mp hy with rfl | hy
      · exact hno
      · exact hskip y hy hid
    · refine ⟨by simp, fun hnone => ?_⟩
      exact absurd (ovcase_eq_none_iff.mp hnone) hno

/-- A conflict: different owners, a common byte by the test of the code, one of them writing.
Source: lf_getblock -/
def Blocks (lf lock : Lockf) : Prop :=
  lf.id ≠ lock.id ∧ noOverlap lf lock = false ∧ (lock.type = .wrlck ∨ lf.type = .wrlck)

instance (lf lock : Lockf) : Decidable (Blocks lf lock) := inferInstanceAs (Decidable (_ ∧ _ ∧ _))

theorem lfGetblockFrom_eq_some {x : Addr}
    (h : lfGetblockFrom k lock n l = some x) : x ∈ l ∧ Blocks (k.lock x) lock := by
  induction n generalizing l with
  | zero => simp [lfGetblockFrom] at h
  | succ n ih =>
    rcases hr : lfFindoverlap k .others lock l with ⟨c, skip, rest⟩
    simp only [lfGetblockFrom, hr] at h
    by_cases hc : c = .none
    · subst hc
      simp at h
    obtain ⟨y, rest', rfl, hw, hov⟩ := lfFindoverlap_found hr hc
    have hl := lfFindoverlap_append hr
    have hy : y ∈ l := by rw [hl]; simp
    have hblocks : (lock.type = .wrlck ∨ (k.lock y).type = .wrlck) → Blocks (k.lock y) lock := by
      intro ht
      refine ⟨by simpa [Whose.wants] using hw, ?_, ht⟩
      rw [← Bool.not_eq_true]
      exact fun hno => hc (hov ▸ ovcase_eq_none_iff.mpr hno)
    have h' : (if lock.type = .wrlck ∨ (k.lock y).type = .wrlck then some y
        else lfGetblockFrom k lock n rest') = some x := by
      cases c <;> first | exact absurd rfl hc | simpa using h
    split_ifs at h' with ht
    · cases h'
      exact ⟨hy, hblocks ht⟩
    obtain ⟨hx, hb⟩ := ih h'
    refine ⟨?_, hb⟩
    rw [hl]
    simp [hx]

theorem lfGetblockFrom_eq_none
    (hn : l.length < n) (h : lfGetblockFrom k lock n l = none) :
    ∀ x ∈ l, ¬ Blocks (k.lock x) lock := by
  induction n generalizing l with
  | zero => omega
  | succ n ih =>
    rcases hr : lfFindoverlap k .others lock l with ⟨c, skip, rest⟩
    simp only [lfGetblockFrom, hr] at h
    have hl := lfFindoverlap_append hr
    obtain ⟨hskip, hrest⟩ := lfFindoverlap_others_skip hr
    have hno : ∀ x ∈ skip, ¬ Blocks (k.lock x) lock := by
      rintro x hx ⟨hid, hov, -⟩
      rw [hskip x hx hid] at hov
      cases hov
    by_cases hc : c = .none
    · rw [hl, hrest hc, append_nil]
      exact hno
    obtain ⟨y, rest', rfl, -, -⟩ := lfFindoverlap_found hr hc
    have h' : (if lock.type = .wrlck ∨ (k.lock y).type = .wrlck then some y
        else lfGetblockFrom k lock n rest') = none := by
      cases c <;> first | exact absurd rfl hc | simpa using h
    split_ifs at h' with ht
    have hlen : rest'.length < n := by
      have := congrArg length hl
      simp only [length_append, length_cons] at this
      omega
    intro x hx
    rw [hl] at hx
    rcases mem_append.mp hx with hx | hx
    · exact hno x hx
    rcases mem_cons.mp hx with rfl | hx
    · rintro ⟨-, -, hty⟩
      exact ht hty
    · exact ih hlen h' x hx

theorem lfFindoverlap_congr {k' : Kernel}
    (h : ∀ x ∈ l, k'.lock x = k.lock x) :
    lfFindoverlap k' w lock l = lfFindoverlap k w lock l := by
  induction l with
  | nil => rfl
  | cons x xs ih =>
    have hx := h x mem_cons_self
    have hxs := ih fun y hy => h y (mem_cons_of_mem _ hy)
    simp only [lfFindoverlap, hx, hxs]

theorem lfGetblockFrom_congr {k' : Kernel}
    (h : ∀ x ∈ l, k'.lock x = k.lock x) :
    lfGetblockFrom k' lock n l = lfGetblockFrom k lock n l := by
  induction n generalizing l with
  | zero => rfl
  | succ n ih =>
    rcases hr : lfFindoverlap k .others lock l with ⟨c, skip, rest⟩
    have hl := lfFindoverlap_append hr
    simp only [lfGetblockFrom, lfFindoverlap_congr h, hr]
    rcases rest with _ | ⟨x, rest⟩
    · cases c <;> rfl
    · have hx := h x (by rw [hl]; simp)
      have hrest := ih (l := rest) fun y hy => h y (by rw [hl]; simp [hy])
      cases c <;> simp only [hx, hrest]

theorem lfGetblock_eq_some {x : Addr}
    (h : lfGetblock k lock = some x) : x ∈ k.iLockf lock.inode ∧ Blocks (k.lock x) lock :=
  lfGetblockFrom_eq_some h

theorem lfGetblock_eq_none (h : lfGetblock k lock = none) :
    ∀ x ∈ k.iLockf lock.inode, ¬ Blocks (k.lock x) lock :=
  lfGetblockFrom_eq_none (Nat.lt_succ_self _) h

end Bsd386.Ufs.Advlock
