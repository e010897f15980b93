import Bsd386.Kern.Proc.Basic

/-!
# `fork1`

`fork1` of `sys/kern/kern_fork.c`, cut where its allocations may sleep: `forkFind` is what comes
before the `MALLOC` of the process, the search for an identifier included; `forkLink` what happens
between this `MALLOC` and the next; `forkAssign` the rest. A call that does not sleep is `fork1`.

Memory that `MALLOC` returns holds what was left in it: `Junk` are the fields that others read
before they are set.

Source: `sys/kern/kern_fork.c`.
-/

namespace Bsd386.Kern.Proc

open Function

/-- `PID_MAX`. Source: proc.h (PID_MAX) -/
def pidMax : ℤ := 30000

/-- What a process structure holds when it comes from `MALLOC`.
Source: fork1 -/
structure Junk where
  pid : ℤ
  uid : ℕ

namespace Kernel

/-! ## The search for an identifier -/

/-- What the scan reads of a process: `p_pid` and `p_pgrp->pg_id`.
Source: fork1 -/
def ids (k : Kernel) : List (ℤ × ℤ) := k.procs.map fun p => (k.pPid p, k.pPgid p)

end Kernel

/-- `pidchecked` after an entry of the scan. Source: fork1 -/
def lowerChecked (nextpid pidchecked : ℤ) (e : ℤ × ℤ) : ℤ :=
  let pidchecked := if e.1 > nextpid ∧ pidchecked > e.1 then e.1 else pidchecked
  if e.2 > nextpid ∧ pidchecked > e.2 then e.2 else pidchecked

/-- The scan over `allproc` and `zombproc` from `nextpid` and `pidchecked`: whether it goes to
`retry`, and the two numbers then. Source: fork1 -/
def scanLists : List (ℤ × ℤ) → ℤ → ℤ → Bool × ℤ × ℤ
  | [], nextpid, pidchecked => (false, nextpid, pidchecked)
  | e :: l, nextpid, pidchecked =>
    if e.1 = nextpid ∨ e.2 = nextpid then
      if nextpid + 1 ≥ pidchecked then (true, nextpid + 1, pidchecked)
      else scanLists l (nextpid + 1) (lowerChecked (nextpid + 1) pidchecked e)
    else scanLists l nextpid (lowerChecked nextpid pidchecked e)

/-- The search from the label `retry` on: `nextpid` and `pidchecked` at its end.
Source: fork1 -/
def findPid (l : List (ℤ × ℤ)) : ℕ → ℤ → ℤ → Option (ℤ × ℤ)
  | 0, _, _ => none
  | n + 1, nextpid₀, pidchecked₀ =>
    let nextpid := if nextpid₀ ≥ pidMax then 100 else nextpid₀
    let pidchecked := if nextpid₀ ≥ pidMax then 0 else pidchecked₀
    if nextpid ≥ pidchecked then
      match scanLists l nextpid pidMax with
      | (true, nextpid, pidchecked) => findPid l n nextpid pidchecked
      | (false, r) => some r
    else some (nextpid, pidchecked)

namespace Kernel

/-! ## The parts of `fork1` -/

/-- The limits on the number of processes. Source: fork1 -/
def forkLimited (k : Kernel) (p₁ : Ptr) : Bool :=
  let uid := k.pUid p₁
  let count := if uid ≠ 0 then k.procs.countP (k.pUid · == uid) else 0
  k.nprocs ≥ k.maxproc || uid = 0 && k.nprocs ≥ k.maxproc + 1 || (count : ℤ) > k.rlimNproc p₁

/-- `fork1` up to its first `MALLOC`, with at most `n` passes of the search.
Source: fork1 -/
def forkFind (k : Kernel) (p₁ : Ptr) (n : ℕ) : Option (Option Errno × Kernel) :=
  if k.forkLimited p₁ then some (some .eagain, k)
  else (findPid k.ids n (k.nextpid + 1) k.pidchecked).map fun (nextpid, pidchecked) =>
    (none, { k with nextpid := nextpid, pidchecked := pidchecked })

/-- `fork1` from the return of `MALLOC`, with `p₂`, up to the next one.
Source: fork1 -/
def forkLink (k : Kernel) (p₁ p₂ : Ptr) (junk : Junk) : Kernel :=
  { k with
    nprocs := k.nprocs + 1
    allproc := p₂ :: k.allproc
    pPid := update k.pPid p₂ junk.pid
    pUid := update k.pUid p₂ junk.uid
    pCptr := update k.pCptr p₂ none
    pPgrp := update k.pPgrp p₂ (k.pPgrp p₁) }

/-- `fork1` after its allocations. Source: fork1 -/
def forkAssign (k : Kernel) (p₁ p₂ : Ptr) : Kernel :=
  let b := k.pidHash k.nextpid
  { k with
    pUid := update k.pUid p₂ (k.pUid p₁)
    rlimNproc := update k.rlimNproc p₂ (k.rlimNproc p₁)
    sexec := update k.sexec p₂ false
    pStat := update k.pStat p₂ .sidl
    pPid := update k.pPid p₂ k.nextpid
    pHash := update k.pHash p₂ (k.pidhash b)
    pidhash := update k.pidhash b (some p₂)
    pPgrpnxt := update (update k.pPgrpnxt p₂ (k.pPgrpnxt p₁)) p₁ (some p₂)
    pPptr := update k.pPptr p₂ (some p₁)
    pOsptr := update k.pOsptr p₂ (k.pCptr p₁)
    pCptr := update k.pCptr p₁ (some p₂) }

/-- `fork1` of the process `p₁` when nothing sleeps.
Source: fork1 -/
def fork1 (k : Kernel) (p₁ p₂ : Ptr) (junk : Junk) (n : ℕ) : Option (Option Errno × Kernel) :=
  (k.forkFind p₁ n).map fun
    | (some e, k) => (some e, k)
    | (none, k) => (none, (k.forkLink p₁ p₂ junk).forkAssign p₁ p₂)

end Kernel

end Bsd386.Kern.Proc
