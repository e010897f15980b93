import Bsd386.Kern.Proc.Moves
import Bsd386.Kern.Proc.Search
import Bsd386.Lib.Transition

/-!
# Concurrent forks

`fork1` sleeps in its allocations, and other processes run meanwhile. An action (`Act`) is what one
process does until it sleeps or returns: a part of `fork1`, a `setsid` or `setpgid`, the end of a
process. `exit` and `wait` are not in the source; they move a process from `allproc` to `zombproc`
and take it from there, from `pidhash` and from its group. Who the parents of the children of an
exiting process are then is part of the action.

`fork1` remembers the identifier it has found in the static variable `nextpid`, which it reads again
after its allocations. `Meets` says when this, and the search, cannot go wrong:

* a search runs only while no other `fork1` is between its search and its end, and its last pass
  overlooks no number;
* the memory of a new process does not hold the identifier of another one where `p_pid` will be;
* no process is moved to another group while its `fork1` is between its two allocations and its end.
-/

namespace Bsd386.Kern.Proc

open Lib.Linked

/-- The tables, and the calls of `fork1` that sleep: the parent, and the child when it is already on
`allproc`. Source: fork1 -/
structure State where
  kernel : Kernel
  forks : List (Ptr × Option Ptr)

/-- The links of the family tree. Source: proc.h (proc) -/
structure Kin where
  pPptr : Ptr → Option Ptr
  pCptr : Ptr → Option Ptr
  pOsptr : Ptr → Option Ptr

/-- What a process does without sleeping. -/
inductive Act where
  | find (p₁ : Ptr) (n : ℕ)
  | link (p₁ p₂ : Ptr) (junk : Junk)
  | assign (p₁ p₂ : Ptr)
  | setsid (p a sa : Ptr)
  | setpgid (p : Ptr) (pid pgid : ℤ) (a sa : Ptr)
  | exit (p : Ptr) (kin : Kin)
  | wait (p : Ptr)

/-- Taking a process off `pidhash`. Source: fork1, for the list -/
def Kernel.unhash (k : Kernel) (p : Ptr) : Option Kernel :=
  let b := k.pidHash (k.pPid p)
  (walk k.pHash (· == p) k.bound none (k.pidhash b)).bind fun (prev, cur) =>
    cur.map fun _ => { k with
      pHash := relinkNext prev k.pHash (k.pHash p)
      pidhash := Function.update k.pidhash b (relinkHead prev (k.pidhash b) (k.pHash p)) }

namespace State

/-- The process runs: it is no zombie, does not sleep in `fork1` and is not being made by one.
Source: fork1 -/
def running (s : State) (p : Ptr) : Bool :=
  s.kernel.allproc.contains p && s.forks.all fun f => f.1 != p && f.2 != some p

/-- One action; `none` when it cannot be taken.
Source: fork1, setsid, setpgid -/
def step (s : State) : Act → Option State
  | .find p₁ n =>
    if s.running p₁ then
      (s.kernel.forkFind p₁ n).map fun
        | (some _, k) => { s with kernel := k }
        | (none, k) => ⟨k, (p₁, none) :: s.forks⟩
    else none
  | .link p₁ p₂ junk =>
    if (p₁, none) ∈ s.forks ∧ p₂ ∉ s.kernel.procs then
      some ⟨s.kernel.forkLink p₁ p₂ junk, (p₁, some p₂) :: s.forks.erase (p₁, none)⟩
    else none
  | .assign p₁ p₂ =>
    if (p₁, some p₂) ∈ s.forks then
      some ⟨s.kernel.forkAssign p₁ p₂, s.forks.erase (p₁, some p₂)⟩
    else none
  | .setsid p a sa =>
    if s.running p ∧ a ∉ s.kernel.pgrps ∧ sa ∉ s.kernel.sessions then
      (s.kernel.setsid p a sa).map fun (_, k) => { s with kernel := k }
    else none
  | .setpgid p pid pgid a sa =>
    if s.running p ∧ a ∉ s.kernel.pgrps ∧ sa ∉ s.kernel.sessions then
      (s.kernel.setpgid p pid pgid a sa).map fun (_, k) => { s with kernel := k }
    else none
  | .exit p kin =>
    if s.running p then
      some { s with kernel := { s.kernel with
        allproc := s.kernel.allproc.erase p
        zombproc := p :: s.kernel.zombproc
        pStat := Function.update s.kernel.pStat p .szomb
        pPptr := kin.pPptr
        pCptr := kin.pCptr
        pOsptr := kin.pOsptr } }
    else none
  | .wait p =>
    if p ∈ s.kernel.zombproc then
      (s.kernel.unhash p).bind fun k => (k.leavepgrp p).map fun k => { s with kernel := { k with
        zombproc := k.zombproc.erase p
        nprocs := k.nprocs - 1 } }
    else none

/-- When an action cannot make two processes alike. Source: fork1 -/
def Meets (s : State) : Act → Prop
  | .find p₁ n =>
    s.kernel.forkLimited p₁ = true ∨ s.forks = [] ∧
      findOverlooks s.kernel.ids n (s.kernel.nextpid + 1) s.kernel.pidchecked = false
  | .link _ _ junk => ∀ q ∈ s.kernel.procs, s.kernel.pPid q ≠ junk.pid
  | .setpgid p pid _ _ _ =>
    ∀ t, s.kernel.setpgidTarget p pid = some (.ok t) → ∀ f ∈ s.forks, f.1 = t → f.2 = none
  | _ => True

/-- An action that meets the condition. -/
def Next (s s' : State) : Prop := ∃ act, s.Meets act ∧ s.step act = some s'

/-- The initial process, no fork going on. -/
def IsInitial (s : State) : Prop := (∃ p g t, Initial s.kernel p g t) ∧ s.forks = []

/-- The processes that have been given an identifier. Source: fork1 -/
def named (s : State) : Set Ptr := {p | p ∈ s.kernel.procs ∧ ∀ f ∈ s.forks, f.2 ≠ some p}

end State

/-- No process of `P` and no group has the identifier `i`. Source: fork1 -/
def Free (k : Kernel) (P : Set Ptr) (i : ℤ) : Prop :=
  (∀ p ∈ P, k.pPid p ≠ i) ∧ ∀ g ∈ k.pgrps, k.pgId g ≠ i

/-- The invariant of the runs in which every action meets the condition.
Source: comment of fork1 -/
structure PidInv (s : State) (mem : Ptr → List Ptr) (chain bucket : ℤ → List Ptr) : Prop where
  groups : Groups s.kernel s.named mem chain
  nonempty : ∀ g ∈ s.kernel.pgrps, mem g ≠ []
  nodup : s.kernel.procs.Nodup
  hashed : Family s.kernel.pHash s.kernel.pidhash Set.univ s.named bucket
  distinct : ∀ p ∈ s.named, ∀ q ∈ s.named, p ≠ q → s.kernel.pPid p ≠ s.kernel.pPid q
  /-- "a range of unused IDs ready to use (from nextpid+1 through pidchecked-1)" -/
  range : ∀ i, s.kernel.nextpid < i → i < s.kernel.pidchecked → Free s.kernel s.named i
  few : s.forks.length ≤ 1
  fork {f : Ptr × Option Ptr} : f ∈ s.forks →
    f.1 ∈ s.kernel.allproc ∧ f.1 ∈ s.named ∧ Free s.kernel s.named s.kernel.nextpid
  child {p₁ p₂ : Ptr} : (p₁, some p₂) ∈ s.forks →
    p₂ ∈ s.kernel.allproc ∧ s.kernel.pPgrp p₂ = s.kernel.pPgrp p₁ ∧
      ∀ q ∈ s.named, s.kernel.pPid q ≠ s.kernel.pPid p₂

end Bsd386.Kern.Proc
