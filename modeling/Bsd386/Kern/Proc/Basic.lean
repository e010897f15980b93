import Bsd386.Lib.Linked
import Mathlib.Data.Finset.Card

/-!
# Processes, process groups and sessions

The process table of `sys/sys/proc.h` and the routines of `sys/kern/kern_proc.c` that keep process
groups: `pfind`, `pgfind`, `inferior`, `enterpgrp`, `leavepgrp`, `pgdelete`, `fixjobc`, `orphanpg`.

A pointer is a number, and a field of a structure is a function of the pointer. `pgrps` and
`sessions` are the structures that `MALLOC` has handed out and `FREE` has not taken back; processes
are allocated exactly while they are on `allproc` or `zombproc`. The two lists are Lean lists, as
nothing is done with their links; `p_pgrpnxt`, `p_osptr`, `p_hash` and `pg_hforw` are links in
memory. A routine returns `none` where the code would run into a null pointer or a `panic`.

What is left out: signals (`orphanpg` only notes the groups it is called for), terminals, and the
fields of `struct proc` that these routines do not read.
-/

namespace Bsd386.Kern.Proc

open Function Lib.Linked

abbrev Ptr := ℕ

/-- `p_stat`. Source: proc.h (stat codes) -/
inductive Stat where
  | ssleep
  | srun
  | sidl
  | szomb
  | sstop
deriving DecidableEq

/-- Error numbers of the system calls. -/
inductive Errno where
  | eperm
  | esrch
  | eagain
  | eacces
deriving DecidableEq

/-- The tables of the kernel.
Source: proc.h (proc, pgrp, session), static variables of
`fork1` -/
structure Kernel where
  /-- fields of `struct proc`. -/
  pPid : Ptr → ℤ
  pUid : Ptr → ℕ
  rlimNproc : Ptr → ℤ
  pStat : Ptr → Stat
  sexec : Ptr → Bool
  pHash : Ptr → Option Ptr
  pPgrpnxt : Ptr → Option Ptr
  pPptr : Ptr → Option Ptr
  pOsptr : Ptr → Option Ptr
  pCptr : Ptr → Option Ptr
  pPgrp : Ptr → Ptr
  /-- fields of `struct pgrp`. -/
  pgHforw : Ptr → Option Ptr
  pgMem : Ptr → Option Ptr
  pgSession : Ptr → Ptr
  pgId : Ptr → ℤ
  pgJobc : Ptr → ℤ
  /-- fields of `struct session`. -/
  sCount : Ptr → ℤ
  sLeader : Ptr → Ptr
  /-- what is allocated. -/
  allproc : List Ptr
  zombproc : List Ptr
  pgrps : Finset Ptr
  sessions : Finset Ptr
  /-- hash tables. -/
  pidhash : ℤ → Option Ptr
  pgrphash : ℤ → Option Ptr
  pidhashmask : ℕ
  /-- `fork1`. -/
  nprocs : ℤ
  maxproc : ℤ
  nextpid : ℤ
  pidchecked : ℤ
  /-- the groups for which `orphanpg` was called. -/
  orphaned : List Ptr

namespace Kernel

/-- `p_session`. Source: proc.h (p_session) -/
def pSession (k : Kernel) (p : Ptr) : Ptr := k.pgSession (k.pPgrp p)

/-- `p_pgid`. Source: proc.h (p_pgid) -/
def pPgid (k : Kernel) (p : Ptr) : ℤ := k.pgId (k.pPgrp p)

/-- `SESS_LEADER(p)`. Source: proc.h (SESS_LEADER) -/
def sessLeader (k : Kernel) (p : Ptr) : Bool := k.sLeader (k.pSession p) == p

/-- `PIDHASH(pid)`. The mask is a power of two less one, so that `&` is a remainder.
Source: proc.h (PIDHASH) -/
def pidHash (k : Kernel) (pid : ℤ) : ℤ := pid % (k.pidhashmask + 1)

def procs (k : Kernel) : List Ptr := k.allproc ++ k.zombproc

/-- More steps than a loop over processes makes. -/
def bound (k : Kernel) : ℕ := k.procs.length + 1

/-! ## Searches -/

/-- `inferior(p)`: is `p` the current process or below it?
Source: inferior -/
def inferior (k : Kernel) (curproc : Ptr) : ℕ → Ptr → Option Bool
  | 0, _ => none
  | n + 1, p =>
    if p = curproc then some true
    else if k.pPid p = 0 then some false
    else (k.pPptr p).bind (k.inferior curproc n)

/-- Source: pfind -/
def pfind (k : Kernel) (pid : ℤ) : Option (Option Ptr) :=
  (walk k.pHash (k.pPid · == pid) k.bound none (k.pidhash (k.pidHash pid))).map (·.2)

/-- Source: pgfind -/
def pgfind (k : Kernel) (pgid : ℤ) : Option (Option Ptr) :=
  (walk k.pgHforw (k.pgId · == pgid) (k.pgrps.card + 1) none (k.pgrphash (k.pidHash pgid))).map (·.2)

/-! ## Job control counts -/

/-- `orphanpg(pg)`: a stopped group is sent signals, which are not modelled.
Source: orphanpg -/
def orphanpg (k : Kernel) (pg : Ptr) : Kernel := { k with orphaned := pg :: k.orphaned }

/-- `pg_jobc++`, or `if (--pg_jobc == 0) orphanpg(pg)`.
Source: fixjobc -/
def adjustJobc (k : Kernel) (pg : Ptr) (entering : Bool) : Kernel :=
  if entering then { k with pgJobc := update k.pgJobc pg (k.pgJobc pg + 1) }
  else
    let k' := { k with pgJobc := update k.pgJobc pg (k.pgJobc pg - 1) }
    if k'.pgJobc pg = 0 then k'.orphanpg pg else k'

/-- The body of the loop of `fixjobc` over the children. Source: fixjobc -/
def fixjobcChild (pgrp : Ptr) (entering : Bool) (k : Kernel) (c : Ptr) : Kernel :=
  if k.pPgrp c ≠ pgrp ∧ k.pgSession (k.pPgrp c) = k.pgSession pgrp ∧ k.pStat c ≠ .szomb then
    k.adjustJobc (k.pPgrp c) entering
  else k

/-- Source: fixjobc -/
def fixjobc (k : Kernel) (p pgrp : Ptr) (entering : Bool) : Option Kernel :=
  (k.pPptr p).bind fun pptr =>
    let k₁ := if k.pPgrp pptr ≠ pgrp ∧ k.pgSession (k.pPgrp pptr) = k.pgSession pgrp then
      k.adjustJobc pgrp entering else k
    (collect k.pOsptr k.bound (k.pCptr p)).map fun children =>
      children.foldl (fixjobcChild pgrp entering) k₁

/-! ## Membership -/

/-- Unlink `p` from the members of its group. `none` is the `panic` of `enterpgrp` and `leavepgrp`.
Source: enterpgrp, leavepgrp -/
def unlinkMem (k : Kernel) (p : Ptr) : Option Kernel :=
  (walk k.pPgrpnxt (· == p) k.bound none (k.pgMem (k.pPgrp p))).bind fun (prev, cur) =>
    cur.map fun _ => { k with
      pPgrpnxt := relinkNext prev k.pPgrpnxt (k.pPgrpnxt p)
      pgMem := update k.pgMem (k.pPgrp p)
        (relinkHead prev (k.pgMem (k.pPgrp p)) (k.pPgrpnxt p)) }

/-- Source: pgdelete -/
def pgdelete (k : Kernel) (pgrp : Ptr) : Option Kernel :=
  let b := k.pidHash (k.pgId pgrp)
  let s := k.pgSession pgrp
  (walk k.pgHforw (· == pgrp) (k.pgrps.card + 1) none (k.pgrphash b)).bind fun (prev, cur) =>
    cur.map fun _ => { k with
      pgHforw := relinkNext prev k.pgHforw (k.pgHforw pgrp)
      pgrphash := update k.pgrphash b (relinkHead prev (k.pgrphash b) (k.pgHforw pgrp))
      sCount := update k.sCount s (k.sCount s - 1)
      sessions := if k.sCount s - 1 = 0 then k.sessions.erase s else k.sessions
      pgrps := k.pgrps.erase pgrp }

/-- `if (p->p_pgrp->pg_mem == 0) pgdelete(p->p_pgrp)`.
Source: enterpgrp, leavepgrp -/
def dropEmpty (k : Kernel) (pgrp : Ptr) : Option Kernel :=
  if k.pgMem pgrp = none then k.pgdelete pgrp else some k

/-- Link `p` into the group `pgrp`. Source: enterpgrp -/
def linkMem (k : Kernel) (p pgrp : Ptr) : Kernel :=
  { k with
    pPgrp := update k.pPgrp p pgrp
    pPgrpnxt := update k.pPgrpnxt p (k.pgMem pgrp)
    pgMem := update k.pgMem pgrp (some p) }

/-- `enterpgrp` from the comment "unlink p from old process group" on.
Source: enterpgrp -/
def relinkTo (k : Kernel) (p pgrp : Ptr) : Option Kernel :=
  (k.unlinkMem p).bind fun k =>
  (k.dropEmpty (k.pPgrp p)).map fun k =>
  k.linkMem p pgrp

/-- `enterpgrp` from the adjustment of the counts on. Source: enterpgrp -/
def moveTo (k : Kernel) (p pgrp : Ptr) : Option Kernel :=
  (k.fixjobc p pgrp true).bind fun k =>
  (k.fixjobc p (k.pPgrp p) false).bind fun k =>
  k.relinkTo p pgrp

/-- The new group of `enterpgrp` at the address `a`, with a new session at the address `sa` or in
the session of `p`. Source: enterpgrp -/
def newPgrp (k : Kernel) (p : Ptr) (pgid : ℤ) (mksess : Bool) (a sa : Ptr) : Kernel :=
  let k :=
    if mksess then { k with
      sessions := insert sa k.sessions
      sLeader := update k.sLeader sa p
      sCount := update k.sCount sa 1
      pgSession := update k.pgSession a sa }
    else { k with
      pgSession := update k.pgSession a (k.pSession p)
      sCount := update k.sCount (k.pSession p) (k.sCount (k.pSession p) + 1) }
  { k with
    pgrps := insert a k.pgrps
    pgId := update k.pgId a pgid
    pgHforw := update k.pgHforw a (k.pgrphash (k.pidHash pgid))
    pgrphash := update k.pgrphash (k.pidHash pgid) (some a)
    pgJobc := update k.pgJobc a 0
    pgMem := update k.pgMem a none }

/-- `enterpgrp(p, pgid, mksess)`; `MALLOC` would return `a` and `sa`.
Source: enterpgrp -/
def enterpgrp (k : Kernel) (p : Ptr) (pgid : ℤ) (mksess : Bool) (a sa : Ptr) : Option Kernel :=
  (k.pgfind pgid).bind fun
    | none => (k.newPgrp p pgid mksess a sa).moveTo p a
    | some pgrp => if pgrp = k.pPgrp p then some k else k.moveTo p pgrp

/-- Source: leavepgrp -/
def leavepgrp (k : Kernel) (p : Ptr) : Option Kernel :=
  (k.unlinkMem p).bind fun k => k.dropEmpty (k.pPgrp p)

/-! ## System calls -/

/-- Source: setsid -/
def setsid (k : Kernel) (p a sa : Ptr) : Option (Option Errno × Kernel) :=
  if k.pPgid p = k.pPid p then some (some .eperm, k)
  else (k.pgfind (k.pPid p)).bind fun
    | some _ => some (some .eperm, k)
    | none => (k.enterpgrp p (k.pPid p) true a sa).map fun k => (none, k)

/-- The process that `setpgid` is about. Source: setpgid -/
def setpgidTarget (k : Kernel) (curp : Ptr) (pid : ℤ) : Option (Except Errno Ptr) :=
  if pid ≠ 0 ∧ pid ≠ k.pPid curp then
    (k.pfind pid).bind fun
      | none => some (.error .esrch)
      | some targp => (k.inferior curp k.bound targp).map fun inf =>
        if !inf then .error .esrch
        else if k.pSession targp ≠ k.pSession curp then .error .eperm
        else if k.sexec targp then .error .eacces
        else .ok targp
  else some (.ok curp)

/-- `setpgid(pid, pgid)` of the process `curp`. Source: setpgid -/
def setpgid (k : Kernel) (curp : Ptr) (pid pgid : ℤ) (a sa : Ptr) :
    Option (Option Errno × Kernel) :=
  (k.setpgidTarget curp pid).bind fun
    | .error e => some (some e, k)
    | .ok targp =>
      if k.sessLeader targp then some (some .eperm, k)
      else if pgid = 0 ∨ pgid = k.pPid targp then
        (k.enterpgrp targp (k.pPid targp) false a sa).map fun k => (none, k)
      else (k.pgfind pgid).bind fun
        | none => some (some .eperm, k)
        | some pgrp =>
          if k.pgSession pgrp ≠ k.pSession curp then some (some .eperm, k)
          else (k.enterpgrp targp pgid false a sa).map fun k => (none, k)

end Kernel

end Bsd386.Kern.Proc
