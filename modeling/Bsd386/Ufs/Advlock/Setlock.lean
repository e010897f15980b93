import Bsd386.Ufs.Advlock.Basic

/-!
# Setting and clearing locks

`lf_setlock` and `lf_clearlock` of `sys/ufs/ufs_lockf.c`, with the functions they call, as a
transition system. A process runs from one sleep to the next without being interrupted; it sleeps
in the `tsleep` of `lf_setlock` and, when memory is short, in the `MALLOC(…, M_WAITOK)` of
`lf_split`. An action (`Act`) is one such stretch: the call itself, the delivery of a signal to a
sleeping process, the return from `tsleep`, the return from `MALLOC`. The addresses `MALLOC` hands
out, and whether it sleeps, are part of the action.

The loops of `lf_setlock` and `lf_clearlock` go over the inode's list from left to right, replacing
the part they have passed: `setLoop` and `clearLoop` take the rest of the list (`block`, `lf`) and
return what becomes of it. Their bound `n` is more than the length of the list.
-/

namespace Bsd386.Ufs.Advlock

open Function

namespace Kernel

def setLock (k : Kernel) (x : Addr) (l : Lockf) : Kernel :=
  { k with lock := update k.lock x l }

/-- `x->lf_type = t`. -/
def setType (k : Kernel) (x : Addr) (t : LfType) : Kernel :=
  k.setLock x { k.lock x with type := t }

/-- `x->lf_start = s`. -/
def setStart (k : Kernel) (x : Addr) (s : ℤ) : Kernel :=
  k.setLock x { k.lock x with start := s }

/-- `x->lf_end = e`. -/
def setStop (k : Kernel) (x : Addr) (e : ℤ) : Kernel := k.setLock x { k.lock x with stop := e }

/-- `FREE(x, M_LOCKF)`. -/
def free (k : Kernel) (x : Addr) : Kernel := { k with live := k.live.erase x }

/-- A new structure at `a`, with null links. -/
def alloc (k : Kernel) (a : Addr) (l : Lockf) : Kernel :=
  { k with
    lock := update k.lock a l
    live := insert a k.live
    lfBlock := update k.lfBlock a []
    lfNext := update k.lfNext a none }

def setList (k : Kernel) (ip : Ino) (l : List Addr) : Kernel :=
  { k with iLockf := update k.iLockf ip l }

def setProc (k : Kernel) (p : Pid) (s : PState) : Kernel :=
  { k with proc := update k.proc p s }

end Kernel

/-! ## Waiting lists -/

/-- `lf_addblock(lock, blocked)`: append the list headed by `blocked`.
Source: lf_addblock -/
def lfAddblock (k : Kernel) (lock : Addr) (blocked : List Addr) : Kernel :=
  { k with lfBlock := update k.lfBlock lock (k.lfBlock lock ++ blocked) }

/-- `wakeup(w)` for every request `w` of a list. Source: lf_wakelock -/
def wakeup (ws : List Addr) : PState → PState
  | .asleep w => if w ∈ ws then .woken w else .asleep w
  | s => s

/-- `lf_wakelock(listhead)`: every request of the list loses its links and its process is woken.
Source: lf_wakelock -/
def lfWakelock (k : Kernel) (listhead : Addr) : Kernel :=
  let ws := k.lfBlock listhead
  { k with
    lfBlock := fun y => if y = listhead ∨ y ∈ ws then [] else k.lfBlock y
    lfNext := fun w => if w ∈ ws then none else k.lfNext w
    proc := fun p => wakeup ws (k.proc p) }

/-- The part of `lf_split(lock1, lock2)` after `MALLOC` has returned `splitlock`, its list
operations apart.
Source: lf_split -/
def splitThree (k : Kernel) (lock1 lock2 splitlock : Addr) : Kernel :=
  let k' := k.alloc splitlock { k.lock lock1 with start := offSucc (k.lock lock2).stop }
  k'.setStop lock1 (offPred (k.lock lock2).start)

/-- What `MALLOC` does if `lf_split` calls it. Source: lf_split -/
structure Malloc where
  /-- The address it returns. -/
  addr : Addr
  /-- It sleeps for want of memory. -/
  sleeps : Bool
deriving DecidableEq

/-! ## Granting a lock -/

/-- The `for (;;)` loop of `lf_setlock` for the request `a`, on the rest `block` of the list:
the new state, what becomes of `block`, and the lock being split if `MALLOC` sleeps. A `panic`
leaves everything as it is; `ovcase_means` says that there is none.
Source: lf_setlock -/
def setLoop (a : Addr) (m : Malloc) :
    ℕ → Kernel → Bool → List Addr → Kernel × List Addr × Option Addr
  | 0, k, _, block => (k, block, none)
  | n + 1, k, needtolink, block =>
    let lock := k.lock a
    match lfFindoverlap k .self lock block with
    | (.none, skip, rest) =>
      (k, skip ++ (if needtolink then a :: rest else rest), none)
    | (.equal, skip, x :: rest) =>
      -- a downgrade may let others in
      let k₁ := if lock.type = .rdlck ∧ (k.lock x).type = .wrlck then lfWakelock k x else k
      ((k₁.setType x lock.type).free a, skip ++ x :: rest, none)
    | (.contains, skip, x :: rest) =>
      let overlap := k.lock x
      if overlap.type = lock.type then (k.free a, skip ++ x :: rest, none)
      else if overlap.start = lock.start then
        (lfWakelock (k.setStart x (offSucc lock.stop)) x, skip ++ a :: x :: rest, none)
      else if overlap.stop = lock.stop then
        (lfWakelock (k.setStop x (offPred lock.start)) x, skip ++ x :: a :: rest, none)
      else if m.sleeps then (k, skip ++ x :: rest, some x)
      else (lfWakelock (splitThree k x a m.addr) x, skip ++ x :: a :: m.addr :: rest, none)
    | (.within, skip, x :: rest) =>
      -- a downgrade wakes the waiters, otherwise the request takes the list
      let k₁ :=
        if lock.type = .rdlck ∧ (k.lock x).type = .wrlck then lfWakelock k x
        else { k with lfBlock := update k.lfBlock a (k.lfBlock x ++ k.lfBlock a) }
      let r := setLoop a m n (k₁.free x) false rest
      (r.1, skip ++ (if needtolink then a :: r.2.1 else r.2.1), r.2.2)
    | (.startsBefore, skip, x :: rest) =>
      let r := setLoop a m n (lfWakelock (k.setStop x (offPred lock.start)) x) false rest
      (r.1, skip ++ x :: a :: r.2.1, r.2.2)
    | (.endsAfter, skip, x :: rest) =>
      (lfWakelock (k.setStart x (offSucc lock.stop)) x,
        skip ++ (if needtolink then a :: x :: rest else x :: rest), none)
    | (_, _, _) => (k, block, none)

/-! ## Clearing a lock -/

/-- The `while` loop of `lf_clearlock` for `unlock` at `a`, on the rest `lf` of the list.
Source: lf_clearlock -/
def clearLoop (a : Addr) (m : Malloc) :
    ℕ → Kernel → List Addr → Kernel × List Addr × Option Addr
  | 0, k, lf => (k, lf, none)
  | n + 1, k, lf =>
    let unlock := k.lock a
    match lfFindoverlap k .self unlock lf with
    | (.equal, skip, x :: rest) => ((lfWakelock k x).free x, skip ++ rest, none)
    | (.contains, skip, x :: rest) =>
      let overlap := k.lock x
      let k₁ := lfWakelock k x
      if overlap.start = unlock.start then
        (k₁.setStart x (offSucc unlock.stop), skip ++ x :: rest, none)
      else if overlap.stop = unlock.stop then
        (k₁.setStop x (offPred unlock.start), skip ++ x :: rest, none)
      else if m.sleeps then (k₁, skip ++ x :: rest, some x)
      else (splitThree k₁ x a m.addr, skip ++ x :: m.addr :: rest, none)
    | (.within, skip, x :: rest) =>
      let r := clearLoop a m n ((lfWakelock k x).free x) rest
      (r.1, skip ++ r.2.1, r.2.2)
    | (.startsBefore, skip, x :: rest) =>
      let r := clearLoop a m n ((lfWakelock k x).setStop x (offPred unlock.start)) rest
      (r.1, skip ++ x :: r.2.1, r.2.2)
    | (.endsAfter, skip, x :: rest) =>
      ((lfWakelock k x).setStart x (offSucc unlock.stop), skip ++ x :: rest, none)
    | (_, _, _) => (k, lf, none)

/-- The result of the loop of `lf_clearlock` on the inode's list.
Source: lf_clearlock -/
def clearAll (k : Kernel) (a : Addr) (m : Malloc) : Kernel × Option Addr :=
  let ip := (k.lock a).inode
  let r := clearLoop a m ((k.iLockf ip).length + 1) k (k.iLockf ip)
  (r.1.setList ip r.2.1, r.2.2)

/-! ## The calls -/

/-- Error numbers returned by the lock code. -/
inductive Errno where
  | ok
  | eagain
  | edeadlk
  | eintr
deriving DecidableEq

/-- How a stretch of code ends: a return from the call, or a sleep. -/
inductive Result where
  | ret (e : Errno)
  | sleep
deriving DecidableEq

/-- `lf_clearlock(unlock)` for the structure at `a`, which the caller frees after it.
Source: lf_clearlock -/
def lfClearlock (k : Kernel) (p : Pid) (a : Addr) (m : Malloc) : Kernel × Result :=
  match clearAll k a m with
  | (k', none) => ((k'.free a).setProc p .running, .ret .ok)
  | (k', some x) => (k'.setProc p (.mallocClear a x), .sleep)

/-- The deadlock detector: follow the wait channels from `wproc`, at most `n` of them. (A sleeping
process has a non-null `lf_next`, and the owner of a POSIX lock is a process.)
Source: lf_setlock -/
def lfDeadlock (k : Kernel) (lock : Lockf) : ℕ → Id → Bool
  | n + 1, .proc wproc =>
    match k.proc wproc with
    | .asleep w =>
      match k.lfNext w with
      | none => false
      | some waitblock =>
        if !(k.lock waitblock).posix then false
        else if (k.lock waitblock).id = lock.id then true
        else lfDeadlock k lock n (k.lock waitblock).id
    | _ => false
  | _, _ => false

/-- For an exclusive `flock` request the shared locks held are cleared before sleeping. Such a
request covers the whole file, so no lock is split here and `MALLOC` is not called.
Source: lf_setlock -/
def flockRelease (k : Kernel) (a : Addr) (m : Malloc) : Kernel :=
  let lock := k.lock a
  if lock.flock ∧ lock.type = .wrlck then
    ((clearAll (k.setType a .unlck) a { m with sleeps := false }).1).setType a .wrlck
  else k

/-- `lf_setlock(lock)` for the request at `a` by the process `p`, from the test of its `while` loop
to the next sleep or to the return.
Source: lf_setlock -/
def lfSetlock (maxlockdepth : ℕ) (k : Kernel) (p : Pid) (a : Addr) (m : Malloc) :
    Kernel × Result :=
  let lock := k.lock a
  match lfGetblock k lock with
  | some block =>
    if !lock.wait then ((k.free a).setProc p .running, .ret .eagain)
    else if lock.posix && (k.lock block).posix &&
        lfDeadlock k lock maxlockdepth (k.lock block).id then
      ((k.free a).setProc p .running, .ret .edeadlk)
    else
      let k₁ := flockRelease k a m
      let k₂ := { k₁ with lfNext := update k₁.lfNext a (some block) }
      ((lfAddblock k₂ block (a :: k₂.lfBlock a)).setProc p (.asleep a), .sleep)
  | none =>
    let r := setLoop a m ((k.iLockf lock.inode).length + 1) k true (k.iLockf lock.inode)
    match r.2.2 with
    | none => ((r.1.setList lock.inode r.2.1).setProc p .running, .ret .ok)
    | some x => ((r.1.setList lock.inode r.2.1).setProc p (.mallocSet a x), .sleep)

/-- The return of an error from `tsleep`: leave the waiting list if still on it.
Source: lf_setlock -/
def lfInterrupted (k : Kernel) (p : Pid) (a : Addr) : Kernel × Result :=
  let k₁ :=
    match k.lfNext a with
    | some block =>
      { k with lfBlock := update k.lfBlock block ((k.lfBlock block).erase a) }
    | none => k
  ((k₁.free a).setProc p .running, .ret .eintr)

def insertAfter (x : Addr) (new : List Addr) : List Addr → List Addr
  | [] => []
  | y :: ys => if y = x then y :: (new ++ ys) else y :: insertAfter x new ys

/-- The stretches of code of one process. -/
inductive Act where
  /-- `lf_setlock` of the request `r` in a new structure `a`. -/
  | setlock (p : Pid) (a : Addr) (r : Lockf) (m : Malloc)
  /-- `lf_clearlock` of the range `r` in a new structure `a`. -/
  | clearlock (p : Pid) (a : Addr) (r : Lockf) (m : Malloc)
  /-- A signal for a process asleep in `lf_setlock`. -/
  | signal (p : Pid)
  /-- The return from `tsleep`; a process that was woken may still find a signal (`intr`). -/
  | resume (p : Pid) (intr : Bool) (m : Malloc)
  /-- The return from a `MALLOC` that slept, with the new structure `b`. -/
  | mallocDone (p : Pid) (b : Addr)

/-- One action; `none` when it cannot happen in the state. -/
def step (maxlockdepth : ℕ) (k : Kernel) : Act → Option (Kernel × Result)
  | .setlock p a r m =>
    if k.proc p = .running ∧ a ∉ k.live ∧ m.addr ∉ insert a k.live then
      some (lfSetlock maxlockdepth (k.alloc a r) p a m)
    else none
  | .clearlock p a r m =>
    if k.proc p = .running ∧ a ∉ k.live ∧ m.addr ∉ insert a k.live then
      some (lfClearlock (k.alloc a r) p a m)
    else none
  | .signal p =>
    match k.proc p with
    | .asleep a => some (k.setProc p (.signalled a), .sleep)
    | _ => none
  | .resume p intr m =>
    match k.proc p with
    | .woken a =>
      if m.addr ∉ k.live then
        if intr then some (lfInterrupted k p a)
        else some (lfSetlock maxlockdepth (k.setProc p .running) p a m)
      else none
    | .signalled a => some (lfInterrupted k p a)
    | _ => none
  | .mallocDone p b =>
    if b ∉ k.live then
      match k.proc p with
      | .mallocSet a x =>
        let k₁ := lfWakelock (splitThree k x a b) x
        let k₂ := { k₁ with iLockf := fun ip => insertAfter x [a, b] (k₁.iLockf ip) }
        some (k₂.setProc p .running, .ret .ok)
      | .mallocClear a x =>
        let k₁ := splitThree k x a b
        let k₂ := { k₁ with iLockf := fun ip => insertAfter x [b] (k₁.iLockf ip) }
        some ((k₂.free a).setProc p .running, .ret .ok)
      | _ => none
    else none

/-- No locks, and no process inside the lock code. -/
def Kernel.Initial (k : Kernel) : Prop := (∀ ip, k.iLockf ip = []) ∧ ∀ p, k.proc p = .running

end Bsd386.Ufs.Advlock
