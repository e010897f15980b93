import Bsd386.Lib.Bytes
import Mathlib.Data.Finset.Erase
import Mathlib.Data.Finset.Insert
import Mathlib.Algebra.Ring.Int.Defs

/-!
# Descriptor tables

The descriptors of `sys/sys/filedesc.h`, with `fdalloc`, `falloc`, `dup`, `dup2`, `F_DUPFD` of `fcntl`,
`close`, `fdcopy` and `fdfree` of `sys/kern/kern_descrip.c`, and `pipe` and `socketpair` of
`sys/kern/uipc_syscalls.c` as far as they touch tables.

A table is the list of its slots, so that `fd_nfiles` is a length. `fd_lastfile` and `fd_freefile` are
`u_short`, `f_count` is a `short`; what is stored in them is cut off. Descriptors that a system call
gets are read as unsigned numbers, as the code does; a limit is a `long`. A call returns `none` where
the code would `panic`.

What is left out: `fd_refcnt`, which is always 1; the list that links the files; the flag
`UF_MAPPED`, and what becomes of the object behind a file.
-/

namespace Bsd386.Kern.Descrip

open Function Lib.Bytes

/-- Address of a `struct file`. Source: file.h (file) -/
abbrev Ptr := ℕ

/-- A process. Source: proc.h (proc) -/
abbrev Pid := ℕ

/-- Error numbers; `other` is one of the socket layer. -/
inductive Errno where
  | ebadf
  | einval
  | emfile
  | enfile
  | other
deriving DecidableEq

/-- `NDFILE`. Source: filedesc.h (NDFILE) -/
def ndfile : ℕ := 20

/-- `NDEXTENT`. Source: filedesc.h (NDEXTENT) -/
def ndextent : ℕ := 50

/-- `UF_EXCLOSE`. Source: filedesc.h (UF_EXCLOSE) -/
def ufExclose : Byte := 0x01

/-- A number stored in a `u_short`. Source: filedesc.h (filedesc) -/
def ushort (n : ℕ) : ℕ := n % 65536

/-- A `long` read as unsigned. Source: inline.h (min) -/
def ulong (n : ℤ) : ℕ := (n % 2 ^ 32).toNat

/-! ## One table -/

/-- The descriptors of a process. Source: filedesc.h (filedesc) -/
structure Filedesc where
  ofiles : List (Option Ptr)
  ofileflags : List Byte
  lastfile : ℕ
  freefile : ℕ

namespace Filedesc

/-- `fd_nfiles`. Source: filedesc.h (filedesc) -/
def nfiles (fdp : Filedesc) : ℕ := fdp.ofiles.length

/-- `fd_ofiles[fd]`; a descriptor beyond the table is not open.
Source: close -/
def file (fdp : Filedesc) (fd : ℕ) : Option Ptr := fdp.ofiles[fd]?.join

/-- `fd_ofileflags[fd]`. Source: dup -/
def flags (fdp : Filedesc) (fd : ℕ) : Byte := fdp.ofileflags.getD fd 0

/-- The loop of `fdalloc` over the slots. Source: fdalloc -/
def search (fdp : Filedesc) (want lim : ℤ) : Option ℕ :=
  let last := min fdp.nfiles (ulong lim)
  let i := if want < fdp.freefile then fdp.freefile else want.toNat
  (List.range' i (last - i)).find? fun i => fdp.file i = none

/-- `fdalloc` when it has found the slot `i`. Source: fdalloc -/
def found (fdp : Filedesc) (want : ℤ) (i : ℕ) : Filedesc :=
  { fdp with
    ofileflags := fdp.ofileflags.set i 0
    lastfile := if i > fdp.lastfile then ushort i else fdp.lastfile
    freefile := if want ≤ fdp.freefile then ushort i else fdp.freefile }

/-- The larger arrays of `fdalloc`. Source: fdalloc -/
def expand (fdp : Filedesc) : Filedesc :=
  let nfiles := if fdp.nfiles < ndextent then ndextent else 2 * fdp.nfiles
  { fdp with
    ofiles := fdp.ofiles ++ List.replicate (nfiles - fdp.nfiles) none
    ofileflags := fdp.ofileflags ++ List.replicate (nfiles - fdp.nfiles) 0 }

/-- The outer loop of `fdalloc`, for at most `n` rounds: the result, `none` for `EMFILE`, and the table.
Source: fdalloc -/
def fdallocLoop (want lim : ℤ) : ℕ → Filedesc → Option ℕ × Filedesc
  | 0, fdp => (none, fdp)
  | n + 1, fdp =>
    match fdp.search want lim with
    | some i => (some i, fdp.found want i)
    | none => if (fdp.nfiles : ℤ) ≥ lim then (none, fdp) else fdallocLoop want lim n fdp.expand

/-- `fdalloc(p, want, &i)` under the limit `lim`. Every round makes the table longer.
Source: fdalloc -/
def fdalloc (fdp : Filedesc) (want lim : ℤ) : Option ℕ × Filedesc :=
  fdallocLoop want lim (lim.toNat + 1) fdp

/-- A file in the slot `i`, as `dup`, `dup2` and `fcntl` put it there.
Source: dup, dup2, fcntl -/
def store (fdp : Filedesc) (i : ℕ) (fp : Ptr) (flag : Byte) : Filedesc :=
  { fdp with
    ofiles := fdp.ofiles.set i (some fp)
    ofileflags := fdp.ofileflags.set i flag
    lastfile := if i > fdp.lastfile then ushort i else fdp.lastfile }

/-- `fd_ofiles[i] = fp`. Source: falloc -/
def assign (fdp : Filedesc) (i : ℕ) (fp : Option Ptr) : Filedesc :=
  { fdp with ofiles := fdp.ofiles.set i fp }

/-- `while (fd_lastfile > 0 && fd_ofiles[fd_lastfile] == NULL) fd_lastfile--;`
Source: close -/
def lower (fdp : Filedesc) : ℕ → ℕ
  | 0 => 0
  | n + 1 => if fdp.file (n + 1) = none then fdp.lower n else n + 1

/-- What `close` does to the table. Source: close -/
def release (fdp : Filedesc) (fd : ℕ) : Filedesc :=
  let fdp' := fdp.assign fd none
  { fdp' with
    ofileflags := fdp.ofileflags.set fd 0
    lastfile := fdp'.lower fdp.lastfile
    freefile := if fd < fdp.freefile then ushort fd else fdp.freefile }

/-- `while (i > 2 * NDEXTENT && i > fd_lastfile * 2) i /= 2;`
Source: fdcopy -/
def shrink (lastfile : ℕ) : ℕ → ℕ → ℕ
  | 0, i => i
  | n + 1, i => if i > 2 * ndextent ∧ i > lastfile * 2 then shrink lastfile n (i / 2) else i

/-- The size of the table that `fdcopy` makes. Source: fdcopy -/
def copySize (fdp : Filedesc) : ℕ :=
  if fdp.lastfile < ndfile then ndfile else shrink fdp.lastfile fdp.nfiles fdp.nfiles

/-- The table that `fdcopy` makes. Source: fdcopy -/
def copy (fdp : Filedesc) : Filedesc :=
  { fdp with
    ofiles := fdp.ofiles.take fdp.copySize
    ofileflags := fdp.ofileflags.take fdp.copySize }

end Filedesc

/-! ## All tables and files -/

/-- The processes with their descriptors, and the file table. -/
structure Kernel where
  procs : Finset Pid
  fd : Pid → Filedesc
  files : Finset Ptr
  fCount : Ptr → BitVec 16
  nfiles : ℕ
  maxfiles : ℕ

/-- What a call gives back: an error, or descriptors. -/
abbrev Result := Except Errno (List ℕ)

namespace Kernel

/-- With another table of `p`. -/
def setFd (k : Kernel) (p : Pid) (fdp : Filedesc) : Kernel :=
  { k with fd := update k.fd p fdp }

@[simp] theorem setFd_fd_self (k : Kernel) (p : Pid) (fdp : Filedesc) : (k.setFd p fdp).fd p = fdp :=
  update_self ..

theorem setFd_fd_of_ne (k : Kernel) (fdp : Filedesc) {p q : Pid} (h : q ≠ p) :
    (k.setFd p fdp).fd q = k.fd q :=
  update_of_ne h ..

/-- `fp->f_count++`. Source: dup -/
def incr (k : Kernel) (fp : Ptr) : Kernel :=
  { k with fCount := update k.fCount fp (k.fCount fp + 1) }

/-- Source: ffree -/
def ffree (k : Kernel) (fp : Ptr) : Kernel :=
  { k with nfiles := k.nfiles - 1, files := k.files.erase fp }

/-- Source: closef -/
def closef (k : Kernel) (fp : Ptr) : Option Kernel :=
  let count := k.fCount fp - 1
  let k := { k with fCount := update k.fCount fp count }
  if count.toInt > 0 then some k
  else if count.toInt < 0 then none
  else some (k.ffree fp)

/-- `falloc(p, &fp, &fd)`, where `MALLOC` would return `fp`: the descriptor or an error.
Source: falloc -/
def falloc (k : Kernel) (p : Pid) (lim : ℤ) (fp : Ptr) : Except Errno ℕ × Kernel :=
  match (k.fd p).fdalloc 0 lim with
  | (none, fdp) => (.error .emfile, k.setFd p fdp)
  | (some i, fdp) =>
    if k.nfiles ≥ k.maxfiles then (.error .enfile, k.setFd p fdp)
    else (.ok i, { k.setFd p (fdp.assign i (some fp)) with
      nfiles := k.nfiles + 1
      files := insert fp k.files
      fCount := update k.fCount fp 1 })

/-- `fdalloc` and the new reference of `dup` and `fcntl`, with the flags `flag` of the old descriptor.
Source: dup, fcntl -/
def dupAt (k : Kernel) (p : Pid) (fp : Ptr) (want lim : ℤ) (flag : Filedesc → Byte) : Result × Kernel :=
  match (k.fd p).fdalloc want lim with
  | (none, fdp) => (.error .emfile, k.setFd p fdp)
  | (some i, fdp) => (.ok [i], (k.setFd p (fdp.store i fp (flag fdp &&& ~~~ufExclose))).incr fp)

/-- Source: dup2 -/
def dup2 (k : Kernel) (p : Pid) (old new : ℕ) (lim : ℤ) : Option (Result × Kernel) :=
  match (k.fd p).file old with
  | none => some (.error .ebadf, k)
  | some fp =>
    if new ≥ ulong lim then some (.error .ebadf, k)
    else if old = new then some (.ok [new], k)
    else if new ≥ (k.fd p).nfiles then
      match (k.fd p).fdalloc new lim with
      | (none, fdp) => some (.error .emfile, k.setFd p fdp)
      | (some i, fdp) =>
        if new ≠ i then none
        else some (.ok [new],
          (k.setFd p (fdp.store new fp (fdp.flags old &&& ~~~ufExclose))).incr fp)
    else
      (((k.fd p).file new).elim (some k) k.closef).map fun k =>
        (.ok [new], (k.setFd p
          ((k.fd p).store new fp ((k.fd p).flags old &&& ~~~ufExclose))).incr fp)

/-- `dup(p, uap, retval)`; `new` is what stands behind the argument, for the old way to call `dup2`.
Source: dup -/
def dup (k : Kernel) (p : Pid) (i new : ℕ) (lim : ℤ) : Option (Result × Kernel) :=
  if i ≥ 64 then k.dup2 p (i % 64) new lim
  else
    match (k.fd p).file i with
    | none => some (.error .ebadf, k)
    | some fp => some (k.dupAt p fp 0 lim (·.flags i))

/-- `fcntl(fd, F_DUPFD, arg)`. The flags are read through a pointer from before `fdalloc`: when this has
freed the array, what is there is `junk`. Source: fcntl -/
def dupfd (k : Kernel) (p : Pid) (fd arg : ℕ) (lim : ℤ) (junk : Byte) : Option (Result × Kernel) :=
  match (k.fd p).file fd with
  | none => some (.error .ebadf, k)
  | some fp =>
    if arg ≥ ulong lim then some (.error .einval, k)
    else some (k.dupAt p fp arg lim fun fdp =>
      if fdp.nfiles ≠ (k.fd p).nfiles ∧ (k.fd p).nfiles > ndfile then junk else fdp.flags fd)

/-- Source: close -/
def close (k : Kernel) (p : Pid) (fd : ℕ) : Option (Result × Kernel) :=
  match (k.fd p).file fd with
  | none => some (.error .ebadf, k)
  | some fp => ((k.setFd p ((k.fd p).release fd)).closef fp).map fun k => (.ok [], k)

/-- `pipe` and `socketpair`: the first or second `socreate` fails, or not; then two descriptors for the
files `rf` and `wf`; then the sockets are connected, or this fails.
Source: pipe, socketpair -/
def pair (k : Kernel) (p : Pid) (lim : ℤ) (rf wf : Ptr) (created connected : Bool) : Result × Kernel :=
  if !created then (.error .other, k)
  else
    match k.falloc p lim rf with
    | (.error e, k) => (.error e, k)
    | (.ok r, k) =>
      match k.falloc p lim wf with
      | (.error e, k) =>
        (.error e, (k.ffree rf).setFd p ((k.fd p).assign r none))
      | (.ok w, k) =>
        if connected then (.ok [r, w], k)
        else (.error .other,
          ((k.ffree wf).ffree rf).setFd p (((k.fd p).assign w none).assign r none))

/-- Source: pipe -/
def pipe (k : Kernel) (p : Pid) (lim : ℤ) (rf wf : Ptr) (rso wso connected : Bool) : Result × Kernel :=
  k.pair p lim rf wf (rso && wso) connected

/-- `socketpair(p, uap, retval)`; `again` is the second connection, of datagram sockets. When the
descriptors cannot be copied out they stay open.
Source: socketpair -/
def socketpair (k : Kernel) (p : Pid) (lim : ℤ) (fp₁ fp₂ : Ptr)
    (so₁ so₂ connected dgram again copied : Bool) : Result × Kernel :=
  let r := k.pair p lim fp₁ fp₂ (so₁ && so₂) (connected && (!dgram || again))
  (if copied then r.1 else .error .other, r.2)

/-- `f_count++` for each slot. Source: fdcopy -/
def incrAll (k : Kernel) (l : List (Option Ptr)) : Kernel :=
  l.foldl (fun k fp => fp.elim k k.incr) k

/-- `p2->p_fd = fdcopy(p1)`. Source: fdcopy -/
def fdcopy (k : Kernel) (p₁ p₂ : Pid) : Kernel :=
  let newfdp := (k.fd p₁).copy
  ({ k.setFd p₂ newfdp with procs := insert p₂ k.procs }).incrAll
    (newfdp.ofiles.take (newfdp.lastfile + 1))

/-- `closef` for each slot. Source: fdfree -/
def closeAll (k : Kernel) (l : List (Option Ptr)) : Option Kernel :=
  l.foldlM (fun k fp => fp.elim (some k) k.closef) k

/-- Source: fdfree -/
def fdfree (k : Kernel) (p : Pid) : Option Kernel :=
  (k.closeAll ((k.fd p).ofiles.take ((k.fd p).lastfile + 1))).map fun k =>
    { k with procs := k.procs.erase p }

end Kernel

end Bsd386.Kern.Descrip
