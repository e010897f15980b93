import Bsd386.Kern.Sockbuf.Basic
import Mathlib.Logic.Relation

/-!
# Descriptors in flight and their collector

Rights sent over a Unix domain socket lie as `struct file` pointers in control messages of the
receiver's buffer until they are received. `f_msgcount` counts such references to a file and
`unp_rights` counts them all; a file whose only references are in flight, and out of reach, is
found by `unp_gc`.

The open-file table is the list `filehead` with the entries as a function of their address. Of an
entry we keep its two counts, its two flags and, for a socket, what `unp_gc` looks at. `closef` is
taken to decrement `f_count`, to panic when it was 0, and to close the file when it becomes 0:
for a socket of the Unix domain this runs `soclose`, `unp_detach`, `sorflush` and `unp_dispose`,
which discards the references in its receive buffer; `unp_gc` in `unp_detach` returns at once,
since `unp_gcing` is set. An entry that has been closed stays in the list with `f_count` 0.

Source: `sys/kern/uipc_usrreq.c`.
-/

namespace Bsd386.Kern.Unp

open Kern.Sockbuf

/-! ## Rights in a receive buffer -/

/-- The address of a `struct file`. -/
abbrev FilePtr := BitVec 32

/-- The 32 bit word at offset `k`, lowest byte first. -/
def word (bs : List UInt8) (k : ℕ) : BitVec 32 :=
  (bs.getD (k + 3) 0).toBitVec ++ (bs.getD (k + 2) 0).toBitVec ++ (bs.getD (k + 1) 0).toBitVec ++
    (bs.getD k 0).toBitVec

/-- Whether an mbuf is a control message that carries rights: `cmsg_level` is `SOL_SOCKET` and
`cmsg_type` is `SCM_RIGHTS`.
Source: unp_scan -/
def isRights (m : Mbuf) : Bool :=
  m.type = .control ∧ 12 ≤ m.len ∧ word m.bytes 4 = 0xffff ∧ word m.bytes 8 = 1

/-- The file pointers of a control message: `cmsg_len` less the header counts them.
Source: unp_scan -/
def messageRights (m : Mbuf) : List FilePtr :=
  (List.range ((word m.bytes 0 - 12).toNat / 4)).map fun i => word m.bytes (12 + 4 * i)

/-- The pointers that `unp_scan` passes to its argument, in order: of each record, those of the
first message with rights.
Source: unp_scan -/
def unpScan (rcv : List (List Mbuf)) : List FilePtr :=
  rcv.flatMap fun r => ((r.find? isRights).map messageRights).getD []

/-- What the collector looks at of a socket: whether it is of the Unix domain, whether its protocol
passes rights, and its receive buffer. `sbappendaddr` and `sbappendcontrol` start a record for
each control message, so a record has at most one with rights.
Source: socketvar.h struct socket, protosw.h PR_RIGHTS -/
structure Socket where
  unixDomain : Bool
  prRights : Bool
  rcv : List (List Mbuf)
  one_rights : ∀ r ∈ rcv, (r.filter isRights).length ≤ 1

/-! ## The open-file table -/

/-- An entry of the open-file table. `sock` is the socket when `f_type` is `DTYPE_SOCKET` and
`f_data` is not null; `mark` and `defer` are the flags `FMARK` and `FDEFER`.
Source: file.h struct file -/
structure File where
  count : ℤ
  msgcount : ℤ
  mark : Bool
  defer : Bool
  sock : Option Socket

/-- The rights that the collector follows from a file, and that closing the file discards.
Source: unp_gc, sorflush -/
def File.refs (f : File) : List FilePtr :=
  match f.sock with
  | none => []
  | some so => if so.unixDomain && so.prRights then unpScan so.rcv else []

/-- The table: the list `filehead`, the entries, and the counters `unp_rights` and `unp_defer`.
Source: uipc_usrreq.c, filehead -/
structure Table where
  order : List FilePtr
  file : FilePtr → File
  rights : ℤ
  deferred : ℤ

def Table.set (s : Table) (p : FilePtr) (f : File) : Table :=
  { s with file := Function.update s.file p f }

@[simp] theorem Table.set_file_self (s : Table) (p : FilePtr) (f : File) :
    (s.set p f).file p = f := Function.update_self ..

theorem Table.set_file_of_ne (s : Table) {p q : FilePtr} (h : q ≠ p) (f : File) :
    (s.set p f).file q = s.file q := Function.update_of_ne h ..

/-! ## Marking -/

/-- Mark a file that is referenced, and have it looked at.
Source: unp_mark -/
def unpMark (s : Table) (p : FilePtr) : Table :=
  if (s.file p).mark then s
  else { s.set p { s.file p with mark := true, defer := true } with deferred := s.deferred + 1 }

/-- Mark what a file references. Source: unp_gc -/
def scan (s : Table) (p : FilePtr) : Table := (s.file p).refs.foldl unpMark s

/-- The body of the marking loop for one file. Source: unp_gc -/
def markOne (s : Table) (p : FilePtr) : Table :=
  let f := s.file p
  if f.count = 0 then s
  else if f.defer then
    scan { s.set p { f with defer := false } with deferred := s.deferred - 1 } p
  else if f.mark then s
  else if f.count = f.msgcount then s
  else scan (s.set p { f with mark := true }) p

/-- One pass over the table. Source: unp_gc -/
def markPass (s : Table) : Table := s.order.foldl markOne s

/-- The marking loop, for at most `fuel` passes. Source: unp_gc -/
def markLoop : ℕ → Table → Option Table
  | 0, _ => none
  | fuel + 1, s => if (markPass s).deferred = 0 then some (markPass s)
      else markLoop fuel (markPass s)

/-- Before marking all flags are clear. Source: unp_gc -/
def clearFlags (s : Table) : Table :=
  { s with
    file := fun p =>
      if p ∈ s.order then { s.file p with mark := false, defer := false } else s.file p
    deferred := 0 }

/-! ## Sweeping -/

/-- The kernel stops: `closef` of a file whose `f_count` is 0.
Source: closef -/
inductive ClosefPanic where
  | closef
deriving DecidableEq

/-- The result of a call: `none` when the fuel did not suffice. -/
abbrev Result := Option (Except ClosefPanic Table)

/-- Call `f` on the pointers of a list, one after the other. -/
def forEach (f : Table → FilePtr → Result) : List FilePtr → Table → Result
  | [], s => some (.ok s)
  | p :: ps, s =>
    match f s p with
    | some (.ok s') => forEach f ps s'
    | r => r

/-- Drop one reference in flight: `f_msgcount--`, `unp_rights--`, `closef`. The fuel bounds the
depth of nested closes.
Source: unp_discard, closef -/
def unpDiscard : ℕ → Table → FilePtr → Result
  | 0, _, _ => none
  | fuel + 1, s, p =>
    let f := { s.file p with msgcount := (s.file p).msgcount - 1, count := (s.file p).count - 1 }
    let s' := { s.set p f with rights := s.rights - 1 }
    if 0 < f.count then some (.ok s')
    else if f.count < 0 then some (.error .closef)
    else
      -- soo_close, soclose, unp_detach, sorflush: the buffer is emptied, then unp_dispose
      forEach (unpDiscard fuel) f.refs (s'.set p { f with sock := none })

/-- `while (fp->f_msgcount) unp_discard(fp)`, for at most `n` rounds.
Source: unp_gc -/
def discardAll (fuel : ℕ) : ℕ → Table → FilePtr → Result
  | 0, _, _ => none
  | n + 1, s, p =>
    if (s.file p).msgcount = 0 then some (.ok s)
    else
      match unpDiscard fuel s p with
      | some (.ok s') => discardAll fuel n s' p
      | r => r

/-- The body of the sweeping loop for one file. Source: unp_gc -/
def sweepOne (fuel : ℕ) (s : Table) (p : FilePtr) : Result :=
  if (s.file p).count = 0 then some (.ok s)
  else if (s.file p).count = (s.file p).msgcount ∧ (s.file p).mark = false then
    discardAll fuel fuel s p
  else some (.ok s)

/-- The sweeping loop. Source: unp_gc -/
def sweep (fuel : ℕ) (s : Table) : Result := forEach (sweepOne fuel) s.order s

/-- The garbage collector, with `unp_gcing` clear. Source: unp_gc -/
def unpGc (fuel : ℕ) (s : Table) : Result :=
  match markLoop fuel (clearFlags s) with
  | none => none
  | some s' => sweep fuel s'

/-! ## States and reachability -/

/-- All references held in receive buffers of the table's sockets. -/
def Table.allRefs (s : Table) : List FilePtr := s.order.flatMap fun p => (s.file p).refs

/-- A consistent table: a reference is to an entry, `f_msgcount` is the number of references in
receive buffers, `f_count` is at least as large, and `unp_rights` is the number of all
references. An entry with `f_count` 0 is being closed, and `unp_detach` has flushed its buffer.
Source: file.h struct file, unp_detach -/
structure Consistent (s : Table) : Prop where
  nodup : s.order.Nodup
  refs_mem : ∀ p ∈ s.order, ∀ q ∈ (s.file p).refs, q ∈ s.order
  msgcount_eq : ∀ p ∈ s.order, (s.file p).msgcount = (s.allRefs.count p : ℤ)
  msgcount_le : ∀ p ∈ s.order, (s.file p).msgcount ≤ (s.file p).count
  closed : ∀ p ∈ s.order, (s.file p).count = 0 → (s.file p).refs = []
  rights_eq : s.rights = (s.allRefs.length : ℤ)

/-- A file that someone holds other than by a reference in flight. -/
def Root (s : Table) (p : FilePtr) : Prop :=
  p ∈ s.order ∧ (s.file p).msgcount < (s.file p).count

/-- Reachable from a root by following rights in receive buffers. -/
def Live (s : Table) (q : FilePtr) : Prop :=
  ∃ p, Root s p ∧ Relation.ReflTransGen (fun a b => b ∈ (s.file a).refs) p q

/-- An open file whose references are all in flight, and that is out of reach. -/
def Garbage (s : Table) (p : FilePtr) : Prop :=
  p ∈ s.order ∧ (s.file p).count = (s.file p).msgcount ∧ (s.file p).count ≠ 0 ∧ ¬ Live s p

end Bsd386.Kern.Unp
