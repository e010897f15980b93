import Mathlib.Data.Int.Notation
import Mathlib.Data.List.Basic
import Mathlib.Algebra.Ring.Nat

/-!
# Mbufs and socket buffers

`struct mbuf` and the routines of `uipc_socket2.c` that put data into a `struct sockbuf` and
take it out. A record of the buffer is the list of mbufs that `m_next` links, and the buffer is
the list of records that `m_nextpkt` links from `sb_mb`; a null `sb_mb` is the empty list. The
two counters of the buffer are the machine's 32 bit `u_long`s.

An mbuf has an address: the kernel's mbufs are `MSIZE` pieces of the kernel's part of the
address space, so that there are at most `nmbuf` of them. Its data lies in its own storage or
in a cluster, which `Mbuf.room` states.

Source: `sys/kern/uipc_socket2.c`, `sys/sys/mbuf.h`.
-/

namespace Bsd386.Kern.Sockbuf

/-! ## Mbufs -/

/-- Size of an mbuf. Source: i386/include/param.h MSIZE -/
def msize : ℕ := 128

/-- Size of an mbuf cluster. Source: i386/include/param.h MCLBYTES -/
def mclbytes : ℕ := 1024

/-- Room for data in an mbuf without cluster: `MSIZE` less the 20 bytes of `struct m_hdr`.
Source: mbuf.h MLEN -/
def mlen : ℕ := msize - 20

/-- Places for an mbuf in the kernel's address space: `NKPTD` page directory entries of 4 MB, cut
into pieces of `MSIZE`.
Source: vmlayout.h NKPTD, KERNBASE -/
def nmbuf : ℕ := (0x3fe - 0x3c0) * 2 ^ 22 / msize

theorem nmbuf_pos : 0 < nmbuf := by decide

theorem one_lt_nmbuf : 1 < nmbuf := by decide

theorem mlen_le_mclbytes : (none : Option ℕ).getD mlen ≤ mclbytes := by decide

/-- Types of mbufs. Source: mbuf.h MT_FREE .. MT_OOBDATA -/
inductive MType where
  | free | data | header | socket | pcb | rtable | htable | atable | soname | soopts | ftable
  | rights | ifaddr | control | oobdata
deriving DecidableEq

/-- A `struct mbuf` without its two links. `off` is `m_data` counted from the start of the storage
the data lies in, `bytes` are the `m_len` bytes there, `ext` is `ext_size` when `M_EXT` is set,
`pkthdr` is `m_pkthdr.len` when `M_PKTHDR` is set, and `eor` is the flag `M_EOR`.
Source: mbuf.h struct mbuf -/
structure Mbuf where
  addr : Fin nmbuf
  type : MType
  off : ℕ
  bytes : List UInt8
  ext : Option ℕ
  pkthdr : Option (BitVec 32)
  eor : Bool
  room : off + bytes.length ≤ ext.getD mlen
  ext_le : ext.getD mlen ≤ mclbytes
deriving DecidableEq

namespace Mbuf

/-- `m_len`. Source: mbuf.h struct m_hdr -/
def len (m : Mbuf) : ℕ := m.bytes.length

/-- What an mbuf counts for in `sb_mbcnt`. Source: socketvar.h sballoc -/
def storage (m : Mbuf) : ℕ := msize + m.ext.getD 0

/-- `bcopy` of `bs` behind the data of `m`, which has no cluster and enough room left.
Source: sbcompress -/
def extend (m : Mbuf) (bs : List UInt8) (hext : m.ext = none)
    (hroom : m.off + m.len + bs.length < mlen) : Mbuf :=
  { m with
    bytes := m.bytes ++ bs
    room := by
      rw [hext, List.length_append, Option.getD_none]
      exact Nat.le_of_lt (by rw [← Nat.add_assoc]; exact hroom) }

/-- `m_len -= k; m_data += k`. Source: sbdrop -/
def trim (m : Mbuf) (k : ℕ) (hk : k ≤ m.len) : Mbuf :=
  { m with
    off := m.off + k
    bytes := m.bytes.drop k
    room := by
      have hroom := m.room
      have hk' : k ≤ m.bytes.length := hk
      rw [List.length_drop]
      omega }

end Mbuf

def chainBytes (m : List Mbuf) : List UInt8 := m.flatMap Mbuf.bytes

/-- The total `m_len` of a chain. -/
def chainLen (m : List Mbuf) : ℕ := (m.map Mbuf.len).sum

def chainStorage (m : List Mbuf) : ℕ := (m.map Mbuf.storage).sum

/-! ## The socket buffer -/

/-- The two counts of a socket buffer. Source: socketvar.h struct sockbuf -/
structure Counts where
  cc : BitVec 32
  mbcnt : BitVec 32
deriving DecidableEq

/-- Adjust counters reflecting allocation of `m`.
Source: socketvar.h sballoc -/
def Counts.alloc (c : Counts) (m : Mbuf) : Counts where
  cc := c.cc + BitVec.ofNat 32 m.len
  mbcnt := c.mbcnt + BitVec.ofNat 32 m.storage

/-- Adjust counters reflecting freeing of `m`. Source: socketvar.h sbfree -/
def Counts.free (c : Counts) (m : Mbuf) : Counts where
  cc := c.cc - BitVec.ofNat 32 m.len
  mbcnt := c.mbcnt - BitVec.ofNat 32 m.storage

/-- A socket buffer: its counts, its limits, its records and the flag `SB_LOCK`.
Source: socketvar.h struct sockbuf -/
structure Sockbuf where
  cnt : Counts
  hiwat : BitVec 32
  mbmax : BitVec 32
  lock : Bool
  mb : List (List Mbuf)
deriving DecidableEq

/-- An empty, unlocked socket buffer with the given limits.
Source: sbreserve -/
def empty (hiwat mbmax : BitVec 32) : Sockbuf := ⟨⟨0, 0⟩, hiwat, mbmax, false, []⟩

/-- All mbufs of the buffer, in order. -/
def Sockbuf.mbufs (sb : Sockbuf) : List Mbuf := sb.mb.flatten

/-- How much space there is in a socket buffer (so->so_snd or so->so_rcv).
Source: socketvar.h sbspace -/
def sbspace (sb : Sockbuf) : ℤ :=
  min (sb.hiwat - sb.cnt.cc).toInt (sb.mbmax - sb.cnt.mbcnt).toInt

/-- The kernel stops with one of these messages. -/
inductive Panic where
  | sbappendaddr | sbappendcontrol | sbflush | sbflush2 | sbdrop
deriving DecidableEq

/-! ## Appending -/

/-- Compress mbuf chain into the socket buffer following mbuf `n`. If `n` is null, the buffer is
presumed empty. The result is the chain from `n` on. `eor` collects the flags `M_EOR` seen.
Source: sbcompress -/
def sbcompress (c : Counts) (eor : Bool) : List Mbuf → Option Mbuf → Counts × List Mbuf
  | [], none => (c, [])
  | [], some n => (c, [{ n with eor := n.eor || eor }])
  | m :: ms, n =>
    let eor := eor || m.eor
    if m.len = 0 ∧ (eor = false ∨ (ms.head? <|> n).any (·.type = m.type)) then
      sbcompress c eor ms n
    else
      match n with
      | none => sbcompress (c.alloc m) eor ms (some { m with eor := false })
      | some n =>
        if h : (n.ext = none ∧ n.eor = false) ∧ n.off + n.len + m.len < mlen ∧
            n.type = m.type then
          sbcompress ⟨c.cc + BitVec.ofNat 32 m.len, c.mbcnt⟩ eor ms
            (some (n.extend m.bytes h.1.1 h.2.1))
        else
          let r := sbcompress (c.alloc m) eor ms (some { m with eor := false })
          (r.1, n :: r.2)

/-- Put the first mbuf on the queue (this permits zero length records) and compress the rest of
its chain behind it; a flag `M_EOR` of the first mbuf moves to the second.
Source: sbappendrecord, sbinsertoob -/
def startRecord (c : Counts) (m0 : Mbuf) : List Mbuf → Counts × List Mbuf
  | [] => sbcompress (c.alloc m0) false [] (some m0)
  | m :: ms =>
    if m0.eor then
      sbcompress (c.alloc m0) false ({ m with eor := true } :: ms)
        (some { m0 with eor := false })
    else
      sbcompress (c.alloc m0) false (m :: ms) (some m0)

/-- Append an mbuf chain as a new record. Source: sbappendrecord -/
def sbappendrecord (sb : Sockbuf) : List Mbuf → Sockbuf
  | [] => sb
  | m0 :: ms =>
    let r := startRecord sb.cnt m0 ms
    { sb with cnt := r.1, mb := sb.mb ++ [r.2] }

/-- Append mbuf chain `m` to the last record in the socket buffer. Empty mbufs are discarded and
mbufs are compacted where possible. A last record with `M_EOR` is not extended.
Source: sbappend -/
def sbappend (sb : Sockbuf) (m : List Mbuf) : Sockbuf :=
  if m = [] then sb
  else
    match sb.mb.getLast? with
    | none =>
      let r := sbcompress sb.cnt false m none
      { sb with cnt := r.1, mb := if r.2 = [] then [] else [r.2] }
    | some last =>
      if last.any (·.eor) then sbappendrecord sb m
      else
        let r := sbcompress sb.cnt false m last.getLast?
        { sb with cnt := r.1, mb := sb.mb.dropLast ++ [last.dropLast ++ r.2] }

/-- Whether the search for the place of new OOB data goes past this train.
Source: sbinsertoob -/
def oobTrain : List Mbuf → Bool
  | [] => false
  | m :: ms =>
    match m.type with
    | .oobdata => true
    | .control => oobTrain ms
    | _ => false

/-- As `sbappendrecord`, except that OOB data is inserted at the beginning of the sockbuf, but
after any other OOB data.
Source: sbinsertoob -/
def sbinsertoob (sb : Sockbuf) : List Mbuf → Sockbuf
  | [] => sb
  | m0 :: ms =>
    let r := startRecord sb.cnt m0 ms
    { sb with
      cnt := r.1
      mb := sb.mb.takeWhile oobTrain ++ r.2 :: sb.mb.dropWhile oobTrain }

/-- Append a chain as it is, counting each of its mbufs.
Source: sbappendaddr, sbappendcontrol -/
def appendChain (sb : Sockbuf) (m : List Mbuf) : Sockbuf :=
  { sb with cnt := m.foldl Counts.alloc sb.cnt, mb := sb.mb ++ [m] }

/-- The mbuf with the sender's address: `MGET` of type `MT_SONAME` at `a`, filled by `bcopy`.
Source: sbappendaddr -/
def sonameMbuf (a : Fin nmbuf) (asa : List UInt8) (h : asa.length ≤ mlen) : Mbuf where
  addr := a
  type := .soname
  off := 0
  bytes := asa
  ext := none
  pkthdr := none
  eor := false
  room := by rw [Option.getD_none, Nat.zero_add]; exact h
  ext_le := mlen_le_mclbytes

/-- Append address and data, and optionally, control (ancillary) data to the receive queue of a
socket. `mget` is what `MGET` finds. The flag of the result says whether there was space.
Source: sbappendaddr -/
def sbappendaddr (sb : Sockbuf) (asa : List UInt8) (m0 control : List Mbuf)
    (mget : Option (Fin nmbuf)) : Except Panic (Bool × Sockbuf) :=
  if m0.head?.any (·.pkthdr.isNone) then .error .sbappendaddr
  else
    let space := BitVec.ofNat 32 asa.length + (m0.head?.bind Mbuf.pkthdr).getD 0
      + BitVec.ofNat 32 (chainLen control)
    if space.toInt > sbspace sb then .ok (false, sb)
    else if h : asa.length ≤ mlen then
      match mget with
      | none => .ok (false, sb)
      | some a => .ok (true, appendChain sb (sonameMbuf a asa h :: (control ++ m0)))
    else .ok (false, sb)

/-- Append control data and data as a new record, when there is space.
Source: sbappendcontrol -/
def sbappendcontrol (sb : Sockbuf) (m0 control : List Mbuf) : Except Panic (Bool × Sockbuf) :=
  if control = [] then .error .sbappendcontrol
  else
    let space := BitVec.ofNat 32 (chainLen control) + BitVec.ofNat 32 (chainLen m0)
    if space.toInt > sbspace sb then .ok (false, sb)
    else .ok (true, appendChain sb (control ++ m0))

/-! ## Dropping -/

/-- The loop of `sbdrop` within one record: mbufs are freed while `len` covers them, and the one
it does not cover is cut. Returns the length still to drop and the mbufs left.
Source: sbdrop -/
def dropChain (c : Counts) : ℕ → List Mbuf → Counts × ℕ × List Mbuf
  | 0, m => (c, 0, m)
  | len + 1, [] => (c, len + 1, [])
  | len + 1, m :: ms =>
    if h : len + 1 < m.len then
      (⟨c.cc - BitVec.ofNat 32 (len + 1), c.mbcnt⟩, 0, m.trim (len + 1) (Nat.le_of_lt h) :: ms)
    else dropChain (c.free m) (len + 1 - m.len) ms

/-- The loop of `sbdrop` over the records: what is left of the record where it stops, and the
records behind it.
Source: sbdrop -/
def dropRecords (c : Counts) (len : ℕ) :
    List (List Mbuf) → Except Panic (Counts × List Mbuf × List (List Mbuf))
  | [] => if len = 0 then .ok (c, [], []) else .error .sbdrop
  | m :: next =>
    match dropChain c len m with
    | (c', 0, m') => .ok (c', m', next)
    | (c', len' + 1, _) => dropRecords c' (len' + 1) next

/-- The second loop of `sbdrop`: free the empty mbufs in front.
Source: sbdrop -/
def dropEmpty (c : Counts) : List Mbuf → Counts × List Mbuf
  | [] => (c, [])
  | m :: ms => if m.len = 0 then dropEmpty (c.free m) ms else (c, m :: ms)

/-- Drop data from (the front of) a sockbuf. Source: sbdrop -/
def sbdrop (sb : Sockbuf) (len : ℤ) : Except Panic Sockbuf :=
  match dropRecords sb.cnt len.toNat sb.mb with
  | .error e => .error e
  | .ok (c, m, next) =>
    let r := dropEmpty c m
    .ok { sb with cnt := r.1, mb := if r.2 = [] then next else r.2 :: next }

/-- Drop a record off the front of a sockbuf and move the next record to the front.
Source: sbdroprecord -/
def sbdroprecord (sb : Sockbuf) : Sockbuf :=
  match sb.mb with
  | [] => sb
  | m :: next => { sb with cnt := m.foldl Counts.free sb.cnt, mb := next }

/-- The loop of `sbflush`, for at most `fuel` rounds: `none` when they did not suffice.
Source: sbflush -/
def sbflushLoop : ℕ → Sockbuf → Option (Except Panic Sockbuf)
  | 0, _ => none
  | fuel + 1, sb =>
    if sb.cnt.mbcnt = 0 then
      some (if sb.cnt.cc = 0 ∧ sb.mb = [] then .ok sb else .error .sbflush2)
    else
      match sbdrop sb sb.cnt.cc.toInt with
      | .error e => some (.error e)
      | .ok sb' => sbflushLoop fuel sb'

/-- Free all mbufs in a sockbuf. Check that all resources are reclaimed.
Source: sbflush -/
def sbflush (fuel : ℕ) (sb : Sockbuf) : Option (Except Panic Sockbuf) :=
  if sb.lock then some (.error .sbflush) else sbflushLoop fuel sb

end Bsd386.Kern.Sockbuf
