import Bsd386.Kern.Sockbuf.Account

/-!
# Routines on chains of mbufs

`m_copym`, `m_copydata`, `m_cat`, `m_adj` and `m_pullup` of `uipc_mbuf.c`. A chain is the list of mbufs
that `m_next` links. `MGET` takes the next of a list of addresses and fails when there is none. An mbuf
carries the bytes of its data, so that clusters, which these routines share and never write to, are
shared by copying; their reference counts are left out.

`bcopy` into an mbuf has a result only where the bytes fit into its storage (`put`).

Lengths and offsets are those that are not negative, after the tests for it, and `req_len` of `m_adj` is any
`int` but the least one.

Source: `sys/kern/uipc_mbuf.c`.
-/

namespace Bsd386.Kern.Mbuf

open Sockbuf

/-- Why a routine has no chain to return: a panic, a write past the end of an mbuf, no mbuf, too few bytes
in the chain, more bytes wanted than an mbuf can hold, a loop without end. -/
inductive Stop where
  | panic | overrun | nospace | short | tooLong | loop
deriving DecidableEq

/-- Size of `struct pkthdr`. -/
def pkthdrSize : ℕ := 8

/-- Room for data in an mbuf with a packet header. Source: mbuf.h MHLEN -/
def mhlen : ℕ := mlen - pkthdrSize

/-- Source: mbuf.h M_COPYALL -/
def mCopyall : ℕ := 1000000000

/-! ## Single mbufs -/

/-- Source: mbuf.h MGET -/
def mget (addr : Fin nmbuf) (type : MType) : Mbuf where
  addr := addr
  type := type
  off := 0
  bytes := []
  ext := none
  pkthdr := none
  eor := false
  room := Nat.zero_le _
  ext_le := mlen_le_mclbytes

/-- Packet header, the flags that go with it and the place of the data, for an mbuf without data and
cluster. Source: mbuf.h M_COPY_PKTHDR -/
def copyPkthdr (n m : Mbuf) (hn : n.bytes = []) (hext : n.ext = none) : Mbuf :=
  { n with
    pkthdr := m.pkthdr
    eor := m.eor
    off := pkthdrSize
    room := by
      rw [hn, hext]
      decide }

/-- `bcopy` of `bs` behind the data of `m`. -/
def put (m : Mbuf) (bs : List UInt8) : Except Stop Mbuf :=
  if h : m.off + (m.bytes ++ bs).length ≤ m.ext.getD mlen then .ok { m with bytes := m.bytes ++ bs, room := h }
  else .error .overrun

/-- Data at `off` in the cluster of `m`, `count` bytes of it. Source: m_copym. -/
def share (n m : Mbuf) (off count : ℕ) : Except Stop Mbuf :=
  if h : m.off + off + ((m.bytes.drop off).take count).length ≤ m.ext.getD mlen then
    .ok { n with
      off := m.off + off, bytes := (m.bytes.drop off).take count, ext := m.ext, room := h, ext_le := m.ext_le }
  else .error .overrun

/-- `m_len = k`, at most what it was. Source: m_adj -/
def cut (m : Mbuf) (k : ℕ) : Mbuf :=
  { m with
    bytes := m.bytes.take k
    room := by
      have hroom := m.room
      rw [List.length_take]
      omega }

/-- A change of `m_pkthdr.len`, if there is a packet header. -/
def setHdr (f : BitVec 32 → BitVec 32) (m : Mbuf) : Mbuf :=
  { m with pkthdr := m.pkthdr.map f }

/-! ## Copying -/

/-- `while (off > 0)`: the mbuf with the byte `off`, and where in it. `none` is the panic.
Source: m_copym, m_copydata -/
def seek : List Mbuf → ℕ → Option (List Mbuf × ℕ)
  | ms, 0 => some (ms, 0)
  | [], _ + 1 => none
  | m :: ms, off + 1 => if off + 1 < m.len then some (m :: ms, off + 1) else seek ms (off + 1 - m.len)

/-- One mbuf of the copy; `copyhdr` when it is to get the packet header of `m`.
Source: m_copym -/
def copyOne (addr : Fin nmbuf) (copyhdr : Bool) (off0 off len : ℕ) (m : Mbuf) :
    Except Stop Mbuf :=
  let n :=
    if copyhdr then
      setHdr (fun l => if len = mCopyall then l - BitVec.ofNat 32 off0 else BitVec.ofNat 32 len)
        (copyPkthdr (mget addr m.type) m rfl rfl)
    else mget addr m.type
  let count := min len (m.len - off)
  if m.ext.isSome then share n m off count else put n ((m.bytes.drop off).take count)

/-- `while (len > 0)`. Source: m_copym -/
def copyLoop (off0 : ℕ) : List (Fin nmbuf) → Bool → ℕ → ℕ → List Mbuf → Except Stop (List Mbuf)
  | _, _, _, 0, _ => .ok []
  | _, _, _, len + 1, [] => if len + 1 = mCopyall then .ok [] else .error .panic
  | [], _, _, _ + 1, _ :: _ => .error .nospace
  | a :: avail, copyhdr, off, len + 1, m :: ms =>
    match copyOne a copyhdr off0 off (len + 1) m with
    | .error e => .error e
    | .ok n =>
      let len' := if len + 1 = mCopyall then len + 1 else len + 1 - n.len
      match copyLoop off0 avail false 0 len' ms with
      | .error e => .error e
      | .ok top => .ok (n :: top)

/-- A copy of the chain `m`, `ms` from `off0` on; `avail` are the mbufs there are.
Source: m_copym -/
def mCopym (m : Mbuf) (ms : List Mbuf) (off0 len : ℕ) (avail : List (Fin nmbuf)) :
    Except Stop (List Mbuf) :=
  match seek (m :: ms) off0 with
  | none => .error .panic
  | some (ms', off) => copyLoop off0 avail (decide (off0 = 0) && m.pkthdr.isSome) off len ms'

/-- `while (len > 0)`: what is written from `cp` on. Source: m_copydata -/
def copydataLoop : ℕ → ℕ → List Mbuf → Except Stop (List UInt8)
  | _, 0, _ => .ok []
  | _, _ + 1, [] => .error .panic
  | off, len + 1, m :: ms =>
    let count := min (m.len - off) (len + 1)
    match copydataLoop 0 (len + 1 - count) ms with
    | .error e => .error e
    | .ok bs => .ok ((m.bytes.drop off).take count ++ bs)

/-- Source: m_copydata -/
def mCopydata (ms : List Mbuf) (off len : ℕ) : Except Stop (List UInt8) :=
  match seek ms off with
  | none => .error .panic
  | some (ms', off) => copydataLoop off len ms'

/-! ## Concatenation -/

/-- `while (n)`, from the last mbuf of the first chain on. Source: m_cat -/
def catLoop (m : Mbuf) : List Mbuf → List Mbuf
  | [] => [m]
  | n :: ns =>
    if h : m.ext.isSome = true ∨ mlen ≤ m.off + m.len + n.len then m :: n :: ns
    else
      catLoop (m.extend n.bytes (by
        rw [not_or, Option.not_isSome_iff_eq_none] at h
        exact h.1) (not_le.mp fun hle => h (Or.inr hle))) ns

/-- Source: m_cat -/
def mCat (m : Mbuf) : List Mbuf → List Mbuf → List Mbuf
  | [], ns => catLoop m ns
  | m' :: ms, ns => m :: mCat m' ms ns

/-! ## Trimming -/

/-- Trim from head: the chain, and what was not trimmed.
Source: m_adj -/
def trimHead : List Mbuf → ℕ → List Mbuf × ℕ
  | [], len => ([], len)
  | m :: ms, 0 => (m :: ms, 0)
  | m :: ms, len + 1 =>
    if h : m.len ≤ len + 1 then
      let r := trimHead ms (len + 1 - m.len)
      (cut m 0 :: r.1, r.2)
    else (m.trim (len + 1) (not_le.mp h).le :: ms, 0)

/-- Find the mbuf with last data, adjust its length, and toss data from remaining mbufs on chain.
Source: m_adj -/
def cutLoop : List Mbuf → ℕ → List Mbuf
  | [], _ => []
  | m :: ms, count =>
    if count ≤ m.len then cut m count :: ms.map fun m => cut m 0 else m :: cutLoop ms (count - m.len)

/-- A change of the packet header at the start of a chain. -/
def setHdrs (f : BitVec 32 → BitVec 32) : List Mbuf → List Mbuf
  | [] => []
  | m :: ms => setHdr f m :: ms

/-- Source: m_adj -/
def mAdj (mp : List Mbuf) (reqLen : ℤ) : List Mbuf :=
  if 0 ≤ reqLen then
    let r := trimHead mp reqLen.toNat
    setHdrs (· - BitVec.ofNat 32 (reqLen.toNat - r.2)) r.1
  else
    let len := (-reqLen).toNat
    match mp.getLast? with
    | none => mp
    | some m =>
      if len ≤ m.len then
        -- the adjustment only affects the last mbuf
        setHdrs (· - BitVec.ofNat 32 len) (mp.dropLast ++ [cut m (m.len - len)])
      else
        let count := chainLen mp - len
        setHdrs (fun _ => BitVec.ofNat 32 count) (cutLoop mp count)

/-! ## Pulling up -/

/-- The chain `n`, `ns` after `count` bytes of `n` were taken: an mbuf without data is freed.
Source: m_pullup -/
def advance (n : Mbuf) (ns : List Mbuf) (count : ℕ) : List Mbuf :=
  if h : count < n.len then n.trim count h.le :: ns else ns

/-- `do … while (len > 0 && n)`, with the turns that are left: `m` gets the data of the mbufs behind it.
Source: m_pullup -/
def pullLoop (maxProtohdr : ℕ) : ℕ → Mbuf → List Mbuf → ℕ → ℕ → Except Stop (List Mbuf)
  | 0, _, _, _, _ => .error .loop
  | _ + 1, _, [], _, _ => .error .short
  | k + 1, m, n :: ns, len, space =>
    let count := min (min (max len maxProtohdr) space) n.len
    match put m (n.bytes.take count) with
    | .error e => .error e
    | .ok m' =>
      if len - count = 0 then .ok (m' :: advance n ns count)
      else if advance n ns count = [] then .error .short
      else pullLoop maxProtohdr k m' (advance n ns count) (len - count) (space - count)

/-- Source: m_pullup -/
def mPullup (maxProtohdr : ℕ) (n : Mbuf) (ns : List Mbuf) (len : ℕ) (avail : List (Fin nmbuf)) :
    Except Stop (List Mbuf) :=
  if n.ext = none ∧ n.off + len < mlen ∧ ns ≠ [] then
    if len ≤ n.len then .ok (n :: ns)
    else pullLoop maxProtohdr (ns.length + 1) n ns (len - n.len) (mlen - (n.off + n.len))
  else if mhlen < len then .error .tooLong
  else
    match avail with
    | [] => .error .nospace
    | a :: _ =>
      let m := mget a n.type
      if n.pkthdr.isSome then
        pullLoop maxProtohdr (ns.length + 2) (copyPkthdr m n rfl rfl) ({ n with pkthdr := none } :: ns) len
          (mlen - pkthdrSize)
      else pullLoop maxProtohdr (ns.length + 2) m (n :: ns) len mlen

end Bsd386.Kern.Mbuf
