import Bsd386.Lib.Reassembly

/-!
# IP reassembly

`ip_reass` and the part of `ipintr` that calls it. A fragment that waits for the others is held
with its header as a `struct ipasfrag`, whose `ip_len` and `ip_off` are signed 16 bit fields;
sums and comparisons of them are done in `int`. An mbuf chain is its bytes. There is one queue
here, that of the datagram at hand; `none` when `ipq` has none for it.

Source: `sys/netinet/ip_input.c`.
-/

namespace Bsd386.Net.Ip

open Lib

/-- A `short` plus an `int`, stored in a `short` again. -/
def addShort (s : BitVec 16) (i : ℤ) : BitVec 16 := s + BitVec.ofInt 16 i

/-- An ip header when holding a fragment, with the data of the fragment.
Source: ip_var.h struct ipasfrag -/
structure Ipasfrag where
  off : BitVec 16
  len : BitVec 16
  mff : Bool
  data : List UInt8
deriving DecidableEq

/-- A reassembled datagram: `ip_len` of its header, and its data.
Source: ip.h struct ip -/
structure Datagram where
  len : BitVec 16
  data : List UInt8
deriving DecidableEq

/-- How `ip_reass` computes with its fragments: `q->ip_off > ip->ip_off`,
`p->ip_off + p->ip_len - q->ip_off`, `ip->ip_len`, and `m_adj(dtom(ip), i)` with the fields
adjusted.
Source: ip_reass -/
def ops : Reassembly.Ops Ipasfrag where
  after q p := p.off.toInt < q.off.toInt
  beyond p q := p.off.toInt + p.len.toInt - q.off.toInt
  size p := p.len.toInt
  trim p i := ⟨addShort p.off i, addShort p.len (-i), p.mff, p.data.drop i.toNat⟩

/-- The check for complete reassembly: the fragments follow each other, from `next` on. Returns
where they end.
Source: ip_reass -/
def contiguous : ℤ → List Ipasfrag → Option ℤ
  | next, [] => some next
  | next, q :: qs => if q.off.toInt = next then contiguous (next + q.len.toInt) qs else none

/-- Stick new segment in its place; check for complete reassembly. The fragments are concatenated
when they follow each other and the last one has no more behind it.
Source: ip_reass -/
def checkComplete (qs : List Ipasfrag) : Option (List Ipasfrag) × Option Datagram :=
  match contiguous 0 qs with
  | none => (some qs, none)
  | some next =>
    if qs.getLast?.any (·.mff) then (some qs, none)
    else (none, some ⟨BitVec.ofInt 16 next, qs.flatMap Ipasfrag.data⟩)

/-- Take incoming datagram fragment and try to reassemble it into whole datagram. If a chain for
reassembly of this datagram already exists, then it is given as `fp`; otherwise have to make a
chain, for which `mget` says whether there is an mbuf.
Source: ip_reass -/
def ipReass (mget : Bool) (fp : Option (List Ipasfrag)) (ip : Ipasfrag) :
    Option (List Ipasfrag) × Option Datagram :=
  match fp with
  | none => if mget then checkComplete [ip] else (none, none)
  | some qs =>
    match Reassembly.insert ops ip qs with
    | none => (some qs, none)
    | some qs' => checkComplete qs'

/-- A packet as it comes in: header length, `ip_len` and `ip_off` in host order, and the data behind
the header.
Source: ip.h struct ip -/
structure Packet where
  hlen : ℕ
  len : BitVec 16
  off : BitVec 16
  data : List UInt8
deriving DecidableEq

/-- `IP_MF`. -/
def ipMf : BitVec 16 := 0x2000

/-- `IP_DF`. -/
def ipDf : BitVec 16 := 0x4000

/-- `ipintr` on a packet for this host: the length checks, the fields as `ip_reass` wants them, and
reassembly when it is a fragment. The second component is what goes to the protocol.
Source: ipintr -/
def ipintr (mget : Bool) (fp : Option (List Ipasfrag)) (p : Packet) :
    Option (List Ipasfrag) × Option Datagram :=
  if p.len.toInt < p.hlen then (fp, none)
  else if ((p.hlen + p.data.length : ℕ) : ℤ) < p.len.toInt then (fp, none)
  else
    let data := p.data.take (p.len.toInt.toNat - p.hlen)
    let len := addShort p.len (-(p.hlen : ℤ))
    if p.off &&& ~~~ipDf = 0 then (fp, some ⟨len, data⟩)
    else
      let mff : Bool := p.off &&& ipMf ≠ 0
      let off := p.off <<< 3
      if mff ∨ off ≠ 0 then ipReass mget fp ⟨off, len, mff, data⟩
      else (none, some ⟨len, data⟩)

end Bsd386.Net.Ip
