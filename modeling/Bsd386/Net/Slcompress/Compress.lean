import Bsd386.Lib.Lru
import Bsd386.Net.Slcompress.Basic

/-!
# The sender

`sl_compress_tcp` of `sys/net/slcompress.c`. The function works on the packet in place; here it
returns the frame to send. Its parts, in the order of the source:

* the test that the packet is compressible,
* the search for the conversation in the ring of transmit states, and the move to its front,
* `sendCompressed` and `sendUncompressed`, which save the header and build the frame.

`SL_NOFASTQ` is not defined in any configuration, so a compressed frame always carries its
connection id.
-/

namespace Bsd386.Net.Slcompress

open Lib.Bytes
open Lib.Lru (Found search relink)

/-! ## The conversation of a packet -/

/-- What identifies a conversation: the two addresses, and the two ports as one word.
Source: sl_compress_tcp -/
def conv (h : Mem) : BitVec 32 × BitVec 32 × BitVec 32 := (get32 h 12, get32 h 16, get32 h (th h))

/-- The packet is no fragment, is long enough, and has `ACK` and no other control bit set.
Source: sl_compress_tcp -/
def compressible (ip : Buf) : Bool :=
  (ipOff ip.mem &&& 0x3fff == 0 && 40 ≤ ip.len) &&
    thFlags ip.mem (th ip.mem) &&& thControl == thAckBit

/-! ## What changed -/

/-- `bcmp` of the `n` bytes at `a` of both headers finds no difference.
Source: BCMP -/
def bcmpEq (p q : Mem) (a n : ℕ) : Bool := decide (∀ i, i < n → p (a + i) = q (a + i))

/-- Only what is expected to change changed: version, header length and type of service; the
fragment word; time to live and protocol; the TCP header length; IP options; TCP options.
Source: sl_compress_tcp -/
def unchangedFields (cs ip : Mem) : Bool :=
  let t := th ip
  get16 ip 0 == get16 cs 0 && get16 ip 6 == get16 cs 6 && get16 ip 8 == get16 cs 8 &&
    thOff ip t == thOff cs t &&
    (decide (ipHl ip ≤ 5) || bcmpEq ip cs 20 (4 * (ipHl ip - 5))) &&
    (decide (thOff ip t ≤ 5) || bcmpEq ip cs (t + 20) (4 * (thOff ip t - 5)))

/-- The urgent pointer, sent itself when `TH_URG` is set; without the flag it must not change.
Source: sl_compress_tcp -/
def urgentChange (cs ip : Mem) (t : ℕ) : Option (Byte × List Byte) :=
  if thFlags ip t &&& thUrg ≠ 0 then some (newU, encodez ((thUrp ip t).setWidth 32))
  else if thUrp ip t ≠ thUrp cs t then none
  else some (0, [])

/-- The window, as a 16-bit difference. Source: sl_compress_tcp -/
def windowChange (cs ip : Mem) (t : ℕ) : Byte × List Byte :=
  if thWin ip t - thWin cs t ≠ 0 then (newW, encode ((thWin ip t - thWin cs t).setWidth 32))
  else (0, [])

/-- The acknowledgement or the sequence number: a difference of at most `0xffff`.
Source: sl_compress_tcp -/
def longChange (bit : Byte) (delta : BitVec 32) : Option (Byte × List Byte) :=
  if delta ≠ 0 then if 0xffff < delta.toNat then none else some (bit, encode delta)
  else some (0, [])

/-- `deltaA`. Source: sl_compress_tcp -/
def deltaA (cs ip : Mem) (t : ℕ) : BitVec 32 := thAck ip t - thAck cs t

/-- `deltaS`. Source: sl_compress_tcp -/
def deltaS (cs ip : Mem) (t : ℕ) : BitVec 32 := thSeq ip t - thSeq cs t

/-- `ntohs(cs->cs_ip.ip_len) - hlen`: how much data the saved packet carried.
Source: sl_compress_tcp -/
def lastData (cs : Mem) (hlen : ℕ) : BitVec 32 := (ipLen cs).setWidth 32 - BitVec.ofNat 32 hlen

/-- The switch on the change mask: no change at all, the two masks that are reserved, and the two
that may become a special case.
Source: sl_compress_tcp -/
def specialCases (cs ip : Mem) (t hlen : ℕ) (changes : Byte) (newSeq : List Byte) :
    Option (Byte × List Byte) :=
  if changes = 0 then
    if ipLen ip ≠ ipLen cs ∧ (ipLen cs).toNat = hlen then some (changes, newSeq) else none
  else if changes = specialI ∨ changes = specialD then none
  else if changes = newS ||| newA then
    if deltaS cs ip t = deltaA cs ip t ∧ deltaS cs ip t = lastData cs hlen then
      some (specialI, [])
    else some (changes, newSeq)
  else if changes = newS then
    if deltaS cs ip t = lastData cs hlen then some (specialD, []) else some (changes, newSeq)
  else some (changes, newSeq)

/-- `deltaS` of the IP ID, as a `u_int`. Source: sl_compress_tcp -/
def deltaId (cs ip : Mem) : BitVec 32 := (ipId ip).setWidth 32 - (ipId cs).setWidth 32

/-- The IP ID: nothing is sent when it went up by one.
Source: sl_compress_tcp -/
def idChange (cs ip : Mem) : Byte × List Byte :=
  if deltaId cs ip ≠ 1 then (newI, encodez (deltaId cs ip)) else (0, [])

/-- The push bit. Source: sl_compress_tcp -/
def pushChange (ip : Mem) (t : ℕ) : Byte := if thFlags ip t &&& thPush ≠ 0 then tcpPushBit else 0

/-- The change mask (without `NEW_C`) and `new_seq` of a packet against the saved header, or
`none` when it goes uncompressed.
Source: sl_compress_tcp -/
def slChanges (cs ip : Mem) : Option (Byte × List Byte) :=
  let t := th ip
  if unchangedFields cs ip then
    match urgentChange cs ip t, longChange newA (deltaA cs ip t),
        longChange newS (deltaS cs ip t) with
    | some u, some a, some s =>
      let w := windowChange cs ip t
      match specialCases cs ip t (hdrLen ip) (u.1 ||| w.1 ||| a.1 ||| s.1)
          (u.2 ++ w.2 ++ a.2 ++ s.2) with
      | some c =>
        let i := idChange cs ip
        some (c.1 ||| i.1 ||| pushChange ip t, c.2 ++ i.2)
      | none => none
    | _, _, _ => none
  else none

/-! ## The frames -/

/-- What `sl_compress_tcp` leaves: the type it returns, the frame, and the new state.
Source: sl_compress_tcp -/
structure Sent where
  type : BitVec 32
  frame : Buf
  comp : Slcompress

/-- `BCOPY(ip, &cs->cs_ip, hlen)`. Source: sl_compress_tcp -/
def saveHeader (comp : Slcompress) (cs : Slot) (ip : Mem) : Slcompress :=
  { comp with
    lastXmit := (comp.tstate cs).csId
    tstate := Function.update comp.tstate cs
      { comp.tstate cs with csHdr := overlay ip (comp.tstate cs).csHdr 0 (hdrLen ip) } }

/-- The packet itself, with the connection id in the place of the protocol.
Source: sl_compress_tcp, uncompressed -/
def sendUncompressed (comp : Slcompress) (cs : Slot) (ip : Buf) : Except Fault Sent :=
  if maxHdr < hdrLen ip.mem then .error (.overrun (hdrLen ip.mem))
  else .ok
    { type := typeUncompressedTcp
      frame := { ip with mem := set8 ip.mem 9 (comp.tstate cs).csId }
      comp := saveHeader comp cs ip.mem }

/-- The bytes in front of the data: the mask, the connection id, the TCP checksum, `new_seq`.
Source: sl_compress_tcp -/
def compressedHeader (id : Byte) (ip : Mem) (changes : Byte) (newSeq : List Byte) : List Byte :=
  [changes ||| newC, id, (thSum ip (th ip)).extractLsb' 8 8,
    (thSum ip (th ip)).extractLsb' 0 8] ++ newSeq

/-- The compressed packet: its header ends where the header of the packet ended.
Source: sl_compress_tcp -/
def compressedFrame (hd : List Byte) (ip : Buf) : Buf :=
  let hlen := hdrLen ip.mem - hd.length
  { addr := ip.addr + hlen
    mem := fun i => if i < hd.length then hd.getD i 0 else ip.mem (i + hlen)
    len := ip.len - hlen }

/-- Compare with the saved header of `cs` and send. Both outcomes copy the header.
Source: sl_compress_tcp -/
def sendOn (comp : Slcompress) (cs : Slot) (ip : Buf) : Except Fault Sent :=
  match slChanges (comp.tstate cs).csHdr ip.mem with
  | none => sendUncompressed comp cs ip
  | some c =>
    if maxHdr < hdrLen ip.mem then .error (.overrun (hdrLen ip.mem))
    else .ok
      { type := typeCompressedTcp
        frame := compressedFrame (compressedHeader (comp.tstate cs).csId ip.mem c.1 c.2) ip
        comp := saveHeader comp cs ip.mem }

/-- A `cstate` found in the list moves to its front.
Source: sl_compress_tcp, found -/
def touch (comp : Slcompress) (lcs cs : Slot) : Slcompress :=
  if cs = comp.lastCs then { comp with lastCs := lcs }
  else
    let next := relink (fun i => (comp.tstate i).csNext) comp.lastCs lcs cs
    { comp with tstate := fun i => { comp.tstate i with csNext := next i } }

/-- Source: sl_compress_tcp -/
def slCompressTcp (ip : Buf) (comp : Slcompress) : Except Fault Sent :=
  if compressible ip then
    let next := fun i => (comp.tstate i).csNext
    let same := fun i => decide (conv ip.mem = conv (comp.tstate i).csHdr)
    let cs := next comp.lastCs
    if same cs then sendOn comp cs ip
    else
      match search next comp.lastCs same maxStates cs with
      | none => .error .noReturn
      | some (.miss lcs cs) => sendUncompressed { comp with lastCs := lcs } cs ip
      | some (.hit lcs cs) => sendOn (touch comp lcs cs) cs ip
  else .ok { type := typeIp, frame := ip, comp := comp }

end Bsd386.Net.Slcompress
