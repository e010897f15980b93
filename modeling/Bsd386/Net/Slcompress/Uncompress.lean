import Bsd386.Net.Slcompress.Basic

/-!
# The two receivers

`sl_uncompress_tcp`, which works on a flat buffer, and `sl_muncompress_tcp`, its copy for chains
of mbufs. They share the choice of the `cstate` (`selectState`) and the decoding of a compressed
header into it (`decodeHeader`); what differs is how a header is saved, how the packet is put
together, and that only the second one checks `hlen` against `MAX_HDR`.

The saved header is changed in place while the frame is decoded, so a frame that turns out too
short leaves the changes behind. An index of `rstate` outside the array and a copy of a header
longer than `MAX_HDR` are faults.
-/

namespace Bsd386.Net.Slcompress

open Lib.Bytes

/-! ## Decoding into the saved header -/

/-- The push bit into the flags. Source: sl_uncompress_tcp -/
def decodePush (h : Mem) (t : ℕ) (changes : Byte) : Mem :=
  if changes &&& tcpPushBit ≠ 0 then set8 h (t + 13) (h (t + 13) ||| thPush)
  else set8 h (t + 13) (h (t + 13) &&& ~~~thPush)

/-- `ntohs(cs->cs_ip.ip_len) - cs->cs_hlen`: how much data the last packet carried.
Source: sl_uncompress_tcp -/
def savedData (h : Mem) (csHlen : ℕ) : BitVec 32 :=
  (ipLen h).setWidth 32 - BitVec.ofNat 32 csHlen

/-- `case SPECIAL_I`: sequence number and acknowledgement go up by the last data.
Source: sl_uncompress_tcp -/
def decodeSpecialI (h : Mem) (t csHlen : ℕ) : Mem :=
  let i := savedData h csHlen
  let h := set32 h (t + 8) (thAck h t + i)
  set32 h (t + 4) (thSeq h t + i)

/-- `case SPECIAL_D`: the sequence number goes up by the last data.
Source: sl_uncompress_tcp -/
def decodeSpecialD (h : Mem) (t csHlen : ℕ) : Mem :=
  set32 h (t + 4) (thSeq h t + savedData h csHlen)

/-- The urgent bit and pointer. Source: sl_uncompress_tcp -/
def decodeUrgent (mem h : Mem) (t cp : ℕ) (changes : Byte) : Mem × ℕ :=
  if changes &&& newU ≠ 0 then
    decodeu mem (set8 h (t + 13) (h (t + 13) ||| thUrg)) (t + 18) cp
  else (set8 h (t + 13) (h (t + 13) &&& ~~~thUrg), cp)

/-- `default`: every number whose bit is set, in the order of the source.
Source: sl_uncompress_tcp -/
def decodeNumbers (mem h : Mem) (t cp : ℕ) (changes : Byte) : Mem × ℕ :=
  let u := decodeUrgent mem h t cp changes
  let w := if changes &&& newW ≠ 0 then decodes mem u.1 (t + 14) u.2 else u
  let a := if changes &&& newA ≠ 0 then decodel mem w.1 (t + 8) w.2 else w
  if changes &&& newS ≠ 0 then decodel mem a.1 (t + 4) a.2 else a

/-- The switch on the change mask. Source: sl_uncompress_tcp -/
def decodeChanges (mem h : Mem) (t csHlen cp : ℕ) (changes : Byte) : Mem × ℕ :=
  if changes &&& specialsMask = specialI then (decodeSpecialI h t csHlen, cp)
  else if changes &&& specialsMask = specialD then (decodeSpecialD h t csHlen, cp)
  else decodeNumbers mem h t cp changes

/-- The IP ID. Source: sl_uncompress_tcp -/
def decodeId (mem h : Mem) (cp : ℕ) (changes : Byte) : Mem × ℕ :=
  if changes &&& newI ≠ 0 then decodes mem h 4 cp else (set16 h 4 (ipId h + 1), cp)

/-- From the TCP checksum at `cp` to the IP ID: the saved header decoded in place, and where the
data starts.
Source: sl_uncompress_tcp, sl_muncompress_tcp -/
def decodeHeader (mem h : Mem) (csHlen cp : ℕ) (changes : Byte) : Mem × ℕ :=
  let t := th h
  let h := set16 h (t + 16) (mem cp ++ mem (cp + 1))
  let h := decodePush h t changes
  let d := decodeChanges mem h t csHlen (cp + 2) changes
  decodeId mem d.1 d.2 changes

/-! ## Choosing the state -/

/-- `goto bad`: set `SLF_TOSS`. Source: sl_uncompress_tcp, bad -/
def bad (comp : Slcompress) : Slcompress := { comp with toss := true }

/-- What the connection id of a compressed frame does.
Source: sl_uncompress_tcp -/
inductive Selected where
  /-- The id is out of range: `goto bad`. -/
  | bad
  /-- No id, and frames are being tossed: `return (0)`. -/
  | tossed
  /-- Go on with `last_recv` in this state, reading at `cp`. -/
  | go (comp : Slcompress) (cp : ℕ)

/-- The explicit or implicit state index of a compressed frame.
Source: sl_uncompress_tcp, sl_muncompress_tcp -/
def selectState (mem : Mem) (comp : Slcompress) : Selected :=
  if mem 0 &&& newC ≠ 0 then
    if maxStates ≤ (mem 1).toNat then .bad
    else .go { comp with toss := false, lastRecv := mem 1 } 2
  else if comp.toss then .tossed
  else .go comp 1

/-- `comp->rstate[i]` as an index, if it is one. -/
def slot? (i : Byte) : Option Slot := if h : i.toNat < maxStates then some ⟨i.toNat, h⟩ else none

/-- A `cstate` of the receive side replaced. -/
def setRstate (comp : Slcompress) (i : Slot) (cs : Rstate) : Slcompress :=
  { comp with rstate := Function.update comp.rstate i cs }

/-- `((struct ip *)cp)->ip_sum = ~changes`, in the host's byte order, with `changes` the folded
sum of the `hlen` bytes of the IP header at `cp`. At most thirty words are added, so the sum
does not overflow.
Source: sl_uncompress_tcp, sl_muncompress_tcp -/
def setIpSum (out : Mem) (hlen : ℕ) : Mem :=
  let changes := ~~~BitVec.ofNat 16 (fold (fold (wordSum out (hlen / 2))))
  set8 (set8 out 10 (changes.extractLsb' 0 8)) 11 (changes.extractLsb' 8 8)

/-! ## The flat buffer -/

/-- What `sl_uncompress_tcp` leaves: the length it returns (0 for an error), the buffer with
`*bufp` at its start, and the new state.
Source: sl_uncompress_tcp -/
structure Received where
  len : ℕ
  buf : Buf
  comp : Slcompress

/-- The saved form of a header: the first `hlen` bytes of `ip`, with the checksum cleared.
Source: sl_uncompress_tcp -/
def savedHeader (ip : Mem) (cs : Rstate) (hlen : ℕ) : Rstate :=
  { csHlen := hlen, csHdr := set16 (overlay ip cs.csHdr 0 hlen) 10 0 }

/-- `case TYPE_UNCOMPRESSED_TCP`. The header is copied whatever its length.
Source: sl_uncompress_tcp -/
def recvUncompressed (buf : Buf) (comp : Slcompress) : Except Fault Received :=
  match slot? (buf.mem 9) with
  | none => .ok { len := 0, buf := buf, comp := bad comp }
  | some i =>
    let ip := set8 buf.mem 9 ipprotoTcp
    if maxHdr < hdrLen ip then .error (.overrun (hdrLen ip))
    else .ok
      { len := buf.len
        buf := { buf with mem := ip }
        comp := setRstate { comp with lastRecv := buf.mem 9, toss := false } i
          (savedHeader ip (comp.rstate i) (hdrLen ip)) }

/-- The packet put together at the end of the frame: the data moves down to a word boundary, and
the header goes in front of it. Past the data the memory keeps what it had.
Source: sl_uncompress_tcp -/
def rebuilt (buf : Buf) (cs : Rstate) (cp : ℕ) : Buf :=
  let shift := (buf.addr + cp) % 4
  { addr := buf.addr + cp - shift - cs.csHlen
    mem := fun i =>
      if i < cs.csHlen then cs.csHdr i
      else if i - cs.csHlen < buf.len - cp then buf.mem (cp + (i - cs.csHlen))
      else buf.mem (cp - shift + (i - cs.csHlen))
    len := buf.len - cp + cs.csHlen }

/-- `case TYPE_COMPRESSED_TCP`, once the state is chosen.
Source: sl_uncompress_tcp -/
def recvCompressed (buf : Buf) (comp : Slcompress) (cp : ℕ) : Except Fault Received :=
  match slot? comp.lastRecv with
  | none => .error (.rstateIndex comp.lastRecv)
  | some i =>
    let cs := comp.rstate i
    let hlen := th cs.csHdr
    let d := decodeHeader buf.mem cs.csHdr cs.csHlen cp (buf.mem 0)
    if buf.len < d.2 then
      .ok { len := 0, buf := buf, comp := bad (setRstate comp i { cs with csHdr := d.1 }) }
    else
      let len := buf.len - d.2 + cs.csHlen
      let cs' := { cs with csHdr := set16 d.1 2 (BitVec.ofNat 16 len) }
      if maxHdr < cs.csHlen then .error (.overrun cs.csHlen)
      else
        let out := rebuilt buf cs' d.2
        .ok
          { len := len
            buf := { out with mem := setIpSum out.mem hlen }
            comp := setRstate comp i cs' }

/-- Source: sl_uncompress_tcp -/
def slUncompressTcp (buf : Buf) (type : BitVec 32) (comp : Slcompress) : Except Fault Received :=
  if type = typeUncompressedTcp then recvUncompressed buf comp
  else if type = typeCompressedTcp then
    match selectState buf.mem comp with
    | .bad => .ok { len := 0, buf := buf, comp := bad comp }
    | .tossed => .ok { len := 0, buf := buf, comp := comp }
    | .go comp cp => recvCompressed buf comp cp
  else .ok { len := 0, buf := buf, comp := bad comp }

/-! ## The chain of mbufs -/

/-- A packet in a chain of mbufs: the memory from the data of the first one on and its `m_len`,
the data of the others, and `m_pkthdr.len`. `space` is what `M_LEADINGSPACE` finds in front of
the data when the compressed header has been cut off.
Source: sl_muncompress_tcp; mbuf.h -/
structure Chain where
  mem : Mem
  len : ℕ
  rest : List Byte
  pkthdrLen : BitVec 32
  space : ℕ

def Chain.bytes (m : Chain) : List Byte := (List.range m.len).map m.mem ++ m.rest

/-- What `sl_muncompress_tcp` leaves: the chain it returns, if any, and the new state.
Source: sl_muncompress_tcp -/
structure Mreceived where
  m : Option Chain
  comp : Slcompress

/-- `case TYPE_UNCOMPRESSED_TCP`: a header that is too long is dropped after `last_recv` is set,
and `m_copydata` panics on a chain shorter than the header.
Source: sl_muncompress_tcp -/
def mrecvUncompressed (m : Chain) (comp : Slcompress) : Except Fault Mreceived :=
  match slot? (m.mem 9) with
  | none => .ok { m := none, comp := bad comp }
  | some i =>
    let comp := { comp with lastRecv := m.mem 9, toss := false }
    let ip := set8 m.mem 9 ipprotoTcp
    let m' := { m with mem := ip }
    if maxHdr < hdrLen ip then .ok { m := none, comp := bad comp }
    else if m'.bytes.length < hdrLen ip then .error .panic
    else .ok
      { m := some m'
        comp := setRstate comp i
          (savedHeader (fun k => m'.bytes.getD k 0) (comp.rstate i) (hdrLen ip)) }

/-- The chain after `M_PREPEND(m, cs->cs_hlen, M_DONTWAIT)` and the copy of the header: in the
space in front of the data, or in a new mbuf with the memory `mget`.
Source: sl_muncompress_tcp; mbuf.h, M_PREPEND -/
def prepended (m : Chain) (cs : Rstate) (cp : ℕ) (mget : Option Mem) : Option Chain :=
  let data := { m with mem := fun i => m.mem (cp + i), len := m.len - cp }
  let pkthdrLen := m.pkthdrLen - BitVec.ofNat 32 cp + BitVec.ofNat 32 cs.csHlen
  if cs.csHlen ≤ m.space then
    some
      { mem := fun i => if i < cs.csHlen then cs.csHdr i else data.mem (i - cs.csHlen)
        len := data.len + cs.csHlen
        rest := m.rest
        pkthdrLen := pkthdrLen
        space := m.space - cs.csHlen }
  else
    mget.map fun new =>
      { mem := fun i => if i < cs.csHlen then cs.csHdr i else new i
        len := cs.csHlen
        rest := data.bytes
        pkthdrLen := pkthdrLen
        space := 0 }

/-- `case TYPE_COMPRESSED_TCP`, once the state is chosen. `ip_len` is stored only when the space
for the header was found.
Source: sl_muncompress_tcp -/
def mrecvCompressed (m : Chain) (mget : Option Mem) (comp : Slcompress) (cp : ℕ) :
    Except Fault Mreceived :=
  match slot? comp.lastRecv with
  | none => .error (.rstateIndex comp.lastRecv)
  | some i =>
    let cs := comp.rstate i
    let hlen := th cs.csHdr
    let d := decodeHeader m.mem cs.csHdr cs.csHlen cp (m.mem 0)
    let short := bad (setRstate comp i { cs with csHdr := d.1 })
    if m.len < d.2 then .ok { m := none, comp := short }
    else
      let len := m.pkthdrLen - BitVec.ofNat 32 d.2 + BitVec.ofNat 32 cs.csHlen
      let cs' := { cs with csHdr := set16 d.1 2 (len.setWidth 16) }
      match prepended m cs' d.2 mget with
      | none => .ok { m := none, comp := short }
      | some out =>
        if maxHdr < cs.csHlen then .error (.overrun cs.csHlen)
        else .ok
          { m := some { out with mem := setIpSum out.mem hlen }
            comp := setRstate comp i cs' }

/-- `sl_muncompress_tcp`; `mget` is the memory of the mbuf an allocation would give, if it
succeeds.
Source: sl_muncompress_tcp -/
def slMuncompressTcp (m : Chain) (mget : Option Mem) (type : BitVec 32) (comp : Slcompress) :
    Except Fault Mreceived :=
  if type = typeUncompressedTcp then mrecvUncompressed m comp
  else if type = typeCompressedTcp then
    match selectState m.mem comp with
    | .bad => .ok { m := none, comp := bad comp }
    | .tossed => .ok { m := none, comp := comp }
    | .go comp cp => mrecvCompressed m mget comp cp
  else .ok { m := none, comp := bad comp }

end Bsd386.Net.Slcompress
