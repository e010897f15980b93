import Bsd386.Lib.Bytes
import Mathlib.Data.Int.Notation
import Mathlib.Algebra.Ring.Nat

/-!
# A BPF descriptor and its buffers

`struct bpf_d` with its two buffers, `catchpacket` at interrupt level, and the calls that processes make on
the descriptor: `bpfread`, which may sleep in `tsleep` and in `uiomove`, `BIOCFLUSH`, `BIOCSETF`, `BIOCSBLEN`
and `BIOCSETIF`, which may sleep in `malloc`. A step is what runs without a sleep and without letting
interrupts in; a process in the middle of a call is where its `Pc` says.

Lengths are numbers: none comes near 2^31. What a filter is stays out: a packet comes with the snapshot
length that the filter returned for it.

Source: `sys/net/bpf.c`.
-/

namespace Bsd386.Net.Bpf.Device

open Lib

/-! ## Bytes of a record -/

/-- `BPF_WORDALIGN`. -/
def wordAlign (x : ℕ) : ℕ := (x + 3) / 4 * 4

/-- `SIZEOF_BPF_HDR`. -/
def sizeofBpfHdr : ℕ := 18

/-- `bif_hdrlen` for the size of a link header. Source: bpfattach -/
def bifHdrlen (linkHdrlen : ℕ) : ℕ := wordAlign (linkHdrlen + sizeofBpfHdr) - linkHdrlen

/-- Byte `k` of a number in host order. -/
def leByte (v k : ℕ) : Bytes.Byte := BitVec.ofNat 8 (v / 256 ^ k)

/-- A `struct bpf_hdr` with the time stamp `t`. Source: bpf.h struct bpf_hdr -/
def bpfHdr (t : Bytes.Mem) (caplen datalen hdrlen : ℕ) : List Bytes.Byte :=
  [t 0, t 1, t 2, t 3, t 4, t 5, t 6, t 7,
    leByte caplen 0, leByte caplen 1, leByte caplen 2, leByte caplen 3,
    leByte datalen 0, leByte datalen 1, leByte datalen 2, leByte datalen 3,
    leByte hdrlen 0, leByte hdrlen 1]

/-- Store bytes at `k`. -/
def store (m : Bytes.Mem) (k : ℕ) (bs : List Bytes.Byte) : Bytes.Mem :=
  fun i => if k ≤ i then bs.getD (i - k) (m i) else m i

/-! ## The descriptor -/

/-- A buffer: the size it was allocated with, and its bytes. -/
structure Buffer where
  size : ℕ
  data : Bytes.Mem

/-- Descriptor associated with each open bpf file. The buffer slots hold numbers of buffers; of the
interface there is its `bif_hdrlen`.
Source: bpfdesc.h struct bpf_d -/
structure BpfD where
  sbuf : Option ℕ
  hbuf : Option ℕ
  fbuf : Option ℕ
  slen : ℕ
  hlen : ℕ
  bufsize : ℕ
  bdBif : Option ℕ
  rcount : ℕ
  dcount : ℕ
  immediate : Bool

/-- Where a process is. -/
inductive Pc where
  | idle
  /-- `bpfread` in `tsleep`. -/
  | sleeping
  /-- `bpfread` in `uiomove`, interrupts let in. -/
  | copying
  /-- `bpf_allocbufs` in its first `malloc`, of this size. -/
  | allocF (hdrlen size : ℕ)
  /-- `bpf_allocbufs` in its second `malloc`. -/
  | allocS (hdrlen size : ℕ)
  /-- `bpf_allocbufs` before `bd_slen = 0`. -/
  | clearS (hdrlen : ℕ)
  /-- `bpf_allocbufs` before `bd_hlen = 0`. -/
  | clearH (hdrlen : ℕ)
  /-- `bpf_setif` before `splimp`. -/
  | attach (hdrlen : ℕ)
deriving DecidableEq

/-- A packet that is caught: its time stamp, the snapshot length, and its bytes.
Source: catchpacket -/
structure Caught where
  tstamp : Bytes.Mem
  snaplen : ℕ
  pkt : List Bytes.Byte

/-- The descriptor and the memory it uses. `scaught` and `hcaught` are for the proofs: what has been caught
for the store and the hold buffer. -/
structure Bufs where
  d : BpfD
  heap : ℕ → Buffer
  fresh : ℕ
  scaught : List Caught
  hcaught : List Caught

/-- That, and the processes. -/
structure State where
  m : Bufs
  pc : ℕ → Pc

/-- Source: bpfopen -/
def start : State where
  m := ⟨⟨none, none, none, 0, 0, 4096, none, 0, 0, false⟩, fun _ => ⟨0, fun _ => 0⟩, 0, [], []⟩
  pc _ := .idle

/-! ## What is done to the buffers -/

/-- Rotate the packet buffers. Source: ROTATE_BUFFERS -/
def rotateBuffers (m : Bufs) : Bufs :=
  { m with
    d := { m.d with hbuf := m.d.sbuf, hlen := m.d.slen, sbuf := m.d.fbuf, slen := 0, fbuf := none }
    hcaught := m.scaught
    scaught := [] }

/-- Reset a descriptor by flushing its packet buffer and clearing the receive and drop counts.
Source: reset_d -/
def resetD (m : Bufs) : Bufs :=
  { m with
    d := { m.d with
      fbuf := if m.d.hbuf.isSome then m.d.hbuf else m.d.fbuf
      hbuf := none
      slen := 0
      hlen := 0
      rcount := 0
      dcount := 0 }
    scaught := []
    hcaught := [] }

/-- What `catchpacket` stores: the bpf header, and the packet data behind it.
Source: catchpacket -/
def putRecord (m : Bytes.Mem) (k : ℕ) (t : Bytes.Mem) (caplen datalen hdrlen : ℕ)
    (data : List Bytes.Byte) : Bytes.Mem :=
  store (store m k (bpfHdr t caplen datalen hdrlen)) (k + hdrlen) data

/-- Append the bpf header and the packet data to the store buffer and update its length. A store through a
null `bd_sbuf` is not followed further.
Source: catchpacket -/
def append (m : Bufs) (hdrlen curlen totlen : ℕ) (c : Caught) : Bufs :=
  let caplen : ℤ := totlen - hdrlen
  { m with
    d := { m.d with slen := curlen + totlen }
    heap := fun b =>
      if m.d.sbuf = some b then
        { m.heap b with
          data := putRecord (m.heap b).data curlen c.tstamp (BitVec.ofInt 32 caplen).toNat c.pkt.length
            hdrlen (c.pkt.take caplen.toNat) }
      else m.heap b
    scaught := m.scaught ++ [c] }

/-- How many bytes to move: the header, and as much of the packet as the snapshot length and the buffer size
let through.
Source: catchpacket -/
def totlen (bufsize hdrlen : ℕ) (c : Caught) : ℕ :=
  let totlen := hdrlen + min c.snaplen c.pkt.length
  if bufsize < totlen then bufsize else totlen

/-- Move the packet data from interface memory into the store buffer.
Source: catchpacket -/
def catchpacket (m : Bufs) (hdrlen : ℕ) (c : Caught) : Bufs :=
  let totlen := totlen m.d.bufsize hdrlen c
  let curlen := wordAlign m.d.slen
  if m.d.bufsize < curlen + totlen then
    if m.d.fbuf = none then { m with d := { m.d with dcount := m.d.dcount + 1 } }
    else append (rotateBuffers m) hdrlen 0 totlen c
  else append m hdrlen curlen totlen c

/-- `bpf_tap` for one descriptor: count the packet, and catch it if the filter accepts it.
Source: bpf_tap -/
def bpfTap (m : Bufs) (c : Caught) : Bufs :=
  match m.d.bdBif with
  | none => m
  | some hdrlen =>
    let m := { m with d := { m.d with rcount := m.d.rcount + 1 } }
    if c.snaplen = 0 then m else catchpacket m hdrlen c

/-- `BPF_MAXBUFSIZE` and `BPF_MINBUFSIZE`. Source: bpfioctl -/
def clampSize (size : ℕ) : ℕ := if 32768 < size then 32768 else if size < 32 then 32 else size

/-- `BIOCSBLEN`. Source: bpfioctl -/
def setBlen (m : Bufs) (size : ℕ) : Bufs :=
  if m.d.bdBif.isSome then m else { m with d := { m.d with bufsize := clampSize size } }

def malloc (m : Bufs) (size : ℕ) : Bufs :=
  { m with
    heap := fun b => if b = m.fresh then ⟨size, fun _ => 0⟩ else m.heap b
    fresh := m.fresh + 1 }

/-! ## Processes -/

/-- Process `p` is at `pc` from here on. -/
def goto (s : State) (p : ℕ) (pc : Pc) : State :=
  { s with pc := fun q => if q = p then pc else s.pc q }

/-- Process `p` has changed the buffers and is at `pc`. -/
def moved (s : State) (m : Bufs) (p : ℕ) (pc : Pc) : State := goto { s with m := m } p pc

/-- The loop of `bpfread`, until it sleeps, returns or has something in the hold slot.
Source: bpfread -/
def readLoop (s : State) (p : ℕ) (ndelay : Bool) : State :=
  if s.m.d.hbuf.isSome then goto s p .copying
  else if ndelay then
    if s.m.d.slen = 0 then goto s p .idle else moved s (rotateBuffers s.m) p .copying
  else if s.m.d.immediate = true ∧ s.m.d.slen ≠ 0 then moved s (rotateBuffers s.m) p .copying
  else goto s p .sleeping

/-- How `tsleep` ends. Source: bpfread -/
inductive Wake where
  | woken
  | wouldblock
  | interrupted
deriving DecidableEq

/-- `bpfread` after `tsleep`. Source: bpfread -/
def wake (s : State) (p : ℕ) : Wake → State
  | .woken => readLoop s p false
  | .wouldblock =>
    if s.m.d.hbuf.isSome then goto s p .copying
    else if s.m.d.slen = 0 then goto s p .idle
    else moved s (rotateBuffers s.m) p .copying
  | .interrupted => goto s p .idle

/-- `bpfread` after `uiomove`. Source: bpfread -/
def freeHold (m : Bufs) : Bufs :=
  { m with d := { m.d with fbuf := m.d.hbuf, hbuf := none, hlen := 0 }, hcaught := [] }

/-- `BIOCSETIF` for an interface that is up: allocate the packet buffers if we need to.
Source: bpf_setif -/
def setif (s : State) (p hdrlen : ℕ) : State :=
  if s.m.d.sbuf = none then goto s p (.allocF hdrlen s.m.d.bufsize) else goto s p (.attach hdrlen)

/-- `BIOCSETIF` goes on. Source: bpf_allocbufs, bpf_setif -/
def goOn (s : State) (p : ℕ) : State :=
  let d := s.m.d
  match s.pc p with
  | .allocF hdrlen size =>
    moved s { malloc s.m size with d := { d with fbuf := some s.m.fresh } } p (.allocS hdrlen d.bufsize)
  | .allocS hdrlen size =>
    moved s { malloc s.m size with d := { d with sbuf := some s.m.fresh } } p (.clearS hdrlen)
  | .clearS hdrlen => moved s { s.m with d := { d with slen := 0 }, scaught := [] } p (.clearH hdrlen)
  | .clearH hdrlen => moved s { s.m with d := { d with hlen := 0 }, hcaught := [] } p (.attach hdrlen)
  | .attach hdrlen => moved s (resetD { s.m with d := { d with bdBif := some hdrlen } }) p .idle
  | _ => s

/-! ## Steps -/

/-- What happens. -/
inductive Event where
  /-- A packet, at interrupt level. -/
  | tap (c : Caught)
  /-- Process `p` calls `bpfread`, with `IO_NDELAY` or not. -/
  | read (p : ℕ) (ndelay : Bool)
  /-- `tsleep` ends. -/
  | wake (p : ℕ) (w : Wake)
  /-- `uiomove` ends. -/
  | readDone (p : ℕ)
  /-- `BIOCFLUSH`, or `BIOCSETF` where it sets the filter. -/
  | reset
  /-- `BIOCSBLEN`. -/
  | setBlen (size : ℕ)
  /-- `BIOCIMMEDIATE`. -/
  | immediate (b : Bool)
  /-- Process `p` calls `BIOCSETIF`, for an interface with this link header. -/
  | setif (p linkHdrlen : ℕ)
  /-- `malloc` returns to process `p`, or it goes on in `BIOCSETIF`. -/
  | goOn (p : ℕ)

/-- A step. What a process does only from another place changes nothing. -/
def step (s : State) : Event → State
  | .tap c => { s with m := bpfTap s.m c }
  | .read p ndelay => if s.pc p = .idle then readLoop s p ndelay else s
  | .wake p w => if s.pc p = .sleeping then wake s p w else s
  | .readDone p => if s.pc p = .copying then moved s (freeHold s.m) p .idle else s
  | .reset => { s with m := resetD s.m }
  | .setBlen size => { s with m := setBlen s.m size }
  | .immediate b => { s with m := { s.m with d := { s.m.d with immediate := b } } }
  | .setif p linkHdrlen => if s.pc p = .idle then setif s p (bifHdrlen linkHdrlen) else s
  | .goOn p => goOn s p

end Bsd386.Net.Bpf.Device
