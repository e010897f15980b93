import Bsd386.Net.Tcp.Basic
import Mathlib.Algebra.Ring.Nat

/-!
# TCP output

`tcp_output` from `again:` to its end, as one pass: what is to be sent (`planSend`), whether it is
worth a segment (`wantsSend`), the segment with its data (`attach`, `header`), and what the control
block becomes (`advance`). A call is as many passes as `sendalot` asks for (`tcpOutput`).

What the machine decides is an argument (`Outcome`): which allocations of mbufs succeed, what
`sbspace` of the receive buffer is, what `tcp_mss` finds out about the route, and what `ip_output`
returns. A packet is handed to `ip_output` whatever that returns. The two panics, for a missing
`t_template` and for a persist timer started over a retransmit timer, are left out.
-/

namespace Bsd386.Net.Tcp

/-! ## What is to be sent -/

/-- `tcp_outflags`: flags used when sending segments. -/
def tcpOutflags : TcpState → Flags
  | .closed => ⟨false, false, true, false, true, false⟩
  | .listen => ⟨false, false, false, false, false, false⟩
  | .synSent => ⟨false, true, false, false, false, false⟩
  | .synReceived => ⟨false, true, false, false, true, false⟩
  | .finWait1 | .closing | .lastAck => ⟨true, false, false, false, true, false⟩
  | .established | .closeWait | .finWait2 | .timeWait =>
    ⟨false, false, false, false, true, false⟩

/-- The length and flags of a segment before it is built. `off` is where its data begins in the send
buffer.
Source: tcp_output -/
structure Plan where
  off : BitVec 32
  len : ℕ
  flags : Flags
  sendalot : Bool
deriving DecidableEq

/-- In persist timeout with window of 0, send 1 byte; with a small window send what we can and go to
transmit state.
Source: tcp_output -/
def forceWin (tp : Tcpcb) (win : ℕ) : Tcpcb × ℕ :=
  if tp.tForce then
    if win = 0 then (tp, 1)
    else ({ tp with tTimer := { tp.tTimer with persist := 0 }, tRxtshift := 0 }, win)
  else (tp, win)

/-- If the window shrank to 0 after we sent into it, cancel pending retransmit and pull `snd_nxt` back.
Source: tcp_output -/
def pullBack (tp : Tcpcb) (len : ℤ) (win : ℕ) : Tcpcb :=
  if len < 0 ∧ win = 0 then
    { tp with tTimer := { tp.tTimer with rexmt := 0 }, sndNxt := tp.sndUna }
  else tp

/-- Determine length of data that should be transmitted, and flags that will be used.
Source: tcp_output -/
def planSend (c : Conn) : Tcpcb × Plan :=
  let off := c.tp.sndNxt - c.tp.sndUna
  let f := forceWin c.tp (min c.tp.sndWnd.toNat c.tp.sndCwnd.toNat)
  let len := (BitVec.ofNat 32 (min c.so.soSnd.length f.2) - off).toInt
  let tp := pullBack f.1 len f.2
  let sendalot : Bool := (tp.tMaxseg.toNat : ℤ) < len
  let n := if sendalot then tp.tMaxseg.toNat else len.toNat
  let flags := tcpOutflags tp.tState
  let before := seqLt (tp.sndNxt + BitVec.ofNat 32 n) (tp.sndUna + BitVec.ofNat 32 c.so.soSnd.length)
  (tp, { off := off, len := n, flags := { flags with fin := flags.fin && !before },
         sendalot := sendalot })

/-- Sender silly window avoidance, window updates, and what must be sent anyway. `win` is `sbspace` of
the receive buffer.
Source: tcp_output -/
def wantsSend (tp : Tcpcb) (so : Socket) (p : Plan) (idle : Bool) (win : ℤ) : Bool :=
  let adv := (BitVec.ofInt 32 win - (tp.rcvAdv - tp.rcvNxt)).toInt
  (p.len ≠ 0 &&
    (p.len = tp.tMaxseg.toNat ||
      (idle || tp.tfNodelay) && so.soSnd.length ≤ (BitVec.ofNat 32 p.len + p.off).toNat ||
      tp.tForce || tp.maxSndwnd.toNat / 2 ≤ p.len || seqLt tp.sndNxt tp.sndMax)) ||
  (0 < win && (2 * (tp.tMaxseg.toNat : ℤ) ≤ adv || so.rcvHiwat.toInt ≤ 2 * adv)) ||
  tp.tfAcknow || p.flags.syn || p.flags.rst || seqGt tp.sndUp tp.sndUna ||
  p.flags.fin && (!tp.tfSentfin || tp.sndNxt = tp.sndUna)

/-! ## When nothing is sent -/

/-- `tcp_backoff`. -/
def tcpBackoff (shift : ℕ) : ℕ := if shift < 6 then 2 ^ shift else 64

/-- `TCPT_RANGESET` for values that a short holds. -/
def rangeset (value tvmin tvmax : ℤ) : BitVec 16 :=
  let tv := BitVec.ofInt 16 value
  if tv.toInt < tvmin then BitVec.ofInt 16 tvmin
  else if tvmax < tv.toInt then BitVec.ofInt 16 tvmax
  else tv

/-- Start/restart persistance timer. Source: tcp_setpersist -/
def tcpSetpersist (tp : Tcpcb) : Tcpcb :=
  let t := (tp.tSrtt.toInt / 4 + tp.tRttvar.toInt) / 2
  { tp with
    tTimer := { tp.tTimer with
      persist := rangeset (t * tcpBackoff tp.tRxtshift.toNat) 10 120 }
    tRxtshift := if tp.tRxtshift.toInt < 12 then tp.tRxtshift + 1 else tp.tRxtshift }

/-- No reason to send a segment; go to persist state if there is data and no timer is set.
Source: tcp_output -/
def noSend (tp : Tcpcb) (so : Socket) : Tcpcb :=
  if so.soSnd ≠ [] ∧ tp.tTimer.rexmt = 0 ∧ tp.tTimer.persist = 0 then
    tcpSetpersist { tp with tRxtshift := 0 }
  else tp

/-! ## The segment -/

/-- What `tcp_mss` leaves in the control block and the receive buffer.
Source: tcp_mss -/
structure Mss where
  tMaxseg : BitVec 16
  sndCwnd : BitVec 16
  sndSsthresh : BitVec 16
  tSrtt : BitVec 16
  tRttvar : BitVec 16
  tRttmin : BitVec 16
  tRxtcur : BitVec 16
  rcvHiwat : BitVec 32

/-- What `ip_output` returns. Source: ip_output -/
inductive IpError where
  | none
  | enobufs
  /-- `EHOSTUNREACH` or `ENETDOWN`, with its number. -/
  | unreach (errno : ℕ)
  | other
deriving DecidableEq

/-- What the machine decides in one pass: whether `MGETHDR` and `m_copy` find mbufs, `max_linkhdr`,
`sbspace` of the receive buffer, what `tcp_mss` does, and what `ip_output` returns.
Source: tcp_output -/
structure Outcome where
  mgethdr : Bool
  mCopy : Bool
  maxLinkhdr : ℕ
  space : ℤ
  mss : Mss
  ipOutput : IpError

/-- Source: tcp_mss -/
def tcpMss (tp : Tcpcb) (m : Mss) : Tcpcb :=
  { tp with
    tMaxseg := m.tMaxseg
    sndCwnd := m.sndCwnd
    sndSsthresh := m.sndSsthresh
    tSrtt := m.tSrtt
    tRttvar := m.tRttvar
    tRttmin := m.tRttmin
    tRxtcur := m.tRxtcur }

/-- `MHLEN`. -/
def mhlen : ℤ := 100

/-- The data of the segment: in the header mbuf if it fits there, else copied by `m_copy`. When the
copy fails the segment goes without data.
Source: tcp_output -/
def attach (snd : List UInt8) (p : Plan) (optlen : ℕ) (o : Outcome) : List UInt8 :=
  if (p.len : ℤ) ≤ mhlen - (40 + optlen) - o.maxLinkhdr ∨ o.mCopy then
    (snd.drop p.off.toNat).take p.len
  else []

/-- Source: tcp_quench -/
def tcpQuench (tp : Tcpcb) : Tcpcb := { tp with sndCwnd := tp.tMaxseg }

/-- If resending a FIN, be sure not to use a new sequence number.
Source: tcp_output -/
def resendFin (tp : Tcpcb) (fin : Bool) : Tcpcb :=
  if fin ∧ tp.tfSentfin ∧ tp.sndNxt = tp.sndMax then { tp with sndNxt := tp.sndNxt - 1 } else tp

/-- Calculate receive window. Don't shrink window, but avoid silly window syndrome.
Source: tcp_output -/
def recvWindow (tp : Tcpcb) (hiwat : BitVec 32) (win : ℤ) : ℤ :=
  let win := if win < hiwat.toNat / 4 ∧ win < tp.tMaxseg.toNat then 0 else win
  let win := if 65535 < win then 65535 else win
  if win < (tp.rcvAdv - tp.rcvNxt).toInt then (tp.rcvAdv - tp.rcvNxt).toInt else win

/-- The header and data of a segment. Source: tcp_output -/
def segment (tp : Tcpcb) (flags : Flags) (optlen : ℕ) (win : ℤ) (data : List UInt8) : Tcpiphdr :=
  let urgent := seqGt tp.sndUp tp.sndNxt
  { seq := if data ≠ [] ∨ flags.syn ∨ flags.fin ∨ tp.tTimer.persist ≠ 0 then tp.sndNxt else tp.sndMax
    ack := tp.rcvNxt
    len := BitVec.ofNat 16 (20 + optlen + data.length)
    flags := { flags with urg := flags.urg || urgent }
    win := BitVec.ofInt 16 win
    urp := if urgent then (tp.sndUp - tp.sndNxt).setWidth 16 else 0
    data := data }

/-! ## The control block afterwards -/

/-- If no urgent pointer to send, drag it along. Source: tcp_output -/
def dragUrgent (tp : Tcpcb) : Tcpcb :=
  if seqGt tp.sndUp tp.sndNxt then tp else { tp with sndUp := tp.sndUna }

/-- `snd_max` goes up to `snd_nxt`, and the transmission is timed.
Source: tcp_output -/
def raiseMax (tp : Tcpcb) (startseq : BitVec 32) : Tcpcb :=
  if seqGt tp.sndNxt tp.sndMax then
    let tp := { tp with sndMax := tp.sndNxt }
    if tp.tRtt = 0 then { tp with tRtt := 1, tRtseq := startseq } else tp
  else tp

/-- Set retransmit timer if not currently set, and not doing an ack or a keep-alive probe.
Source: tcp_output -/
def setRexmt (tp : Tcpcb) : Tcpcb :=
  if tp.tTimer.rexmt = 0 ∧ tp.sndNxt ≠ tp.sndUna then
    let tp := { tp with tTimer := { tp.tTimer with rexmt := tp.tRxtcur } }
    if tp.tTimer.persist ≠ 0 then
      { tp with tTimer := { tp.tTimer with persist := 0 }, tRxtshift := 0 }
    else tp
  else tp

/-- In transmit state, advance `snd_nxt` over the sequence space of the segment and arrange for the
retransmit. In persist state, just set `snd_max`.
Source: tcp_output -/
def advance (tp : Tcpcb) (flags : Flags) (len : ℕ) : Tcpcb :=
  if tp.tForce = false ∨ tp.tTimer.persist = 0 then
    let syn := if flags.syn then 1 else 0
    let fin := if flags.fin then 1 else 0
    setRexmt (raiseMax
      { tp with
        sndNxt := tp.sndNxt + syn + fin + BitVec.ofNat 32 len
        tfSentfin := tp.tfSentfin || flags.fin } tp.sndNxt)
  else if seqGt (tp.sndNxt + BitVec.ofNat 32 len) tp.sndMax then
    { tp with sndMax := tp.sndNxt + BitVec.ofNat 32 len }
  else tp

/-- What follows `ip_output`. Source: tcp_output -/
def sent (tp : Tcpcb) (win : ℤ) : IpError → Tcpcb
  | .none =>
    { tp with
      rcvAdv := if 0 < win ∧ seqGt (tp.rcvNxt + BitVec.ofInt 32 win) tp.rcvAdv then
        tp.rcvNxt + BitVec.ofInt 32 win else tp.rcvAdv
      tfAcknow := false
      tfDelack := false }
  | .enobufs => tcpQuench tp
  | .unreach errno => if tp.tState.haveRcvdSyn then { tp with tSofterror := errno } else tp
  | .other => tp

/-! ## One pass, and a call -/

/-- What a pass leaves: the connection, the segment handed to `ip_output`, and whether to go to
`again`.
Source: tcp_output -/
structure Pass where
  conn : Conn
  segment : Option Tcpiphdr
  again : Bool

/-- What stands at `send:`, with the control block and plan found before.
Source: tcp_output -/
def send (tp : Tcpcb) (so : Socket) (p : Plan) (o : Outcome) : Pass :=
  let options : Bool := p.flags.syn && !tp.tfNoopt
  let optlen := if options then 4 else 0
  let tp := if p.flags.syn then { tp with sndNxt := tp.iss } else tp
  let tp := if options then tcpMss tp o.mss else tp
  let so := if options then { so with rcvHiwat := o.mss.rcvHiwat } else so
  if o.mgethdr = false then { conn := ⟨tcpQuench tp, so⟩, segment := none, again := false }
  else
    let data := attach so.soSnd p optlen o
    let flags := { p.flags with push := p.flags.push ||
      p.len ≠ 0 && p.off + BitVec.ofNat 32 data.length = BitVec.ofNat 32 so.soSnd.length }
    let tp := resendFin tp flags.fin
    let win := recvWindow tp so.rcvHiwat o.space
    let ti := segment tp flags optlen win data
    let tp := sent (advance (dragUrgent tp) flags data.length) win o.ipOutput
    { conn := ⟨tp, so⟩, segment := some ti, again := p.sendalot && o.ipOutput = .none }

/-- One pass from `again:` on. `idle` is found once for the call.
Source: tcp_output -/
def pass (idle : Bool) (c : Conn) (o : Outcome) : Pass :=
  let s := planSend c
  if wantsSend s.1 c.so s.2 idle o.space then send s.1 c.so s.2 o
  else { conn := ⟨noSend s.1 c.so, c.so⟩, segment := none, again := false }

/-- After being idle for "a while", slow start to get ack "clock" running again.
Source: tcp_output -/
def slowStart (c : Conn) : Conn :=
  if c.tp.sndMax = c.tp.sndUna ∧ c.tp.tRxtcur.toInt ≤ c.tp.tIdle.toInt then
    { c with tp := { c.tp with sndCwnd := c.tp.tMaxseg } }
  else c

/-- The passes of a call, one for each outcome, until one does not ask for another; and the segments
handed to `ip_output`.
Source: tcp_output -/
def passes (idle : Bool) (c : Conn) : List Outcome → Conn × List Tcpiphdr
  | [] => (c, [])
  | o :: os =>
    let r := pass idle c o
    if r.again then
      let rest := passes idle r.conn os
      (rest.1, r.segment.toList ++ rest.2)
    else (r.conn, r.segment.toList)

/-- Tcp output routine: figure out what should be sent and send it.
Source: tcp_output -/
def tcpOutput (c : Conn) (os : List Outcome) : Conn × List Tcpiphdr :=
  passes (c.tp.sndMax = c.tp.sndUna) (slowStart c) os

end Bsd386.Net.Tcp
