import Bsd386.Lib.Transition
import Bsd386.Net.Tcp.Output

/-!
# The sending side of a connection

Everything that changes the send sequence variables, the state or the send buffer of a connection:
calls of `tcp_output`, acknowledgements, the retransmit timer, data and closing from the user, and the
FIN of the peer. What changes none of these (`SameSend`) is one kind of step, whatever it is: windows,
timers, the receive side, options.

A connection that `tcp_close` discards takes no further step, so that the steps to it are not here.
-/

namespace Bsd386.Net.Tcp

/-! ## What a step is about -/

/-- The send sequence variables, whether the FIN was sent, and the state.
Source: tcp_var.h struct tcpcb -/
structure Core where
  tState : TcpState
  tfSentfin : Bool
  iss : BitVec 32
  sndUna : BitVec 32
  sndNxt : BitVec 32
  sndMax : BitVec 32

def Tcpcb.core (tp : Tcpcb) : Core :=
  ⟨tp.tState, tp.tfSentfin, tp.iss, tp.sndUna, tp.sndNxt, tp.sndMax⟩

/-- Two connections with the same send side. -/
def SameSend (c c' : Conn) : Prop := c'.tp.core = c.tp.core ∧ c'.so.soSnd = c.so.soSnd

/-! ## Acknowledgements -/

/-- `SYN_SENT`: a SYN with an acknowledgement of ours, or without one.
Source: tcp_input -/
def synSentInput (c : Conn) (ack : Option (BitVec 32)) : Conn :=
  match ack with
  | none => { c with tp := { c.tp with tState := .synReceived } }
  | some a =>
    { c with tp := { c.tp with
        sndUna := a
        sndNxt := if seqLt c.tp.sndNxt a then a else c.tp.sndNxt
        tState := if seqGt a c.tp.iss then .established else .synReceived } }

/-- The state after the data and FIN acknowledged have been dropped.
Source: tcp_input -/
def ackedState (s : TcpState) (ourfinisacked : Bool) : TcpState :=
  if ourfinisacked then
    match s with
    | .finWait1 => .finWait2
    | .closing => .timeWait
    | .lastAck => .closed
    | s => s
  else s

/-- New data is acknowledged: drop it from the send buffer and advance `snd_una`. The header prediction
for pure acks does the same to the send side.
Source: tcp_input -/
def ackInput (c : Conn) (ack : BitVec 32) : Conn :=
  let acked := (ack - c.tp.sndUna).toNat
  let ourfinisacked : Bool := c.so.soSnd.length < acked
  let n := if ourfinisacked then c.so.soSnd.length else acked
  { tp := { c.tp with
      sndWnd := c.tp.sndWnd - BitVec.ofNat 16 n
      sndUna := ack
      sndNxt := if seqLt c.tp.sndNxt ack then ack else c.tp.sndNxt
      tState := ackedState c.tp.tState ourfinisacked }
    so := { c.so with soSnd := c.so.soSnd.drop n } }

/-- `tcprexmtthresh` duplicate acks: `snd_nxt` goes back for one packet.
Source: tcp_input -/
def fastRexmtStart (c : Conn) : Conn :=
  let win := min c.tp.sndWnd.toNat c.tp.sndCwnd.toNat / 2 / c.tp.tMaxseg.toNat
  let win := if win < 2 then 2 else win
  { c with tp := { c.tp with
      sndSsthresh := BitVec.ofNat 16 (win * c.tp.tMaxseg.toNat)
      tTimer := { c.tp.tTimer with rexmt := 0 }
      tRtt := 0
      sndNxt := c.tp.sndUna
      sndCwnd := c.tp.tMaxseg } }

/-- After that packet, `snd_nxt` goes on from where it was.
Source: tcp_input -/
def fastRexmtEnd (onxt : BitVec 32) (c : Conn) : Conn :=
  { c with tp := { c.tp with
      sndCwnd := c.tp.sndSsthresh + c.tp.tMaxseg * c.tp.tDupacks
      sndNxt := if seqGt onxt c.tp.sndNxt then onxt else c.tp.sndNxt } }

/-! ## The user and the peer -/

/-- `tcp_usrclosed` where the control block remains.
Source: tcp_usrclosed -/
def usrclosedState : TcpState → TcpState
  | .synReceived | .established => .finWait1
  | .closeWait => .lastAck
  | s => s

/-- The state after a FIN of the peer. Source: tcp_input -/
def finRcvdState : TcpState → TcpState
  | .synReceived | .established => .closeWait
  | .finWait1 => .closing
  | .finWait2 => .timeWait
  | s => s

/-- The most that the send buffer holds: `SB_MAX`, and 1024 that `sosend` adds for out-of-band data.
Source: socketvar.h SB_MAX; sosend -/
def sndLimit : ℕ := 65536 + 1024

/-! ## Steps -/

/-- What happens to the send side of a connection. -/
inductive Event where
  /-- A call of `tcp_output`, with what the machine decides in its passes. -/
  | output (os : List Outcome)
  /-- Anything that leaves the send side as it is. -/
  | other
  /-- A SYN in `SYN_SENT`. -/
  | synSent (ack : Option (BitVec 32))
  /-- An acceptable acknowledgement in `SYN_RECEIVED`. -/
  | synReceived (ack : BitVec 32)
  /-- An acknowledgement of something new. -/
  | ack (ack : BitVec 32)
  /-- The retransmit timer sets `snd_nxt` back; `tcp_output` is called after it. -/
  | rexmt
  /-- The third duplicate acknowledgement, with the call of `tcp_output` in it. -/
  | fastRexmt (os : List Outcome)
  /-- `sbappend` in `PRU_SEND` and `PRU_SENDOOB`. -/
  | append (m : List UInt8)
  /-- `tcp_usrclosed`. -/
  | usrclosed
  /-- A FIN of the peer. -/
  | finRcvd
  /-- `tcp_drop` before it calls `tcp_output` and closes. -/
  | drop

/-- A step of the send side. Source: tcp_input.c, tcp_output.c, tcp_timer.c,
`tcp_usrreq.c`, `tcp_subr.c` -/
inductive Next (c : Conn) : Event → Conn → Prop where
  | output (os : List Outcome) : Next c (.output os) (tcpOutput c os).1
  | other {c' : Conn} : SameSend c c' → Next c .other c'
  | synSent (ack : Option (BitVec 32)) : c.tp.tState = .synSent →
      (∀ a, ack = some a → seqLeq a c.tp.iss = false ∧ seqGt a c.tp.sndMax = false) →
      Next c (.synSent ack) (synSentInput c ack)
  | synReceived (ack : BitVec 32) : c.tp.tState = .synReceived →
      seqGt c.tp.sndUna ack = false → seqGt ack c.tp.sndMax = false →
      Next c (.synReceived ack) { c with tp := { c.tp with tState := .established } }
  | ack (ack : BitVec 32) : TcpState.established.num ≤ c.tp.tState.num →
      seqLeq ack c.tp.sndUna = false → seqGt ack c.tp.sndMax = false →
      Next c (.ack ack) (ackInput c ack)
  | rexmt : Next c .rexmt { c with tp := { c.tp with sndNxt := c.tp.sndUna } }
  | fastRexmt (os : List Outcome) : TcpState.established.num ≤ c.tp.tState.num →
      Next c (.fastRexmt os) (fastRexmtEnd c.tp.sndNxt (tcpOutput (fastRexmtStart c) os).1)
  | append (m : List UInt8) : TcpState.established.num ≤ c.tp.tState.num →
      c.so.soSnd.length + m.length ≤ sndLimit →
      Next c (.append m) { c with so := { c.so with soSnd := c.so.soSnd ++ m } }
  | usrclosed :
      Next c .usrclosed { c with tp := { c.tp with tState := usrclosedState c.tp.tState } }
  | finRcvd :
      Next c .finRcvd { c with tp := { c.tp with tState := finRcvdState c.tp.tState } }
  | drop : Next c .drop { c with tp := { c.tp with tState := .closed } }

/-- A connection before anything was sent: a new control block, or one after `tcp_sendseqinit`.
Source: tcp_newtcpcb; tcp_seq.h tcp_sendseqinit -/
structure Fresh (c : Conn) : Prop where
  tState : c.tp.tState.num ≤ TcpState.synReceived.num
  tfSentfin : c.tp.tfSentfin = false
  sndUna : c.tp.sndUna = c.tp.iss
  sndNxt : c.tp.sndNxt = c.tp.iss
  sndMax : c.tp.sndMax = c.tp.iss
  soSnd : c.so.soSnd = []

/-- The connections that are reached by steps that meet a condition. -/
abbrev ReachBy (cond : Conn → Event → Prop) : Conn → Prop :=
  Lib.Transition.Reach Fresh fun c c' => ∃ e, cond c e ∧ Next c e c'

end Bsd386.Net.Tcp
