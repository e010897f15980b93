import Bsd386.Net.Tcp.Reass
import Bsd386.Net.Tcp.Sender

/-!
# TCP input for a segment of a connection

`tcp_input` from where it drops the headers, for a control block in `SYN_RECEIVED` or a later state, up to
where it hands the segment to `TCP_REASS`. Segments that header prediction takes have returned before. The
flags of the segment are in hand twice: `ti_flags`, which stays as it came, and `tiflags`.

Not here: statistics, wakeups and signals, and what follows the labels `drop`, `dropafterack` and
`dropwithreset`.
-/

namespace Bsd386.Net.Tcp

/-! ## What is in hand -/

/-- What is in hand at a point of `tcp_input`. Source: tcp_input -/
structure Input where
  conn : Conn
  ti : Tcpiphdr
  tiflags : Flags

/-- Where `tcp_input` goes when it does not go on. Source: tcp_input -/
inductive Label where
  | drop
  | dropafterack
  | dropwithreset
  /-- Back to look for another control block, with an initial sequence number for it. -/
  | findpcb (iss : BitVec 32)
  | panicked
deriving DecidableEq

/-- A label, and the connection unless `tcp_close` has discarded it.
Source: tcp_input -/
abbrev Exit : Type := Label × Option Conn

/-- What is fixed by the configuration and by the machine: whether the kernel has `TCP_COMPAT_42`,
`tcp_maxidle`, and what happens in a call of `tcp_output`. -/
structure Env where
  compat42 : Bool
  tcpMaxidle : BitVec 16
  os : List Outcome

/-- `ti_len`: what `ip_len`, a short without the length of the IP header, leaves after the TCP header of
`ti_off` words. `none` is `drop`.
Source: tcp_input -/
def tcpLen (ipLen : BitVec 16) (tiOff : BitVec 4) : Option (BitVec 16) :=
  let tlen := ipLen.toInt
  let off : ℤ := tiOff.toNat * 4
  if off < 20 ∨ tlen < off then none else some (BitVec.ofInt 16 (tlen - off))

/-- `m_adj` on the bytes of a chain: trim from the head, or from the tail.
Source: m_adj -/
def mAdj (m : List UInt8) (reqLen : ℤ) : List UInt8 :=
  if 0 ≤ reqLen then m.drop reqLen.toNat else m.take (m.length - (-reqLen).toNat)

/-- Calculate amount of space in receive window: space in the receive queue, but not less than the
advertised window. `max` is that of unsigned numbers.
Source: tcp_input; max -/
def setRcvWnd (c : Conn) (space : ℤ) : Conn :=
  let win := BitVec.ofInt 32 (if space < 0 then 0 else space)
  let adv := c.tp.rcvAdv - c.tp.rcvNxt
  { c with tp := { c.tp with rcvWnd := (if adv.toNat < win.toNat then win else adv).setWidth 16 } }

/-- `tp->t_flags |= TF_ACKNOW`. Source: tcp_input -/
def ackNow (c : Conn) : Conn := { c with tp := { c.tp with tfAcknow := true } }

/-! ## Trimming -/

/-- Drop the SYN of a segment that begins before `rcv_nxt`.
Source: tcp_input -/
def dropSyn (s : Input) : Input :=
  { s with
    ti := { s.ti with seq := s.ti.seq + 1, urp := if 1 < s.ti.urp.toNat then s.ti.urp - 1 else s.ti.urp }
    tiflags := { s.tiflags with syn := false, urg := s.tiflags.urg && decide (1 < s.ti.urp.toNat) } }

/-- Drop leading data. Source: tcp_input -/
def dropLeft (s : Input) (todrop : ℤ) : Input :=
  { s with
    ti := { s.ti with
      data := mAdj s.ti.data todrop
      seq := s.ti.seq + BitVec.ofInt 32 todrop
      len := s.ti.len - BitVec.ofInt 16 todrop
      urp := if todrop < s.ti.urp.toNat then s.ti.urp - BitVec.ofInt 16 todrop else 0 }
    tiflags := { s.tiflags with urg := s.tiflags.urg && decide (todrop < s.ti.urp.toNat) } }

/-- The segment is just one to the left of the window, for a FIN or a RST.
Source: tcp_input -/
def OneLeft (env : Env) (s : Input) (todrop : ℤ) : Prop :=
  s.tiflags.fin = true ∧ todrop = s.ti.len.toInt + 1 ∨
    env.compat42 = true ∧ s.tiflags.rst = true ∧ s.ti.seq = s.conn.tp.rcvNxt - 1

instance (env : Env) (s : Input) (todrop : ℤ) : Decidable (OneLeft env s todrop) :=
  inferInstanceAs (Decidable (_ ∨ _))

/-- Drop `todrop` leading bytes, a SYN already dropped; if nothing is left, just ack.
Source: tcp_input -/
def dropLeading (env : Env) (s : Input) (todrop : ℤ) : Except Exit Input :=
  if s.ti.len.toInt < todrop ∨ todrop = s.ti.len.toInt ∧ s.tiflags.fin = false then
    if OneLeft env s todrop then
      .ok (dropLeft { s with conn := ackNow s.conn, tiflags := { s.tiflags with fin := false } }
        s.ti.len.toInt)
    else if todrop ≠ 0 ∨ s.tiflags.ack = false then .error (.dropafterack, some s.conn)
    else .ok (dropLeft s todrop)
  else .ok (dropLeft s todrop)

/-- If segment begins before `rcv_nxt`, drop leading data (and SYN).
Source: tcp_input -/
def trimLeft (env : Env) (s : Input) : Except Exit Input :=
  let todrop := (s.conn.tp.rcvNxt - s.ti.seq).toInt
  if 0 < todrop then
    if s.tiflags.syn then dropLeading env (dropSyn s) (todrop - 1) else dropLeading env s todrop
  else .ok s

/-- If new data are received on a connection after the user processes are gone, then RST the other end.
Source: tcp_input -/
def afterClose (s : Input) : Except Exit Input :=
  if s.conn.so.ssNofdref = true ∧ TcpState.closeWait.num < s.conn.tp.tState.num ∧ s.ti.len ≠ 0 then
    .error (.dropwithreset, none)
  else .ok s

/-- `TCP_ISSINCR`. -/
def tcpIssincr : BitVec 32 := 128000

/-- Drop trailing data, and PUSH and FIN. Source: tcp_input -/
def dropRight (s : Input) (todrop : ℤ) : Input :=
  { s with
    ti := { s.ti with data := mAdj s.ti.data (-todrop), len := s.ti.len - BitVec.ofInt 16 todrop }
    tiflags := { s.tiflags with push := false, fin := false } }

/-- If segment ends after window, drop trailing data; if nothing left, just ACK.
Source: tcp_input -/
def trimRight (s : Input) : Except Exit Input :=
  let tp := s.conn.tp
  let todrop :=
    ((s.ti.seq + s.ti.len.signExtend 32) - (tp.rcvNxt + tp.rcvWnd.setWidth 32)).toInt
  if 0 < todrop then
    if s.ti.len.toInt ≤ todrop then
      if s.tiflags.syn = true ∧ tp.tState = .timeWait ∧ seqGt s.ti.seq tp.rcvNxt = true then
        .error (.findpcb (tp.rcvNxt + tcpIssincr), none)
      else if tp.rcvWnd = 0 ∧ s.ti.seq = tp.rcvNxt then
        .ok (dropRight { s with conn := ackNow s.conn } todrop)
      else .error (.dropafterack, some s.conn)
    else .ok (dropRight s todrop)
  else .ok s

/-! ## RST, SYN and ACK -/

/-- If the RST bit is set the connection is closed in every state from `SYN_RECEIVED` on; if a SYN is in
the window it is dropped; if the ACK bit is off we drop the segment and return.
Source: tcp_input -/
def checkFlags (s : Input) : Except Exit Input :=
  if s.tiflags.rst = true ∧ s.conn.tp.tState.haveRcvdSyn = true then .error (.drop, none)
  else if s.tiflags.syn then .error (.dropwithreset, none)
  else if s.tiflags.ack = false then .error (.drop, some s.conn)
  else .ok s

/-- Collect new round-trip time estimate and update averages and current timeout.
Source: tcp_xmit_timer -/
def tcpXmitTimer (tp : Tcpcb) : Tcpcb :=
  let atLeastOne (x : BitVec 16) : BitVec 16 := if x.toInt ≤ 0 then 1 else x
  let delta := tp.tRtt - 1 - tp.tSrtt.sshiftRight 3
  let dev := (if delta.toInt < 0 then -delta else delta) - tp.tRttvar.sshiftRight 2
  let srtt := if tp.tSrtt ≠ 0 then atLeastOne (tp.tSrtt + delta) else tp.tRtt <<< 3
  let rttvar := if tp.tSrtt ≠ 0 then atLeastOne (tp.tRttvar + dev) else tp.tRtt <<< 1
  { tp with
    tSrtt := srtt
    tRttvar := rttvar
    tRtt := 0
    tRxtshift := 0
    tRxtcur := rangeset ((srtt.sshiftRight 3).toInt + rttvar.toInt) tp.tRttmin.toNat 128
    tSofterror := 0 }

/-- `tcprexmtthresh`. -/
def tcprexmtthresh : ℤ := 3

/-- An acknowledgement of nothing new. Source: tcp_input -/
def duplicateAck (env : Env) (s : Input) : Except Exit Input :=
  let tp := s.conn.tp
  if s.ti.len = 0 ∧ s.ti.win = tp.sndWnd ∧ ¬ (tp.tTimer.rexmt = 0 ∨ s.ti.ack ≠ tp.sndUna) then
    let c := { s.conn with tp := { tp with tDupacks := tp.tDupacks + 1 } }
    if c.tp.tDupacks.toInt = tcprexmtthresh then
      .error (.drop, some (fastRexmtEnd tp.sndNxt (tcpOutput (fastRexmtStart c) env.os).1))
    else if tcprexmtthresh < c.tp.tDupacks.toInt then
      .error (.drop, some (tcpOutput
        { c with tp := { c.tp with sndCwnd := c.tp.sndCwnd + c.tp.tMaxseg } } env.os).1)
    else .ok { s with conn := c }
  else .ok { s with conn := { s.conn with tp := { tp with tDupacks := 0 } } }

/-- If the congestion window was inflated to account for the other side's cached packets, retract it.
Source: tcp_input -/
def retractCwnd (tp : Tcpcb) : Tcpcb :=
  { tp with
    sndCwnd := if tcprexmtthresh < tp.tDupacks.toInt ∧ tp.sndSsthresh.toNat < tp.sndCwnd.toNat then
      tp.sndSsthresh else tp.sndCwnd
    tDupacks := 0 }

/-- When new data is acked: the round trip time, the retransmit timer and the congestion window.
Source: tcp_input -/
def ackTimers (tp : Tcpcb) (ack : BitVec 32) : Tcpcb :=
  let tp := if tp.tRtt ≠ 0 ∧ seqGt ack tp.tRtseq then tcpXmitTimer tp else tp
  let rexmt :=
    if ack = tp.sndMax then 0 else if tp.tTimer.persist = 0 then tp.tRxtcur else tp.tTimer.rexmt
  let cw := tp.sndCwnd.toNat
  let incr := tp.tMaxseg.toNat
  let incr := if tp.sndSsthresh.toNat < cw then incr * incr / cw + incr / 8 else incr
  { tp with
    tTimer := { tp.tTimer with rexmt := rexmt }
    sndCwnd := BitVec.ofNat 16 (min (cw + incr) 65535) }

/-- `2 * TCPTV_MSL`. -/
def twoMsl : BitVec 16 := 120

/-- The timers after our FIN is acknowledged. Source: tcp_input -/
def ackedTimers (env : Env) (s : TcpState) (cantrcvmore : Bool) (t : Timers) : Timers :=
  match s with
  | .finWait1 => if cantrcvmore then { t with msl2 := env.tcpMaxidle } else t
  | .closing => ⟨0, 0, 0, twoMsl⟩
  | _ => t

/-- An acknowledgement of something new. Source: tcp_input -/
def newAck (env : Env) (s : Input) : Except Exit Input :=
  let c := { s.conn with tp := retractCwnd s.conn.tp }
  if seqGt s.ti.ack c.tp.sndMax then .error (.dropafterack, some c)
  else
    let ourfinisacked : Bool := c.so.soSnd.length < (s.ti.ack - c.tp.sndUna).toNat
    let c' := ackInput { c with tp := ackTimers c.tp s.ti.ack } s.ti.ack
    let timers := if ourfinisacked then
      ackedTimers env c.tp.tState c.so.ssCantrcvmore c'.tp.tTimer else c'.tp.tTimer
    if c.tp.tState = .lastAck ∧ ourfinisacked = true then .error (.drop, none)
    else if c.tp.tState = .timeWait then
      .error (.dropafterack, some { c' with tp := { c'.tp with
        tTimer := { c'.tp.tTimer with msl2 := twoMsl } } })
    else .ok { s with conn := { c' with tp := { c'.tp with tTimer := timers } } }

/-- Ack processing in `ESTABLISHED` and the states after it.
Source: tcp_input -/
def ackEstablished (env : Env) (s : Input) : Except Exit Input :=
  if seqLeq s.ti.ack s.conn.tp.sndUna then duplicateAck env s else newAck env s

/-- Ack processing. In `SYN_RECEIVED` state if the ack ACKs our SYN then enter `ESTABLISHED` state and
continue processing, otherwise send an RST.
Source: tcp_input -/
def ackProcess (env : Env) (s : Input) : Except Exit Input :=
  if s.conn.tp.tState = .synReceived then
    if seqGt s.conn.tp.sndUna s.ti.ack = true ∨ seqGt s.ti.ack s.conn.tp.sndMax = true then
      .error (.dropwithreset, some s.conn)
    else
      let c := (tcpReass { s.conn with tp := { s.conn.tp with tState := .established } } none).1
      ackEstablished env { s with conn := { c with tp := { c.tp with sndWl1 := s.ti.seq - 1 } } }
  else if TcpState.established.num ≤ s.conn.tp.tState.num then ackEstablished env s
  else .ok s

/-! ## Window, urgent data and the segment text -/

/-- `step6`: update window information. Source: tcp_input -/
def updateWindow (s : Input) : Input :=
  let tp := s.conn.tp
  if s.tiflags.ack = true ∧ (seqLt tp.sndWl1 s.ti.seq = true ∨ tp.sndWl1 = s.ti.seq ∧
      (seqLt tp.sndWl2 s.ti.ack = true ∨
        tp.sndWl2 = s.ti.ack ∧ tp.sndWnd.toNat < s.ti.win.toNat)) then
    { s with conn := { s.conn with tp := { tp with
        sndWnd := s.ti.win
        sndWl1 := s.ti.seq
        sndWl2 := s.ti.ack
        maxSndwnd := if tp.maxSndwnd.toNat < s.ti.win.toNat then s.ti.win else tp.maxSndwnd } } }
  else s

/-- Pull out of band byte out of a segment so it doesn't appear in the user's data queue. It is still
reflected in the segment length for sequencing purposes.
Source: tcp_pulloutofband -/
def tcpPulloutofband (s : Input) : Except Exit Input :=
  let cnt := s.ti.urp.toNat - 1
  match s.ti.data[cnt]? with
  | some b =>
    .ok { s with
      conn := { s.conn with tp := { s.conn.tp with tIobc := b, oobHavedata := true } }
      ti := { s.ti with data := s.ti.data.eraseIdx cnt } }
  | none => .error (.panicked, some s.conn)

/-- This segment advances the known urgent pointer: mark the data stream.
Source: tcp_input -/
def markUrgent (c : Conn) (up : BitVec 32) : Conn :=
  let mark := BitVec.ofNat 32 c.so.soRcv.length + (up - c.tp.rcvNxt) - 1
  { tp := { c.tp with rcvUp := up, oobHavedata := false, oobHaddata := false }
    so := { c.so with soOobmark := mark, ssRcvatmark := c.so.ssRcvatmark || decide (mark = 0) } }

/-- `SB_MAX`. -/
def sbMax : ℕ := 64 * 1024

/-- Process segments with URG. Source: tcp_input -/
def urgent (s : Input) : Except Exit Input :=
  let c := s.conn
  if s.tiflags.urg = true ∧ s.ti.urp ≠ 0 ∧ c.tp.tState.haveRcvdFin = false then
    if sbMax < s.ti.urp.toNat + c.so.soRcv.length then
      .ok { s with ti := { s.ti with urp := 0 }, tiflags := { s.tiflags with urg := false } }
    else
      let up := s.ti.seq + s.ti.urp.setWidth 32
      let c := if seqGt up c.tp.rcvUp then markUrgent c up else c
      if (s.ti.urp.toNat : ℤ) ≤ s.ti.len.toInt ∧ c.so.soOobinline = false then
        tcpPulloutofband { s with conn := c }
      else .ok { s with conn := c }
  else
    .ok { s with conn := { c with tp := { c.tp with
      rcvUp := if seqGt c.tp.rcvNxt c.tp.rcvUp then c.tp.rcvNxt else c.tp.rcvUp } } }

/-- From where the headers are dropped to `dodata`. Source: tcp_input -/
def toDodata (env : Env) (space : ℤ) (c : Conn) (ti : Tcpiphdr) : Except Exit Input := do
  let s ← trimLeft env ⟨setRcvWnd c space, ti, ti.flags⟩
  let s ← afterClose s
  let s ← trimRight s
  let s ← checkFlags s
  let s ← ackProcess env s
  urgent (updateWindow s)

/-- There is text or a FIN to process, and no FIN has been received.
Source: tcp_input -/
def Input.hasText (s : Input) : Bool :=
  (decide (s.ti.len ≠ 0) || s.tiflags.fin) && !s.conn.tp.tState.haveRcvdFin

/-- What is in hand where `tcp_input` reaches `TCP_REASS`, if it does.
Source: tcp_input -/
def atReass (env : Env) (space : ℤ) (c : Conn) (ti : Tcpiphdr) : Option Input :=
  match toDodata env space c ti with
  | .ok s => if s.hasText then some s else none
  | .error _ => none

end Bsd386.Net.Tcp
