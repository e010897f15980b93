import Mathlib.Data.Int.Notation
import Mathlib.Tactic.Common

/-!
# TCP control blocks

The data of a TCP connection: sequence numbers and their comparisons, the states, the control
block, what of the socket TCP reads and writes, and segments. A short is `BitVec 16` and a
`tcp_seq` is `BitVec 32`; an mbuf chain and the contents of a socket buffer are their bytes, so
that `sb_cc` is a length. The storage that mbufs take is not here: where the source calls
`sbspace`, the value is an argument.

Source: `sys/netinet/tcp_input.c`, `tcp_output.c`, `tcp_var.h`.
-/

namespace Bsd386.Net.Tcp

/-! ## Sequence numbers -/

/-- `SEQ_LT`. -/
def seqLt (a b : BitVec 32) : Bool := (a - b).toInt < 0

/-- `SEQ_LEQ`. -/
def seqLeq (a b : BitVec 32) : Bool := (a - b).toInt ≤ 0

/-- `SEQ_GT`. -/
def seqGt (a b : BitVec 32) : Bool := 0 < (a - b).toInt

/-! ## States and flags -/

/-- TCP FSM state definitions. -/
inductive TcpState where
  | closed
  | listen
  | synSent
  | synReceived
  | established
  | closeWait
  | finWait1
  | closing
  | lastAck
  | finWait2
  | timeWait
deriving DecidableEq

/-- The number of a state; the source compares them. -/
def TcpState.num : TcpState → ℕ
  | closed => 0
  | listen => 1
  | synSent => 2
  | synReceived => 3
  | established => 4
  | closeWait => 5
  | finWait1 => 6
  | closing => 7
  | lastAck => 8
  | finWait2 => 9
  | timeWait => 10

/-- `TCPS_HAVERCVDSYN`. -/
def TcpState.haveRcvdSyn (s : TcpState) : Bool := TcpState.synReceived.num ≤ s.num

/-- `TCPS_HAVERCVDFIN`. -/
def TcpState.haveRcvdFin (s : TcpState) : Bool := TcpState.timeWait.num ≤ s.num

/-- `th_flags`. Source: tcp.h struct tcphdr -/
structure Flags where
  fin : Bool
  syn : Bool
  rst : Bool
  push : Bool
  ack : Bool
  urg : Bool
deriving DecidableEq

/-- A segment: its header, converted to host format, and the data of its mbuf chain.
Source: tcpip.h struct tcpiphdr -/
structure Tcpiphdr where
  seq : BitVec 32
  ack : BitVec 32
  len : BitVec 16
  flags : Flags
  win : BitVec 16
  urp : BitVec 16
  data : List UInt8
deriving DecidableEq

/-! ## Control block and socket -/

/-- The timers `t_timer[TCPT_NTIMERS]`. -/
structure Timers where
  rexmt : BitVec 16
  persist : BitVec 16
  keep : BitVec 16
  msl2 : BitVec 16
deriving DecidableEq

/-- Tcp control block, one per tcp. The sequencing queue `seg_next` is a list; the bits of `t_flags`
and `t_oobflags` are fields of their own.
Source: tcp_var.h struct tcpcb -/
structure Tcpcb where
  segs : List Tcpiphdr
  tState : TcpState
  tTimer : Timers
  tRxtshift : BitVec 16
  tRxtcur : BitVec 16
  tDupacks : BitVec 16
  tMaxseg : BitVec 16
  tForce : Bool
  tfAcknow : Bool
  tfDelack : Bool
  tfNodelay : Bool
  tfNoopt : Bool
  tfSentfin : Bool
  sndUna : BitVec 32
  sndNxt : BitVec 32
  sndUp : BitVec 32
  sndWl1 : BitVec 32
  sndWl2 : BitVec 32
  iss : BitVec 32
  sndWnd : BitVec 16
  rcvWnd : BitVec 16
  rcvNxt : BitVec 32
  rcvUp : BitVec 32
  irs : BitVec 32
  rcvAdv : BitVec 32
  sndMax : BitVec 32
  sndCwnd : BitVec 16
  sndSsthresh : BitVec 16
  tIdle : BitVec 16
  tRtt : BitVec 16
  tRtseq : BitVec 32
  tSrtt : BitVec 16
  tRttvar : BitVec 16
  tRttmin : BitVec 16
  maxSndwnd : BitVec 16
  oobHavedata : Bool
  oobHaddata : Bool
  tIobc : UInt8
  tSofterror : ℕ

/-- Create a new TCP control block, making an empty reassembly queue.
Source: tcp_newtcpcb -/
def tcpNewtcpcb : Tcpcb where
  segs := []
  tState := .closed
  tTimer := ⟨0, 0, 0, 0⟩
  tRxtshift := 0
  tRxtcur := 12
  tDupacks := 0
  tMaxseg := 512
  tForce := false
  tfAcknow := false
  tfDelack := false
  tfNodelay := false
  tfNoopt := false
  tfSentfin := false
  sndUna := 0
  sndNxt := 0
  sndUp := 0
  sndWl1 := 0
  sndWl2 := 0
  iss := 0
  sndWnd := 0
  rcvWnd := 0
  rcvNxt := 0
  rcvUp := 0
  irs := 0
  rcvAdv := 0
  sndMax := 0
  sndCwnd := 65535
  sndSsthresh := 65535
  tIdle := 0
  tRtt := 0
  tRtseq := 0
  tSrtt := 0
  tRttvar := 24
  tRttmin := 2
  maxSndwnd := 0
  oobHavedata := false
  oobHaddata := false
  tIobc := 0
  tSofterror := 0

/-- What TCP uses of a socket: the contents of its buffers, the high water mark of the receive
buffer, the bits of `so_state` and `so_options` it looks at, the out-of-band mark and the error.
Source: socketvar.h struct socket -/
structure Socket where
  soRcv : List UInt8
  soSnd : List UInt8
  rcvHiwat : BitVec 32
  ssCantrcvmore : Bool
  ssNofdref : Bool
  ssRcvatmark : Bool
  soOobinline : Bool
  soOobmark : BitVec 32
  soError : ℕ

/-- A connection. Source: in_pcb.h struct inpcb -/
structure Conn where
  tp : Tcpcb
  so : Socket

end Bsd386.Net.Tcp
