import Mathlib.Tactic.Common

/-!
# PPP control protocols: the finite state machine

`ppp_cp_in`, `ppp_cp_timeout`, `ppp_cp_up`, `ppp_cp_down` and `ppp_cp_close` for one control protocol
(LCP or IPCP). What the protocol's own functions in `ppp_fsm_tab` do to the automaton is in the
events: the results of `ft_opt` on the options of a Configure-Request, and the calls of
`ppp_cp_close` by which `ft_optnak` may answer an option. Whether there are mbufs, and room in the
queues, is in the events too (`Supply`). A hook that a protocol does not have is one that does
nothing.

`timeout` and `untimeout` belong to the clock, which is not part of the repository: the state has the
number of callouts of `ft_timeout` that are pending, and of `untimeout` only what it does to none
and to a single one is known (`Conf`).

Source: `sys/net/ppp_fsm.c`.
-/

namespace Bsd386.Net.Ppp

/-- LCP finite state automaton states. -/
inductive CpState where
  | initial
  | starting
  | closed
  | stopped
  | closing
  | stopping
  | reqSent
  | ackRcvd
  | ackSent
  | opened
deriving DecidableEq

/-- The calls to the levels above and below: up, down and finished.
Source: struct ppp_fsm_tab -/
inductive Hook where
  | tlu
  | tld
  | tlf
deriving DecidableEq

/-- A packet that is sent: its code and `cp_id`.
Source: ppp_proto.h struct ppp_cp_hdr -/
inductive Packet where
  | confReq (id : BitVec 8)
  | confAck (id : BitVec 8)
  | confNak (id : BitVec 8)
  | confRej (id : BitVec 8)
  | termReq (id : BitVec 8)
  | termAck (id : BitVec 8)
  | other
deriving DecidableEq

/-- Option parsing result; `other` when `ft_opt` returns none of the four values. -/
inductive OptRes where
  | ok
  | rej
  | nak
  | fatal
  | other
deriving DecidableEq

/-- What there is while an event is processed: an mbuf for a Configure-Request, room in the queue for
it when a reply follows, an mbuf for the reply, room in the queue for the last packet, and room for
a Terminate-Request that `ft_optnak` causes. -/
structure Supply where
  creq : Bool
  creqRoom : Bool
  reply : Bool
  room : Bool
  closeRoom : Bool
deriving DecidableEq

/-- The parameters of a link, and `untimeout` as a function on the number of pending callouts.
Source: pppvar.h struct ppp_sc -/
structure Conf where
  maxconf : ℕ
  maxterm : ℕ
  untimeout : ℕ → ℕ
  untimeout_zero : untimeout 0 = 0
  untimeout_one : untimeout 1 = 0

/-- The parameters of a dial-up link, and a clock that takes one callout off at a time.
Source: ppp_defaults -/
def pppDefaults : Conf := ⟨10, 3, (· - 1), rfl, rfl⟩

/-- PPP finite state machine: `fsm_state`, `fsm_id` and `fsm_rc`, the number of pending restart
timeouts, the hooks called and the packets queued so far.
Source: pppvar.h struct ppp_fsm -/
structure Cp where
  state : CpState
  id : BitVec 8
  rc : ℕ
  pending : ℕ
  calls : List Hook
  out : List Packet
deriving DecidableEq

namespace Cp

/-- `newstate`. -/
def newstate (s : CpState) (fs : Cp) : Cp := { fs with state := s }

/-- `timeout(ft->ft_timeout, pp, pp->Ppp_ticks)`. -/
def timeout (fs : Cp) : Cp := { fs with pending := fs.pending + 1 }

/-- `untimeout(ft->ft_timeout, pp)`. -/
def untimeout (k : Conf) (fs : Cp) : Cp := { fs with pending := k.untimeout fs.pending }

def hook (h : Hook) (fs : Cp) : Cp := { fs with calls := fs.calls ++ [h] }

/-- `sendout`: queue the packet, if there is one and the queues are not full.
Source: ppp_cp_in -/
def sendout (room : Bool) (m : Option Packet) (fs : Cp) : Cp :=
  match m with
  | none => fs
  | some p => if room then { fs with out := fs.out ++ [p] } else fs

/-- Send out our own Configure-Request, with a new identifier, and start the timer.
Source: ppp_lcp_creq; ppp_ipcp_creq -/
def creq (mbuf room : Bool) (fs : Cp) : Cp :=
  sendout room (if mbuf then some (.confReq (fs.id + 1)) else none)
    (timeout { fs with id := fs.id + 1 })

/-- Initialize the restart counter, send terminate-request.
Source: ppp_cp_close -/
def terminate (k : Conf) (room : Bool) (fs : Cp) : Cp :=
  sendout room (some (.termReq 0))
    (timeout (untimeout k (newstate .closing { fs with rc := k.maxterm })))

/-- Close the protocol. Source: ppp_cp_close -/
def cpClose (k : Conf) (room : Bool) (fs : Cp) : Cp :=
  match fs.state with
  | .starting => newstate .initial fs
  | .stopped => newstate .closed fs
  | .opened => terminate k room (hook .tld fs)
  | .reqSent | .ackRcvd | .ackSent => terminate k room fs
  | .stopping => newstate .closing fs
  | .initial | .closed | .closing => fs

/-- The Up event from lower level. Source: ppp_cp_up -/
def cpUp (k : Conf) (sup : Supply) (fs : Cp) : Cp :=
  creq sup.creq sup.room (newstate .reqSent { fs with rc := k.maxconf })

/-- The Down event from lower level. Source: ppp_cp_down -/
def cpDown (k : Conf) (fs : Cp) : Cp :=
  untimeout k <|
    match fs.state with
    | .closing | .closed => newstate .initial fs
    | .opened => newstate .starting (hook .tld fs)
    | _ => newstate .starting fs

/-- Restart timeout. Source: ppp_cp_timeout -/
def cpTimeout (sup : Supply) (fs : Cp) : Cp :=
  if fs.rc = 1 then
    hook .tlf (newstate (if fs.state = .closing then .closed else .stopped) { fs with rc := 0 })
  else
    let fs := { fs with rc := fs.rc - 1 }
    match fs.state with
    | .closing | .stopping => sendout sup.room (some (.termReq 0)) (timeout fs)
    | .ackRcvd => creq sup.creq sup.room (newstate .reqSent fs)
    | .reqSent | .ackSent => creq sup.creq sup.room fs
    | _ => fs

/-! ## Received packets -/

/-- The options of a Configure-Request: whether one is rejected, whether one is nak-ed, and whether
there is a list of options to send back (`m0`).
Source: ppp_cp_in -/
structure Parsed where
  reject : Bool
  nak : Bool
  m0 : Bool
deriving DecidableEq

/-- Parse options. Each has the result of `ft_opt` (an option that is too long counts as rejected)
and whether `ppp_addopt` gets its mbuf. `none` for `OPT_FATAL`.
Source: ppp_cp_in -/
def parseOpts (r : Parsed) : List (OptRes × Bool) → Option Parsed
  | [] => some r
  | (.ok, _) :: opts => parseOpts r opts
  | (.rej, add) :: opts => parseOpts { r with reject := true, m0 := add } opts
  | (.nak, add) :: opts => parseOpts { r with nak := true, m0 := add } opts
  | (.other, add) :: opts => parseOpts { r with m0 := add } opts
  | (.fatal, _) :: _ => none

/-- Parse options, and send Nak/Reject/Ack depending on circumstances.
Source: ppp_cp_in -/
def answer (k : Conf) (sup : Supply) (cpid : BitVec 8) (opts : List (OptRes × Bool)) (fs : Cp) :
    Cp :=
  match parseOpts ⟨false, false, false⟩ opts with
  | none => cpClose k sup.room fs
  | some r =>
    if r.reject ∨ r.nak then
      if r.m0 = false then fs
      else
        sendout sup.room
          (if sup.reply then some (if r.reject then .confRej cpid else .confNak cpid) else none)
          (if fs.state ≠ .ackRcvd then newstate .reqSent fs else fs)
    else if sup.reply = false then fs
    else if sup.room = false then fs
    else
      let fs := sendout true (some (.confAck cpid)) fs
      if fs.state = .ackRcvd then hook .tlu (newstate .opened fs) else newstate .ackSent fs

/-- The messy case of resynching from OPENED state: levels above down, and our own
Configure-Request.
Source: ppp_cp_in -/
def resync (sup : Supply) (fs : Cp) : Cp := creq sup.creq sup.creqRoom (hook .tld fs)

/-- Configure-Request. Source: ppp_cp_in -/
def confReq (k : Conf) (sup : Supply) (cpid : BitVec 8) (opts : List (OptRes × Bool)) (fs : Cp) :
    Cp :=
  match fs.state with
  | .closing | .stopping => fs
  | .closed => sendout sup.room (some (.termAck cpid)) fs
  | .stopped => answer k sup cpid opts (resync sup { fs with rc := k.maxconf })
  | .opened => answer k sup cpid opts (resync sup fs)
  | _ => answer k sup cpid opts fs

/-- Configure-Ack. Source: ppp_cp_in -/
def confAck (k : Conf) (sup : Supply) (cpid : BitVec 8) (fs : Cp) : Cp :=
  if cpid ≠ fs.id then fs
  else
    let fs := untimeout k fs
    match fs.state with
    | .closed | .stopped => sendout sup.room (some (.termAck cpid)) fs
    | .reqSent => newstate .ackRcvd { fs with rc := k.maxconf }
    | .opened => creq sup.creq sup.room (newstate .reqSent (hook .tld fs))
    | .ackRcvd => creq sup.creq sup.room (newstate .reqSent fs)
    | .ackSent => hook .tlu (newstate .opened { fs with rc := k.maxconf })
    | _ => fs

/-- The options of a Configure-Nak or Configure-Reject: for each, whether `ft_optnak` closes the
protocol; then a new Configure-Request.
Source: ppp_cp_in -/
def retry (k : Conf) (sup : Supply) (closes : List Bool) (fs : Cp) : Cp :=
  creq sup.creq sup.room
    (closes.foldl (fun fs close => if close then cpClose k sup.closeRoom fs else fs) fs)

/-- Configure-Nak; Configure-Reject. Source: ppp_cp_in -/
def confNak (k : Conf) (sup : Supply) (cpid : BitVec 8) (closes : List Bool) (fs : Cp) : Cp :=
  if cpid ≠ fs.id then fs
  else
    let fs := untimeout k fs
    match fs.state with
    | .closed | .stopped => sendout sup.room (some (.termAck cpid)) fs
    | .reqSent | .ackSent => retry k sup closes { fs with rc := k.maxconf }
    | .opened => retry k sup closes (newstate .reqSent (hook .tld fs))
    | .ackRcvd => retry k sup closes (newstate .reqSent fs)
    | _ => fs

/-- Terminate-Request. Source: ppp_cp_in -/
def termReq (sup : Supply) (cpid : BitVec 8) (fs : Cp) : Cp :=
  sendout sup.room (if sup.reply then some (.termAck cpid) else none) <|
    match fs.state with
    | .opened => newstate .stopping (hook .tld { fs with rc := 1 })
    | .ackRcvd | .ackSent => newstate .reqSent fs
    | _ => fs

/-- Terminate-Ack. Source: ppp_cp_in -/
def termAck (k : Conf) (sup : Supply) (fs : Cp) : Cp :=
  let fs := untimeout k fs
  match fs.state with
  | .opened => creq sup.creq sup.room (hook .tld fs)
  | .ackRcvd => newstate .reqSent fs
  | .closing => hook .tlf (untimeout k (newstate .closed fs))
  | .stopping => hook .tlf (untimeout k (newstate .stopped fs))
  | _ => fs

end Cp

/-! ## Answers to a Configure-Request -/

/-- A Configure-Request is answered: with the options to reject or nak, or with an acknowledgement
that there is an mbuf and room for.
Source: ppp_cp_in -/
def Answered (sup : Supply) (opts : List (OptRes × Bool)) : Prop :=
  match Cp.parseOpts ⟨false, false, false⟩ opts with
  | none => False
  | some r =>
    if r.reject ∨ r.nak then r.m0 = true else sup.reply = true ∧ sup.room = true

/-- A Configure-Request is acknowledged. Source: ppp_cp_in -/
def Acked (sup : Supply) (opts : List (OptRes × Bool)) : Prop :=
  match Cp.parseOpts ⟨false, false, false⟩ opts with
  | none => False
  | some r => ¬(r.reject = true ∨ r.nak = true) ∧ sup.reply = true ∧ sup.room = true

theorem Acked.answered {sup : Supply} {opts : List (OptRes × Bool)} (h : Acked sup opts) :
    Answered sup opts := by
  unfold Acked at h
  unfold Answered
  cases hparse : Cp.parseOpts ⟨false, false, false⟩ opts with
  | none =>
    rw [hparse] at h
    exact h
  | some r =>
    rw [hparse] at h
    dsimp only at h ⊢
    rw [if_neg h.1]
    exact h.2

/-- **What answering can do**: close the protocol for a fatal option, nothing when there is no mbuf or
no room, send the options back, or acknowledge. -/
theorem answer_cases (k : Conf) (sup : Supply) (id : BitVec 8) (opts : List (OptRes × Bool))
    (fs : Cp) :
    (Cp.parseOpts ⟨false, false, false⟩ opts = none ∧
      fs.answer k sup id opts = fs.cpClose k sup.room) ∨
    (¬Answered sup opts ∧ Cp.parseOpts ⟨false, false, false⟩ opts ≠ none ∧
      fs.answer k sup id opts = fs) ∨
    (Answered sup opts ∧ ¬Acked sup opts ∧
      ∃ m, (m = none ∨ m = some (.confRej id) ∨ m = some (.confNak id)) ∧
        fs.answer k sup id opts =
          Cp.sendout sup.room m (if fs.state ≠ .ackRcvd then Cp.newstate .reqSent fs else fs)) ∨
    (Answered sup opts ∧ Acked sup opts ∧
      fs.answer k sup id opts =
        if (Cp.sendout true (some (.confAck id)) fs).state = .ackRcvd then
          Cp.hook .tlu (Cp.newstate .opened (Cp.sendout true (some (.confAck id)) fs))
        else Cp.newstate .ackSent (Cp.sendout true (some (.confAck id)) fs)) := by
  unfold Cp.answer Answered Acked
  cases hparse : Cp.parseOpts ⟨false, false, false⟩ opts with
  | none => exact .inl ⟨rfl, rfl⟩
  | some r =>
    dsimp only
    by_cases hrej : r.reject = true ∨ r.nak = true
    · rw [if_pos hrej, if_pos hrej]
      by_cases hm : r.m0 = false
      · rw [if_pos hm]
        exact .inr (.inl ⟨by simp [hm], by simp, rfl⟩)
      rw [if_neg hm]
      refine .inr (.inr (.inl ⟨by simpa using hm, fun h => h.1 hrej, _, ?_, rfl⟩))
      cases sup.reply
      · exact .inl rfl
      · cases r.reject
        · exact .inr (.inr rfl)
        · exact .inr (.inl rfl)
    · rw [if_neg hrej, if_neg hrej]
      by_cases hreply : sup.reply = false
      · rw [if_pos hreply]
        exact .inr (.inl ⟨by simp [hreply], by simp, rfl⟩)
      rw [if_neg hreply]
      by_cases hroom : sup.room = false
      · rw [if_pos hroom]
        exact .inr (.inl ⟨by simp [hroom], by simp, rfl⟩)
      rw [if_neg hroom]
      have hyes : sup.reply = true ∧ sup.room = true :=
        ⟨by simpa using hreply, by simpa using hroom⟩
      exact .inr (.inr (.inr ⟨hyes, ⟨hrej, hyes⟩, rfl⟩))

/-! ## Events -/

/-- A received packet. `other` is one with a bad length, a Code-Reject, or a code for `ft_xcodes`.
Source: ppp_cp_in -/
inductive Rcvd where
  | confReq (id : BitVec 8) (opts : List (OptRes × Bool))
  | confAck (id : BitVec 8)
  | confNak (id : BitVec 8) (closes : List Bool)
  | confRej (id : BitVec 8)
  | termReq (id : BitVec 8)
  | termAck (id : BitVec 8)
  | other
deriving DecidableEq

/-- Process an incoming control packet; it is ignored if link is supposed to be down.
Source: ppp_cp_in -/
def cpIn (k : Conf) (sup : Supply) (p : Rcvd) (fs : Cp) : Cp :=
  if fs.state = .initial ∨ fs.state = .starting then fs
  else
    match p with
    | .confReq id opts => fs.confReq k sup id opts
    | .confAck id => fs.confAck k sup id
    | .confNak id closes => fs.confNak k sup id closes
    | .confRej id => fs.confNak k sup id []
    | .termReq id => fs.termReq sup id
    | .termAck _ => fs.termAck k sup
    | .other => fs.sendout sup.room (if sup.reply then some .other else none)

/-- An event of a control protocol. -/
inductive Event where
  | packet (p : Rcvd)
  | timeout
  | up
  | down
  | close
deriving DecidableEq

/-- One event. A restart timeout happens only when one is pending, which is gone then. -/
def step (k : Conf) (fs : Cp) (e : Event × Supply) : Cp :=
  match e.1 with
  | .packet p => cpIn k e.2 p fs
  | .timeout => if fs.pending = 0 then fs else
      Cp.cpTimeout e.2 { fs with pending := fs.pending - 1 }
  | .up => fs.cpUp k e.2
  | .down => fs.cpDown k
  | .close => fs.cpClose k e.2.room

/-- There is an mbuf and room for everything. -/
def Supply.all : Supply := ⟨true, true, true, true, true⟩

/-- A protocol as `ppp_init` leaves it. Source: ppp_init -/
def start (id : BitVec 8) (rc : ℕ) : Cp := ⟨.starting, id, rc, 0, [], []⟩

end Bsd386.Net.Ppp
